import TinyWebserver.Base.HttpServer
import TinyWebserver.Http.Serving

/-!
# The clients of a server, one by one

The handlers of all clients run on the threads of the pool, in any order of their steps, and share the
objects in `users_`. What a client is sent is what a server with this client only sends, on a new object,
for what it has delivered, its files and what the kernel has accepted from it, `run_served`. So a client
that sends a message for a page which is there is sent the reply with the page, `run_page`. Both are about
runs in which no read fails, as a descriptor may then be closed twice, and about descriptors other than
zero, for which `HttpConn::init` does nothing.
-/

namespace HttpServer

open Transition HttpResponse

/-- What was recorded for a client: what was delivered by it, the files when its request was processed,
what the kernel has accepted for it, and the bytes it was sent. -/
structure Log where
  delivered : List (Except Errno (List Byte))
  fs : FileSystem
  accepted : List HttpConn.Accepted
  sent : List Byte

/-- A server, with a record for each client. -/
structure Watched where
  server : HttpServer
  logs : ℕ → Log

/-- A directory with no file in it. -/
def emptyDir : FileSystem := ⟨fun _ => none, fun _ => none, fun _ => false, fun _ _ => none⟩

namespace Log

/-- Nothing was recorded. -/
def empty : Log := ⟨[], emptyDir, [], []⟩

/-- What the record says of the visit of the client. -/
def visit (log : Log) (cfg : Config) (fd : ℤ) : HttpConn.Visit where
  fd := fd
  isKeepAlive := cfg.isKeepalive
  isET := cfg.isET
  delivered := log.delivered
  verify := cfg.verify
  fs := log.fs
  srcDir := cfg.srcDir
  accepted := log.accepted

end Log

namespace Watched

/-- No client has been accepted. -/
def start : Watched := ⟨HttpServer.start, fun _ => .empty⟩

/-- The bytes that the call of `write` of a client hands to the kernel. -/
def sentBy (t : Watched) (k : ℕ) (results : List HttpConn.Accepted) : List Byte :=
  ((t.server.clients[k]?.bind fun c => (t.server.users c.socket.sock).write results).map
    fun (_, _, sent) => sent).getD []

/-- The records after a step. -/
def record (t : Watched) : Step → ℕ → Log
  | .read k results => Function.update t.logs k { t.logs k with delivered := results }
  | .process k fs => Function.update t.logs k { t.logs k with fs := fs }
  | .write k results =>
      Function.update t.logs k { t.logs k with accepted := results, sent := t.sentBy k results }
  | _ => t.logs

/-- One step. -/
def step (cfg : Config) (t : Watched) (l : Step) : Option Watched :=
  (t.server.step cfg l).map fun server => ⟨server, t.record l⟩

/-- No read fails, unless the descriptor is zero, and the files that are served are small. -/
def Sound (t : Watched) (l : Step) : Prop :=
  t.server.Healthy l ∧ ∀ k fs, l = .process k fs → fs.Small

/-! ### What is known at each stage of a client -/

/-- What is known of the object of a client and of its record. Up to its response the object is what some
object becomes that was initialised for the client and has done nothing else, and behind it the record is
that of a new object with this client only. -/
def Seen (cfg : Config) (conn : HttpConn) (log : Log) (c : Client) : Prop :=
  match c.stage with
  | .accepted => log.sent = []
  | .initialised | .scheduled | .reading =>
      log.sent = [] ∧ ∃ c₀ : HttpConn, c₀.Reusable ∧ conn = c₀.init c.fd cfg.isKeepalive
  | .failed => False
  | .processing =>
      log.sent = [] ∧ ∃ (c₀ : HttpConn) (len : Except Errno ℕ), c₀.Reusable ∧
        (c₀.init c.fd cfg.isKeepalive).read cfg.isET log.delivered = some (len, conn)
  | .writing =>
      ∃ (c₀ c₁ : HttpConn) (len : Except Errno ℕ), c₀.Reusable ∧
        (c₀.init c.fd cfg.isKeepalive).read cfg.isET log.delivered = some (len, c₁) ∧
        c₁.process cfg.verify log.fs cfg.srcDir = some (true, conn)
  | .leaving | .gone => HttpConn.new.serve (log.visit cfg c.fd) = some log.sent

/-- The objects can be used again, the client of each descriptor has its own, and nothing was recorded for
clients that are still to come. -/
structure Inv (cfg : Config) (t : Watched) : Prop where
  server : t.server.Inv
  reusable : ∀ fd, (t.server.users fd).Reusable
  seen : ∀ k c, t.server.clients[k]? = some c → 0 < c.fd → Seen cfg (t.server.users c.fd) (t.logs k) c
  fresh : ∀ k, t.server.clients.length ≤ k → (t.logs k).sent = []

variable {cfg : Config} {t t' : Watched} {k : ℕ} {c : Client}

theorem start_inv :
  Inv cfg start
  := by
  refine ⟨HttpServer.start_inv, fun _ => HttpConn.new_reusable, ?_, fun _ _ => rfl⟩
  intro k c hc
  simp [start, HttpServer.start] at hc

/-- The descriptors of two clients that are both there are different. -/
theorem fd_ne (h : t.server.Inv) (hc : t.server.clients[k]? = some c) (hstage : c.stage ≠ .gone) {j : ℕ}
    {d : Client} (hd : t.server.clients[j]? = some d) (hstage' : d.stage ≠ .gone) (hkj : k ≠ j) :
  d.fd ≠ c.fd
  := by
  intro heq
  have hk := (h.client k c hc).owner hstage
  have hj := (h.client j d hd).owner hstage'
  rw [heq, hk] at hj
  apply hkj (Option.some.inj hj)

/-- What is known of a client survives a change of an object that is not the one of its descriptor, as long
as the client is there. -/
theorem Seen.of_users {conn conn' : HttpConn} {log : Log} (h : Seen cfg conn log c)
    (hconn : c.stage ≠ .gone → conn' = conn) :
  Seen cfg conn' log c
  := by
  by_cases hgone : c.stage = .gone
  · simp only [Seen, hgone] at h ⊢
    apply h
  · rw [hconn hgone]
    apply h

/-- A step of the handler of a client, or of the thread that has accepted it. -/
theorem Inv.handle (h : Inv cfg t) (hc : t.server.clients[k]? = some c) (hfrom : c.stage ≠ .gone)
    {conn : HttpConn} {stage : Stage} {log : Log}
    (hserver : ((t.server.setUser c.socket.sock conn).setClient k { c with stage := stage }).Inv)
    (hreusable : conn.Reusable) (hseen : 0 < c.fd → Seen cfg conn log { c with stage := stage }) :
  Inv cfg ⟨(t.server.setUser c.socket.sock conn).setClient k { c with stage := stage },
    Function.update t.logs k log⟩
  := by
  have hlt : k < t.server.clients.length := (List.getElem?_eq_some_iff.mp hc).1
  have hsock : c.socket.sock = c.fd := (h.server.client k c hc).sock hfrom
  refine ⟨hserver, ?_, ?_, ?_⟩
  · intro fd
    simp only [setClient, setUser]
    by_cases hfd : fd = c.socket.sock
    · rw [hfd, Function.update_self]
      apply hreusable
    · rw [Function.update_of_ne hfd]
      apply h.reusable
  · intro j d hd hfd
    simp only [setClient, setUser, List.getElem?_set] at hd ⊢
    split at hd
    · rename_i hkj
      subst hkj
      obtain rfl := Option.some.inj hd
      rw [hsock, Function.update_self, Function.update_self]
      apply hseen hfd
    · rename_i hkj
      rw [Function.update_of_ne (Ne.symm hkj)]
      refine (h.seen j d hd hfd).of_users ?_
      intro hstage
      rw [Function.update_of_ne]
      rw [hsock]
      apply fd_ne h.server hc hfrom hd hstage hkj
  · intro j hj
    simp only [setClient, setUser, List.length_set] at hj ⊢
    rw [Function.update_of_ne (by omega)]
    apply h.fresh j hj

/-- Such a step that adds nothing to the log of the client. -/
theorem Inv.handle_quiet (h : Inv cfg t) (hc : t.server.clients[k]? = some c) (hfrom : c.stage ≠ .gone)
    {conn : HttpConn} {stage : Stage}
    (hserver : ((t.server.setUser c.socket.sock conn).setClient k { c with stage := stage }).Inv)
    (hreusable : conn.Reusable) (hseen : 0 < c.fd → Seen cfg conn (t.logs k) { c with stage := stage }) :
  Inv cfg ⟨(t.server.setUser c.socket.sock conn).setClient k { c with stage := stage }, t.logs⟩
  := by
  have hnext := h.handle hc hfrom hserver hreusable hseen
  rwa [Function.update_eq_self] at hnext

/-- A step that changes neither the object of the client nor its record. -/
theorem Inv.setStage (h : Inv cfg t) (hc : t.server.clients[k]? = some c) (hfrom : c.stage ≠ .gone)
    {stage : Stage} (hserver : (t.server.setClient k { c with stage := stage }).Inv)
    (hseen : 0 < c.fd → Seen cfg (t.server.users c.fd) (t.logs k) { c with stage := stage }) :
  Inv cfg ⟨t.server.setClient k { c with stage := stage }, t.logs⟩
  := by
  have hsame : t.server.setUser c.socket.sock (t.server.users c.socket.sock) = t.server := by
    simp [setUser]
  have hsock : c.socket.sock = c.fd := (h.server.client k c hc).sock hfrom
  have hconn : (t.server.setUser c.socket.sock (t.server.users c.socket.sock)).setClient k
      { c with stage := stage } = t.server.setClient k { c with stage := stage } := by rw [hsame]
  have hseen' : 0 < c.fd → Seen cfg (t.server.users c.socket.sock) (t.logs k) { c with stage := stage } := by
    rw [hsock]
    apply hseen
  rw [← hconn]
  apply h.handle_quiet hc hfrom (hconn ▸ hserver) (h.reusable c.socket.sock) hseen'

/-- The kernel gives a descriptor to a new client. -/
theorem Inv.accept (h : Inv cfg t) {server : HttpServer} {fd : ℤ} {socket : Socket} (hserver : server.Inv)
    (husers : server.users = t.server.users)
    (hclients : server.clients = t.server.clients ++ [⟨fd, socket, .accepted⟩]) :
  Inv cfg ⟨server, t.logs⟩
  := by
  refine ⟨hserver, ?_, ?_, ?_⟩
  · intro fd
    rw [husers]
    apply h.reusable
  · intro j d hd hfd
    simp only [hclients, List.getElem?_append] at hd
    rw [husers]
    split at hd
    · apply h.seen j d hd hfd
    · rename_i hj
      obtain ⟨-, rfl⟩ : _ ∧ (⟨fd, socket, .accepted⟩ : Client) = d := by
        simpa [List.getElem?_singleton] using hd
      apply h.fresh j (by omega)
  · intro j hj
    simp only [hclients, List.length_append, List.length_singleton] at hj
    apply h.fresh j (by omega)

/-- The socket of a client goes. -/
theorem Inv.destroy (h : Inv cfg t) (hc : t.server.clients[k]? = some c) (hstage : c.stage = .leaving)
    (hserver : (t.server.closeSocket k c .gone).Inv) :
  Inv cfg ⟨t.server.closeSocket k c .gone, t.logs⟩
  := by
  obtain ⟨owner, closings, socket, hclosed⟩ : ∃ owner closings socket, t.server.closeSocket k c .gone
      = { t.server with
        owner := owner
        closings := closings
        clients := t.server.clients.set k { c with socket := socket, stage := .gone } } := by
    rcases hclose : c.socket.close with ⟨ok, fd, socket⟩
    simp only [closeSocket, hclose]
    cases fd with
    | none => exact ⟨_, _, socket, rfl⟩
    | some fd => exact ⟨_, _, socket, rfl⟩
  rw [hclosed] at hserver ⊢
  refine ⟨hserver, h.reusable, ?_, ?_⟩
  · intro j d hd hfd
    simp only [List.getElem?_set] at hd ⊢
    split at hd
    · rename_i hkj
      subst hkj
      rw [if_pos (List.getElem?_eq_some_iff.mp hc).1] at hd
      obtain rfl := Option.some.inj hd
      have hseen := h.seen k c hc hfd
      simp only [Seen, hstage] at hseen ⊢
      apply hseen
    · apply h.seen j d hd hfd
  · intro j hj
    rw [List.length_set] at hj
    apply h.fresh j hj

/-- What was recorded at the end of a call of `write` is what a new object sends. -/
theorem serve_of_write {conn conn' : HttpConn} {log : Log} (hfd : 0 < c.fd) (hstage : c.stage = .writing)
    (h : Seen cfg conn log c) {results : List HttpConn.Accepted} {ret : HttpConn.Accepted} {sent : List Byte}
    (hwrite : conn.write results = some (ret, conn', sent)) :
  HttpConn.new.serve (Log.visit { log with accepted := results, sent := sent } cfg c.fd) = some sent
  := by
  simp only [Seen, hstage] at h
  obtain ⟨c₀, c₁, len, hc₀, hread, hprocess⟩ := h
  rw [← HttpConn.serve_eq hc₀ HttpConn.new_reusable hfd]
  have hsent := HttpConn.sentBy_of_write hwrite []
  rw [List.append_nil] at hsent
  simp [HttpConn.serve, Log.visit, hread, hprocess, hsent]

/-- What was recorded of a request that has nothing to be processed is what a new object sends. -/
theorem serve_of_process {conn conn' : HttpConn} {log : Log} (hfd : 0 < c.fd) (hstage : c.stage = .processing)
    (h : Seen cfg conn log c) {fs : FileSystem}
    (hprocess : conn.process cfg.verify fs cfg.srcDir = some (false, conn')) :
  HttpConn.new.serve (Log.visit { log with fs := fs } cfg c.fd) = some log.sent
  := by
  simp only [Seen, hstage] at h
  obtain ⟨hsent, c₀, len, hc₀, hread⟩ := h
  rw [← HttpConn.serve_eq hc₀ HttpConn.new_reusable hfd, hsent]
  simp [HttpConn.serve, Log.visit, hread, hprocess]

theorem Inv.step (h : Inv cfg t) {l : Step} (hok : t.Sound l) (hstep : t.step cfg l = some t') :
  Inv cfg t'
  := by
  obtain ⟨server, hs, rfl⟩ := Option.map_eq_some_iff.mp hstep
  have hserver : server.Inv := h.server.step hok.1 hs
  cases l with
  | accept fd =>
      simp only [HttpServer.step] at hs
      split at hs
      · obtain rfl := Option.some.inj hs
        apply h.accept hserver rfl rfl
      · cases hs
  | init k =>
      obtain ⟨c, hat, rfl⟩ := Option.map_eq_some_iff.mp hs
      obtain ⟨hc, hstage⟩ := clientAt_eq_some.mp hat
      have hsock : c.socket.sock = c.fd := (h.server.client k c hc).sock (by simp [hstage])
      apply h.handle_quiet hc (by simp [hstage]) hserver ((h.reusable _).init _ _)
      intro hfd
      have hseen := h.seen k c hc hfd
      simp only [Seen, hstage] at hseen ⊢
      refine ⟨hseen, _, h.reusable c.fd, ?_⟩
      rw [hsock]
  | schedule k =>
      obtain ⟨c, hat, rfl⟩ := Option.map_eq_some_iff.mp hs
      obtain ⟨hc, hstage⟩ := clientAt_eq_some.mp hat
      apply h.setStage hc (by simp [hstage]) hserver
      intro hfd
      have hseen := h.seen k c hc hfd
      simp only [Seen, hstage] at hseen ⊢
      apply hseen
  | enter k =>
      obtain ⟨c, hat, hs⟩ := Option.map_eq_some_iff.mp hs
      obtain ⟨hc, hstage⟩ := clientAt_eq_some.mp hat
      have hfine := h.server.client k c hc
      have hvalid : c.socket.isValid = true := by
        have hnonneg := hfine.nonneg
        rw [Socket.isValid, hfine.sock (by simp [hstage]), decide_eq_true_eq]
        omega
      rw [if_pos hvalid] at hs
      subst hs
      apply h.setStage hc (by simp [hstage]) hserver
      intro hfd
      have hseen := h.seen k c hc hfd
      simp only [Seen, hstage] at hseen ⊢
      apply hseen
  | read k results =>
      obtain ⟨c, hat, hs⟩ := Option.bind_eq_some_iff.mp hs
      obtain ⟨hc, hstage⟩ := clientAt_eq_some.mp hat
      obtain ⟨⟨readLen, conn⟩, hread, rfl⟩ := Option.map_eq_some_iff.mp hs
      have hsock : c.socket.sock = c.fd := (h.server.client k c hc).sock (by simp [hstage])
      apply h.handle hc (by simp [hstage]) hserver ((h.reusable _).read hread)
      intro hfd
      have hfine : HttpServer.readFails readLen = false := by
        rw [HttpConn.readFails_read hread, ← Bool.not_eq_true]
        intro hbroken
        have hzero := hok.1 c hc hbroken
        omega
      have hseen := h.seen k c hc hfd
      simp only [Seen, hstage, hfine] at hseen ⊢
      obtain ⟨hsent, c₀, hc₀, hconn⟩ := hseen
      rw [hsock, hconn] at hread
      exact ⟨hsent, c₀, readLen, hc₀, hread⟩
  | close k =>
      obtain ⟨c, hat, hs⟩ := Option.map_eq_some_iff.mp hs
      obtain ⟨hc, hstage⟩ := clientAt_eq_some.mp hat
      have hfine := h.server.client k c hc
      have hzero : c.fd = 0 := hfine.failed hstage
      have hsock : c.socket.sock = 0 := by rw [hfine.sock (by simp [hstage]), hzero]
      have hclosed : (t.server.users c.socket.sock).isClose = true := by rw [hsock, h.server.zero]
      obtain ⟨conn, hclose, -⟩ := HttpConn.close_of_isClose hclosed
      have hreusable : conn.Reusable := by
        have hstep : (t.server.users c.socket.sock).step .close = some conn := by
          rw [HttpConn.step, hclose]
        have hsmall : HttpConn.Op.Small .close := trivial
        exact (h.reusable c.socket.sock).step hsmall hstep
      simp only [hclose] at hs
      subst hs
      apply h.handle_quiet hc (by simp [hstage]) hserver hreusable
      intro hfd
      omega
  | process k fs =>
      obtain ⟨c, hat, hs⟩ := Option.bind_eq_some_iff.mp hs
      obtain ⟨hc, hstage⟩ := clientAt_eq_some.mp hat
      obtain ⟨⟨ok, conn⟩, hprocess, rfl⟩ := Option.map_eq_some_iff.mp hs
      have hsock : c.socket.sock = c.fd := (h.server.client k c hc).sock (by simp [hstage])
      apply h.handle hc (by simp [hstage]) hserver ((h.reusable _).process (hok.2 k fs rfl) hprocess)
      intro hfd
      have hseen := h.seen k c hc hfd
      rw [hsock] at hprocess
      cases ok with
      | false => exact serve_of_process hfd hstage hseen hprocess
      | true =>
          simp only [Seen, hstage] at hseen ⊢
          obtain ⟨-, c₀, len, hc₀, hread⟩ := hseen
          exact ⟨c₀, _, len, hc₀, hread, hprocess⟩
  | write k results =>
      obtain ⟨c, hat, hs⟩ := Option.bind_eq_some_iff.mp hs
      obtain ⟨hc, hstage⟩ := clientAt_eq_some.mp hat
      obtain ⟨⟨ret, conn, sent⟩, hwrite, rfl⟩ := Option.map_eq_some_iff.mp hs
      have hsock : c.socket.sock = c.fd := (h.server.client k c hc).sock (by simp [hstage])
      have hsent : t.sentBy k results = sent := by simp [sentBy, hc, hwrite]
      apply h.handle hc (by simp [hstage]) hserver ((h.reusable _).write hwrite)
      intro hfd
      rw [hsent]
      rw [hsock] at hwrite
      exact serve_of_write hfd hstage (h.seen k c hc hfd) hwrite
  | destroy k =>
      obtain ⟨c, hat, rfl⟩ := Option.map_eq_some_iff.mp hs
      obtain ⟨hc, hstage⟩ := clientAt_eq_some.mp hat
      apply h.destroy hc hstage hserver

theorem run_inv {ls : List Step} (hok : Guarded (step cfg) Sound start ls)
    (h : run (step cfg) start ls = some t) :
  Inv cfg t
  := run_guarded_invariant (fun _ _ _ hs hl hstep => Inv.step hs hl hstep) start_inv hok h

/-- The handler of a client is through. -/
def Served (c : Client) : Prop := c.stage = .leaving ∨ c.stage = .gone

theorem Inv.served (h : Inv cfg t) (hc : t.server.clients[k]? = some c) (hfd : 0 < c.fd) (hserved : Served c) :
  HttpConn.new.serve ((t.logs k).visit cfg c.fd) = some (t.logs k).sent
  := by
  have hseen := h.seen k c hc hfd
  cases hserved with
  | inl hstage =>
      simp only [Seen, hstage] at hseen
      apply hseen
  | inr hstage =>
      simp only [Seen, hstage] at hseen
      apply hseen

/-- Two clients on the descriptors 5 and 6, whose handlers take turns. The message of the first one comes in
two parts and its response goes out in two. -/
def takingTurns : List Step :=
  [.accept 5, .accept 6, .init 1, .init 0, .schedule 0, .enter 0, .schedule 1,
    .read 0 [.ok (HttpConn.forIndex.serialize.take 9), .ok (HttpConn.forIndex.serialize.drop 9), .error 11],
    .enter 1, .read 1 [.ok (ascii "nonsense"), .error 11], .process 1 HttpConn.threeBytes,
    .process 0 HttpConn.threeBytes, .write 1 [.ok 10, .error 32], .write 0 [.ok 60, .ok 62], .destroy 1]

/-- A server of the directory `/srv` with edge triggering. -/
def srvET : Config := ⟨true, false, fun _ _ _ => true, ascii "/srv"⟩

theorem takingTurns_sound :
  Guarded (step srvET) Sound start takingTurns
  := by
  have hhealthy : Guarded (step srvET) (fun t l => t.server.Healthy l) start takingTurns := by decide +kernel
  have hsmall : ∀ l ∈ takingTurns, ∀ k fs, l = .process k fs → fs.Small := by
    intro l hl k fs heq
    subst heq
    simp only [takingTurns, List.mem_cons, List.not_mem_nil, reduceCtorEq, false_or, or_false,
      Step.process.injEq] at hl
    rcases hl with ⟨-, rfl⟩ | ⟨-, rfl⟩
    · apply HttpConn.threeBytes_small
    · apply HttpConn.threeBytes_small
  exact hhealthy.and (guarded_of_forall hsmall)

theorem takingTurns_clients :
  (run (step srvET) start takingTurns).map (fun t => t.server.clients)
    = some [⟨5, ⟨5, true⟩, .leaving⟩, ⟨6, ⟨-1, false⟩, .gone⟩]
  := by
  decide +kernel

/-- For every order of the steps of all clients in which no read fails: when the handler of a client is
through, the client was sent what it would have been sent by a new object, for what it has delivered, the
files when it was processed, and what the kernel has accepted for it. -/
theorem run_served {ls : List Step} (hok : Guarded (step cfg) Sound start ls)
    (h : run (step cfg) start ls = some t) (hc : t.server.clients[k]? = some c) (hfd : 0 < c.fd)
    (hserved : Served c) :
  HttpConn.new.serve ((t.logs k).visit cfg c.fd) = some (t.logs k).sent
  := (run_inv hok h).served hc hfd hserved

theorem run_served_takingTurns :
  ∃ t, run (step srvET) start takingTurns = some t ∧
    HttpConn.new.serve ((t.logs 1).visit srvET 6) = some (t.logs 1).sent
  := by
  obtain ⟨t, ht, hclients⟩ := Option.map_eq_some_iff.mp takingTurns_clients
  refine ⟨t, ht, ?_⟩
  exact run_served takingTurns_sound ht (k := 1) (c := ⟨6, ⟨-1, false⟩, .gone⟩) (by rw [hclients]; rfl)
    (by decide) (Or.inr rfl)

/-- For every order of the steps of all clients in which no read fails: when the handler of a client is
through that has sent a well-formed message which is no form, which the calls of `readv` have delivered to the
last byte, and the page it asks for was there, then the client was sent the reply with this page, as far as the
kernel has accepted it. -/
theorem run_page {ls : List Step} (hok : Guarded (step cfg) Sound start ls)
    (h : run (step cfg) start ls = some t) (hc : t.server.clients[k]? = some c) (hfd : 0 < c.fd)
    (hserved : Served c) {q : Message} (hq : q.WellFormed) (hform : ¬ q.IsForm)
    (hdelivered : HttpConn.delivered (t.logs k).delivered = q.serialize) (hdir : cfg.srcDir ≠ [])
    {file : List Byte}
    (hfile : (t.logs k).fs.Has (found cfg.srcDir q.path (decide q.IsAlive)).fileName file) :
  HttpConn.Sends (Reply.page (found cfg.srcDir q.path (decide q.IsAlive)) file).text (t.logs k).accepted
    (t.logs k).sent
  := by
  have hserve := (run_inv hok h).served hc hfd hserved
  obtain ⟨⟨len, c₁⟩, hread, -⟩ := Option.bind_eq_some_iff.mp hserve
  obtain ⟨sent, hsent, hsends⟩ := HttpConn.new_reusable.sends_page hfd hq (hq.asks hform _ _) hread hdelivered hdir hfile
  obtain rfl : (t.logs k).sent = sent := Option.some.inj (hserve.symm.trans hsent)
  apply hsends

theorem run_page_takingTurns :
  ∃ t, run (step srvET) start takingTurns = some t ∧
    HttpConn.Sends
      (Reply.page (found (ascii "/srv") HttpConn.forIndex.path (decide HttpConn.forIndex.IsAlive))
        (ascii "abc")).text
      (t.logs 0).accepted (t.logs 0).sent
  := by
  obtain ⟨t, ht, hclients⟩ := Option.map_eq_some_iff.mp takingTurns_clients
  have hlog : (run (step srvET) start takingTurns).map (fun t => HttpConn.delivered (t.logs 0).delivered)
      = some HttpConn.forIndex.serialize := by decide +kernel
  let name := (found (ascii "/srv") HttpConn.forIndex.path (decide HttpConn.forIndex.IsAlive)).fileName
  have hcalls : (run (step srvET) start takingTurns).map (fun t =>
      ((t.logs 0).fs.stat name, (t.logs 0).fs.opens name, ((t.logs 0).fs.mmap name 3).map Subtype.val))
      = some (some ⟨0o100644, 3⟩, true, some (ascii "abc")) := by decide +kernel
  rw [ht, Option.map_some, Option.some.injEq] at hlog hcalls
  obtain ⟨hstat, hrest⟩ := Prod.mk.inj hcalls
  obtain ⟨hopens, hmmap⟩ := Prod.mk.inj hrest
  have hfile : (t.logs 0).fs.Has name (ascii "abc") := by
    refine ⟨⟨_, hstat, by decide, by decide, by decide⟩, hopens, ?_⟩
    intro _
    exact Option.map_eq_some_iff.mp hmmap
  refine ⟨t, ht, ?_⟩
  exact run_page takingTurns_sound ht (k := 0) (c := ⟨5, ⟨5, true⟩, .leaving⟩) (by rw [hclients]; rfl)
    (by decide) (Or.inl rfl) (q := HttpConn.forIndex) (by decide) (by decide) hlog (by decide) hfile

end Watched

end HttpServer

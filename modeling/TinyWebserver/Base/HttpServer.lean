import TinyWebserver.Http.Conn
import TinyWebserver.Lib.Transition

/-!
# The server and the descriptors of its clients

The class `HttpServer` of `base/http_server.cpp`, with the class `Socket` of `base/socket.cpp` as far
as it opens and closes descriptors. An accepted descriptor has two objects that may close it: the
`HttpConn` that `users_` keeps under its number, after a read that has failed, and the `Socket`, when
its last pointer goes. The kernel hands out the number again after the first of the two, and the second
one then closes the descriptor of another client, `closed_twice`. In every run in which no read fails,
every accepted descriptor is closed once, and at that time it belongs to the connection that closes it,
`run_closesOnce`. The descriptor zero is the exception to the exception: `HttpConn::init` refuses it.

The steps of the thread that accepts and of the threads that run `handleClient` are taken in any order.
A client is the number of accepted connections before it. The map `users_` has no lock: its calls are
taken to have effect one at a time.
-/

/-- The class `Socket`, less what the kernel keeps and the addresses. -/
structure Socket where
  sock : ℤ
  isConnected : Bool
deriving DecidableEq, Repr

namespace Socket

/-- The constructor. -/
def new : Socket := ⟨-1, false⟩

/-- `init`, for a descriptor that is not negative: the manager of the descriptors then has a context
for it, which nothing ever closes. -/
def init (_ : Socket) (sock : ℤ) : Socket := ⟨sock, true⟩

/-- `isValid`. -/
def isValid (s : Socket) : Bool := s.sock ≠ -1

/-- `close`, with the value it returns and the descriptor it closes, if any. -/
def close (s : Socket) : Bool × Option ℤ × Socket :=
  if s.isConnected = false ∧ s.sock = -1 then (true, none, s)
  else if s.sock ≠ -1 then (false, some s.sock, ⟨-1, false⟩)
  else (false, none, ⟨s.sock, false⟩)

end Socket

namespace HttpServer

open Transition

/-- The value `EAGAIN` of `errno`. -/
def EAGAIN : Errno := 11

/-- The test of `handleClient` after `read`, where `errnoNum` is zero unless `read` has set it. -/
def readFails : Except Errno ℕ → Bool
  | .ok len => len = 0
  | .error e => e ≠ EAGAIN

/-- Where a client is: accepted by the kernel, with an initialised `HttpConn`, with a scheduled handler,
in the handler, or behind it, with or without its `Socket`. -/
inductive Stage where
  | accepted
  | initialised
  | scheduled
  | reading
  | failed
  | processing
  | writing
  | leaving
  | gone
deriving DecidableEq, Repr

/-- A client, with the descriptor that the kernel has returned for it. -/
structure Client where
  fd : ℤ
  socket : Socket
  stage : Stage
deriving DecidableEq

/-- A call of `::close` for a client, with the client to which the descriptor belongs at the time. -/
structure Closing where
  client : ℕ
  fd : ℤ
  owner : Option ℕ
deriving DecidableEq

/-- What does not change while the server runs. -/
structure Config where
  isET : Bool
  isKeepalive : Bool
  verify : HttpRequest.Verify
  srcDir : List Byte

end HttpServer

/-- The class `HttpServer`, with its clients, the client to which the kernel has given a descriptor, and
the calls of `::close` so far. -/
structure HttpServer where
  users : ℤ → HttpConn
  clients : List HttpServer.Client
  owner : ℤ → Option ℕ
  closings : List HttpServer.Closing

namespace HttpServer

open Transition

/-- No client has been accepted. -/
def start : HttpServer := ⟨fun _ => .new, [], fun _ => none, []⟩

/-- The client `k`, if it is at the given stage. -/
def clientAt (s : HttpServer) (k : ℕ) (stage : Stage) : Option Client :=
  s.clients[k]?.filter fun c => c.stage = stage

/-- The server after a change of a client. -/
def setClient (s : HttpServer) (k : ℕ) (c : Client) : HttpServer :=
  { s with clients := s.clients.set k c }

/-- The server after a change of the object in `users_`, where `operator[]` makes a new one for a descriptor
that has none. -/
def setUser (s : HttpServer) (fd : ℤ) (conn : HttpConn) : HttpServer :=
  { s with users := Function.update s.users fd conn }

/-- A call of `::close` for a client, if there is a descriptor to close. -/
def kernelClose (s : HttpServer) (k : ℕ) : Option ℤ → HttpServer
  | none => s
  | some fd =>
      { s with
        owner := Function.update s.owner fd none
        closings := s.closings ++ [⟨k, fd, s.owner fd⟩] }

/-- `Socket::close` for the socket of a client, which then is at the given stage. -/
def closeSocket (s : HttpServer) (k : ℕ) (c : Client) (stage : Stage) : HttpServer :=
  let (_, fd, socket) := c.socket.close
  (s.kernelClose k fd).setClient k { c with socket := socket, stage := stage }

/-- A step of `startAccept`: the kernel returns a descriptor that is not in use, the object in `users_`
is initialised, or the handler is scheduled. A step of `handleClient`: its start, the call of `read`,
the call of `Close` after a read that has failed, the call of `process`, the call of `write`. The end of
the last pointer to the socket. -/
inductive Step where
  | accept (fd : ℤ)
  | init (k : ℕ)
  | schedule (k : ℕ)
  | enter (k : ℕ)
  | read (k : ℕ) (results : List (Except Errno (List Byte)))
  | close (k : ℕ)
  | process (k : ℕ) (fs : FileSystem)
  | write (k : ℕ) (results : List HttpConn.Accepted)
  | destroy (k : ℕ)

/-- One step. -/
def step (cfg : Config) (s : HttpServer) : Step → Option HttpServer
  | .accept fd =>
      if 0 ≤ fd ∧ s.owner fd = none then
        some { s with
          clients := s.clients ++ [⟨fd, Socket.new.init fd, .accepted⟩]
          owner := Function.update s.owner fd (some s.clients.length) }
      else none
  | .init k =>
      (s.clientAt k .accepted).map fun c =>
        (s.setUser c.socket.sock
          ((s.users c.socket.sock).init c.socket.sock cfg.isKeepalive)).setClient k
            { c with stage := .initialised }
  | .schedule k =>
      (s.clientAt k .initialised).map fun c => s.setClient k { c with stage := .scheduled }
  | .enter k =>
      (s.clientAt k .scheduled).map fun c =>
        if c.socket.isValid then s.setClient k { c with stage := .reading }
        else s.closeSocket k c .leaving
  | .read k results =>
      (s.clientAt k .reading).bind fun c =>
        ((s.users c.socket.sock).read cfg.isET results).map fun (readLen, conn) =>
          (s.setUser c.socket.sock conn).setClient k
            { c with stage := if readFails readLen then .failed else .processing }
  | .close k =>
      (s.clientAt k .failed).map fun c =>
        let (fd, conn) := (s.users c.socket.sock).close
        ((s.setUser c.socket.sock conn).kernelClose k fd).setClient k { c with stage := .leaving }
  | .process k fs =>
      (s.clientAt k .processing).bind fun c =>
        ((s.users c.socket.sock).process cfg.verify fs cfg.srcDir).map fun (ok, conn) =>
          (s.setUser c.socket.sock conn).setClient k
            { c with stage := if ok then .writing else .leaving }
  | .write k results =>
      (s.clientAt k .writing).bind fun c =>
        ((s.users c.socket.sock).write results).map fun (_, conn, _) =>
          (s.setUser c.socket.sock conn).setClient k { c with stage := .leaving }
  | .destroy k => (s.clientAt k .leaving).map fun c => s.closeSocket k c .gone

/-- The last call of `readv` in `read` finds the end of the connection, or fails with an error other than
`EAGAIN`. -/
def Broken (results : List (Except Errno (List Byte))) : Bool :=
  match results.getLast? with
  | some (.ok data) => data = []
  | some (.error e) => e ≠ EAGAIN
  | none => false

/-- No read fails, unless the descriptor is zero. -/
def Healthy (s : HttpServer) : Step → Prop
  | .read k results => ∀ c ∈ s.clients[k]?, Broken results = true → c.fd = 0
  | _ => True

instance Healthy.decidable (s : HttpServer) : ∀ l : Step, Decidable (s.Healthy l)
  | .read k results =>
      match h : s.clients[k]? with
      | none => .isTrue (by simp [Healthy, h])
      | some c => decidable_of_iff (Broken results = true → c.fd = 0) (by simp [Healthy, h])
  | .accept _ | .init _ | .schedule _ | .enter _ | .close _ | .process _ _ | .write _ _ | .destroy _ =>
      inferInstanceAs (Decidable True)

/-- The calls of `::close` for a client. -/
def closingsOf (s : HttpServer) (k : ℕ) : List Closing := s.closings.filter fun e => e.client = k

end HttpServer

/-! ### What the handler does to the object in `users_` -/

namespace HttpConn

/-- The descriptor of a connection is the same, and it is closed or not as before. -/
def SameFd (c c' : HttpConn) : Prop := c'.fd = c.fd ∧ c'.isClose = c.isClose

theorem SameFd.trans {c c' c'' : HttpConn} (h : c.SameFd c') (h' : c'.SameFd c'') :
  c.SameFd c''
  := ⟨h'.1.trans h.1, h'.2.trans h.2⟩

theorem sameFd_read {isET : Bool} {c c' : HttpConn} {results : List (Except Errno (List Byte))}
    {len : Except Errno ℕ} (h : c.read isET results = some (len, c')) :
  c.SameFd c'
  := by
  induction results generalizing c with
  | nil => simp [read] at h
  | cons res results ih =>
      obtain ⟨len₁, readBuff, -, ⟨-, -, rfl⟩ | hrest⟩ := read_cons h
      · exact ⟨rfl, rfl⟩
      · apply ih hrest

/-- A read fails if and only if its last call of `readv` does. -/
theorem readFails_read {isET : Bool} {c c' : HttpConn} {results : List (Except Errno (List Byte))}
    {len : Except Errno ℕ} (h : c.read isET results = some (len, c')) :
  HttpServer.readFails len = HttpServer.Broken results
  := by
  induction results generalizing c with
  | nil => simp [read] at h
  | cons res results ih =>
      obtain ⟨len₁, readBuff, hread, ⟨rfl, rfl, -⟩ | hrest⟩ := read_cons h
      · cases res with
        | error e =>
            obtain ⟨rfl, -⟩ : Except.error e = len₁ ∧ _ := by simpa [Buffer.readFd] using hread
            rfl
        | ok data =>
            have hlen : len₁ = .ok data.length := Buffer.readFd_len hread
            simp [hlen, HttpServer.readFails, HttpServer.Broken]
      · cases results with
        | nil => simp [read] at hrest
        | cons res' results =>
            rw [ih hrest]
            simp [HttpServer.Broken]

/-- `Close` closes nothing twice. -/
theorem close_of_isClose {c : HttpConn} (h : c.isClose = true) :
  ∃ c', c.close = (none, c') ∧ c'.isClose = true
  := by
  use { c with response := c.response.unmapFile }
  simp [close, h]

theorem sameFd_process {verify : HttpRequest.Verify} {fs : FileSystem} {srcDir : List Byte}
    {c c' : HttpConn} {ok : Bool} (h : c.process verify fs srcDir = some (ok, c')) :
  c.SameFd c'
  := by
  simp only [process] at h
  split at h
  · obtain ⟨-, rfl⟩ := Prod.mk.inj (Option.some.inj h)
    exact ⟨rfl, rfl⟩
  · obtain ⟨⟨parsed, request, readBuff⟩, -, h⟩ := Option.bind_eq_some_iff.mp h
    obtain ⟨response, -, h⟩ := Option.bind_eq_some_iff.mp h
    obtain ⟨⟨response', writeBuff⟩, -, h⟩ := Option.bind_eq_some_iff.mp h
    obtain ⟨-, rfl⟩ := Prod.mk.inj (Option.some.inj h)
    simp only [describe]
    split
    · split
      · exact ⟨rfl, rfl⟩
      · exact ⟨rfl, rfl⟩
    · exact ⟨rfl, rfl⟩

theorem sameFd_writeTurn {c c' : HttpConn} {res : Accepted} {ret : Option Accepted}
    {sent : List Byte} (h : c.writeTurn res = some (ret, c', sent)) :
  c.SameFd c'
  := by
  obtain rfl | ⟨len, rfl⟩ := eq_or_advance_of_writeTurn h
  · exact ⟨rfl, rfl⟩
  · obtain ⟨base₀, base₁, writeBuff, heq, -⟩ := c.advance_eq len
    rw [heq]
    exact ⟨rfl, rfl⟩

theorem sameFd_write {c c' : HttpConn} {results : List Accepted} {ret : Accepted}
    {sent : List Byte} (h : c.write results = some (ret, c', sent)) :
  c.SameFd c'
  := by
  induction results generalizing c sent with
  | nil => simp [write] at h
  | cons res results ih =>
      obtain ⟨ret₁, c₁, sent₁, hturn, ⟨-, -, rfl, -⟩ | ⟨-, sent₂, hwrite, -⟩⟩ := write_cons h
      · apply sameFd_writeTurn hturn
      · apply (sameFd_writeTurn hturn).trans (ih hwrite)

end HttpConn

/-! ### Who closes what -/

namespace HttpServer

open Transition

variable {cfg : Config} {s s' : HttpServer} {k : ℕ} {c : Client}

theorem clientAt_eq_some {stage : Stage} :
  s.clientAt k stage = some c ↔ s.clients[k]? = some c ∧ c.stage = stage
  := by
  simp [clientAt, Option.filter_eq_some_iff]

/-- A client has its descriptor as long as it has its socket, a failed read was one from descriptor
zero, and the one call of `::close` for it comes with the end of the socket. -/
structure Client.Fine (s : HttpServer) (k : ℕ) (c : Client) : Prop where
  nonneg : 0 ≤ c.fd
  sock : c.stage ≠ .gone → c.socket.sock = c.fd
  owner : c.stage ≠ .gone → s.owner c.fd = some k
  failed : c.stage = .failed → c.fd = 0
  closings : s.closingsOf k = if c.stage = .gone then [⟨k, c.fd, some k⟩] else []

structure Inv (s : HttpServer) : Prop where
  client : ∀ (k : ℕ) (c : Client), s.clients[k]? = some c → c.Fine s k
  zero : (s.users 0).isClose = true
  owner_lt : ∀ (fd : ℤ) (k : ℕ), s.owner fd = some k → k < s.clients.length
  closings : ∀ e ∈ s.closings, e.client < s.clients.length ∧ e.owner = some e.client

theorem start_inv :
  start.Inv
  := by
  refine ⟨?_, rfl, ?_, ?_⟩
  · intro k c hc
    simp [start] at hc
  · intro fd k hk
    simp [start] at hk
  · intro e he
    simp [start] at he

/-- Nothing changes for the clients when an object in `users_` does, other than the one for descriptor
zero. -/
theorem Inv.setUser (h : s.Inv) {fd : ℤ} {conn : HttpConn}
    (hconn : conn.isClose = (s.users fd).isClose ∨ fd ≠ 0) :
  (s.setUser fd conn).Inv
  := by
  refine ⟨?_, ?_, h.owner_lt, h.closings⟩
  · intro k c hc
    have hfine := h.client k c hc
    exact ⟨hfine.nonneg, hfine.sock, hfine.owner, hfine.failed, hfine.closings⟩
  · simp only [HttpServer.setUser]
    by_cases hfd : fd = 0
    · subst hfd
      rw [Function.update_self, hconn.resolve_right (by simp), h.zero]
    · rw [Function.update_of_ne (Ne.symm hfd), h.zero]

/-- A client gets to another stage and keeps its socket. -/
theorem Inv.setStage (h : s.Inv) (hc : s.clients[k]? = some c) (hfrom : c.stage ≠ .gone)
    {stage : Stage} (hto : stage ≠ .gone) (hfailed : stage = .failed → c.fd = 0) :
  (s.setClient k { c with stage := stage }).Inv
  := by
  refine ⟨?_, h.zero, ?_, ?_⟩
  · intro j d hd
    simp only [setClient, List.getElem?_set] at hd
    split at hd
    · rename_i hkj
      subst hkj
      split at hd
      · obtain rfl := Option.some.inj hd
        have hfine := h.client k c hc
        refine ⟨hfine.nonneg, fun _ => hfine.sock hfrom, fun _ => hfine.owner hfrom, hfailed, ?_⟩
        have hnone := hfine.closings
        rw [if_neg hfrom] at hnone
        rw [if_neg hto]
        apply hnone
      · simp at hd
    · have hfine := h.client j d hd
      exact ⟨hfine.nonneg, hfine.sock, hfine.owner, hfine.failed, hfine.closings⟩
  · intro fd j hj
    simpa [setClient] using h.owner_lt fd j hj
  · intro e he
    simpa [setClient] using h.closings e he

/-- The kernel gives a descriptor to a new client that nobody has. -/
theorem Inv.accept (h : s.Inv) {fd : ℤ} (hfd : 0 ≤ fd) (hfree : s.owner fd = none) :
  Inv { s with
    clients := s.clients ++ [⟨fd, Socket.new.init fd, .accepted⟩]
    owner := Function.update s.owner fd (some s.clients.length) }
  := by
  refine ⟨?_, h.zero, ?_, ?_⟩
  · intro k c hc
    simp only [List.getElem?_append] at hc
    split at hc
    · have hfine := h.client k c hc
      refine ⟨hfine.nonneg, hfine.sock, ?_, hfine.failed, hfine.closings⟩
      intro hstage
      have howner := hfine.owner hstage
      have hne : c.fd ≠ fd := by
        intro heq
        rw [heq, hfree] at howner
        simp at howner
      simpa only [Function.update_of_ne hne] using howner
    · rename_i hk
      obtain ⟨hk0, rfl⟩ : k - s.clients.length = 0 ∧
          (⟨fd, Socket.new.init fd, .accepted⟩ : Client) = c := by
        simpa [List.getElem?_singleton] using hc
      obtain rfl : k = s.clients.length := by omega
      refine ⟨hfd, fun _ => rfl, fun _ => Function.update_self .., by simp, ?_⟩
      simp only [closingsOf, if_neg (by simp : ¬ Stage.accepted = .gone), List.filter_eq_nil_iff,
        decide_eq_true_eq]
      intro e he heq
      have := (h.closings e he).1
      omega
  · intro fd' k hk
    simp only [List.length_append, List.length_singleton]
    by_cases hfd' : fd' = fd
    · subst hfd'
      obtain rfl : s.clients.length = k := by simpa using hk
      omega
    · simp only [Function.update_of_ne hfd'] at hk
      have := h.owner_lt fd' k hk
      omega
  · intro e he
    have := h.closings e he
    simp only [List.length_append, List.length_singleton]
    exact ⟨by omega, this.2⟩

/-- The socket of a client closes its descriptor. -/
theorem Inv.destroy (h : s.Inv) (hc : s.clients[k]? = some c) (hstage : c.stage ≠ .gone) :
  (s.closeSocket k c .gone).Inv
  := by
  have hfine := h.client k c hc
  have hlt : k < s.clients.length := (List.getElem?_eq_some_iff.mp hc).1
  have hsock := hfine.sock hstage
  have howner := hfine.owner hstage
  have hclose : c.socket.close = (false, some c.fd, ⟨-1, false⟩) := by
    have hne : c.socket.sock ≠ -1 := by
      rw [hsock]
      have := hfine.nonneg
      omega
    rw [Socket.close, if_neg (by simp [hne]), if_pos hne, hsock]
  simp only [closeSocket, hclose, kernelClose, howner]
  refine ⟨?_, h.zero, ?_, ?_⟩
  · intro j d hd
    simp only [setClient, List.getElem?_set] at hd
    split at hd
    · rename_i hkj
      subst hkj
      obtain rfl := Option.some.inj hd
      refine ⟨hfine.nonneg, by simp, by simp, by simp, ?_⟩
      have hnone := hfine.closings
      rw [if_neg hstage, closingsOf] at hnone
      simp [closingsOf, setClient, hnone]
    · rename_i hkj
      have hother := h.client j d hd
      refine ⟨hother.nonneg, hother.sock, ?_, hother.failed, ?_⟩
      · intro hd'
        have hne : d.fd ≠ c.fd := by
          intro heq
          have := hother.owner hd'
          rw [heq, howner] at this
          apply hkj (Option.some.inj this)
        simp only [setClient, Function.update_of_ne hne]
        apply hother.owner hd'
      · rw [← hother.closings]
        simp [closingsOf, setClient, hkj]
  · intro fd j hj
    simp only [setClient, List.length_set] at hj ⊢
    by_cases hfd : fd = c.fd
    · subst hfd
      simp at hj
    · rw [Function.update_of_ne hfd] at hj
      apply h.owner_lt fd j hj
  · intro e he
    simp only [setClient, List.length_set, List.mem_append, List.mem_singleton] at he ⊢
    cases he with
    | inl he => apply h.closings e he
    | inr he =>
        subst he
        exact ⟨hlt, rfl⟩

/-- The handler works on the object in `users_`, without closing it, and gets on. -/
theorem Inv.handle (h : s.Inv) (hc : s.clients[k]? = some c) (hfrom : c.stage ≠ .gone)
    {conn : HttpConn} (hconn : conn.isClose = (s.users c.socket.sock).isClose) {stage : Stage}
    (hto : stage ≠ .gone) (hfailed : stage = .failed → c.fd = 0) :
  ((s.setUser c.socket.sock conn).setClient k { c with stage := stage }).Inv
  := (h.setUser (Or.inl hconn)).setStage hc hfrom hto hfailed

theorem Inv.step (h : s.Inv) {l : Step} (hok : s.Healthy l) (hstep : s.step cfg l = some s') :
  s'.Inv
  := by
  cases l with
  | accept fd =>
      simp only [HttpServer.step] at hstep
      split at hstep
      · rename_i hfd
        obtain rfl := Option.some.inj hstep
        apply h.accept hfd.1 hfd.2
      · simp at hstep
  | init k =>
      obtain ⟨c, hat, rfl⟩ := Option.map_eq_some_iff.mp hstep
      obtain ⟨hc, hstage⟩ := clientAt_eq_some.mp hat
      refine (h.setUser ?_).setStage hc (by simp [hstage]) (by simp) (by simp)
      by_cases hsock : c.socket.sock = 0
      · left
        simp [HttpConn.init, hsock]
      · exact Or.inr hsock
  | schedule k =>
      obtain ⟨c, hat, rfl⟩ := Option.map_eq_some_iff.mp hstep
      obtain ⟨hc, hstage⟩ := clientAt_eq_some.mp hat
      apply h.setStage hc (by simp [hstage]) (by simp) (by simp)
  | enter k =>
      obtain ⟨c, hat, rfl⟩ := Option.map_eq_some_iff.mp hstep
      obtain ⟨hc, hstage⟩ := clientAt_eq_some.mp hat
      have hfine := h.client k c hc
      have hvalid : c.socket.isValid = true := by
        have hnonneg := hfine.nonneg
        rw [Socket.isValid, hfine.sock (by simp [hstage]), decide_eq_true_eq]
        omega
      rw [if_pos hvalid]
      apply h.setStage hc (by simp [hstage]) (by simp) (by simp)
  | read k results =>
      obtain ⟨c, hat, hstep⟩ := Option.bind_eq_some_iff.mp hstep
      obtain ⟨hc, hstage⟩ := clientAt_eq_some.mp hat
      obtain ⟨⟨readLen, conn⟩, hread, rfl⟩ := Option.map_eq_some_iff.mp hstep
      have hfails := HttpConn.readFails_read hread
      apply h.handle hc (by simp [hstage]) (HttpConn.sameFd_read hread).2
      · split <;> simp
      · intro hfailed
        apply hok c hc
        rw [← hfails]
        by_contra hfine
        simp [hfine] at hfailed
  | close k =>
      obtain ⟨c, hat, rfl⟩ := Option.map_eq_some_iff.mp hstep
      obtain ⟨hc, hstage⟩ := clientAt_eq_some.mp hat
      have hfine := h.client k c hc
      have hsock : c.socket.sock = 0 := by
        rw [hfine.sock (by simp [hstage]), hfine.failed hstage]
      have hclosed : (s.users c.socket.sock).isClose = true := by rw [hsock, h.zero]
      obtain ⟨conn, hclose, hconn⟩ := HttpConn.close_of_isClose hclosed
      simp only [hclose]
      refine h.handle hc ?_ (hconn.trans hclosed.symm) ?_ ?_
      · simp [hstage]
      · simp
      · simp
  | process k fs =>
      obtain ⟨c, hat, hstep⟩ := Option.bind_eq_some_iff.mp hstep
      obtain ⟨hc, hstage⟩ := clientAt_eq_some.mp hat
      obtain ⟨⟨ok, conn⟩, hprocess, rfl⟩ := Option.map_eq_some_iff.mp hstep
      apply h.handle hc (by simp [hstage]) (HttpConn.sameFd_process hprocess).2
      · split <;> simp
      · split <;> simp
  | write k results =>
      obtain ⟨c, hat, hstep⟩ := Option.bind_eq_some_iff.mp hstep
      obtain ⟨hc, hstage⟩ := clientAt_eq_some.mp hat
      obtain ⟨⟨ret, conn, sent⟩, hwrite, rfl⟩ := Option.map_eq_some_iff.mp hstep
      apply h.handle hc (by simp [hstage]) (HttpConn.sameFd_write hwrite).2 (by simp) (by simp)
  | destroy k =>
      obtain ⟨c, hat, rfl⟩ := Option.map_eq_some_iff.mp hstep
      obtain ⟨hc, hstage⟩ := clientAt_eq_some.mp hat
      apply h.destroy hc (by simp [hstage])

/-- In every run in which no read fails on a descriptor other than zero, every call of `::close` is on a
descriptor that belongs to the client it is made for, and there is exactly one for every client whose
socket is gone, on its own descriptor, and none for the others. -/
theorem run_closesOnce {ls : List Step} (hok : Guarded (step cfg) Healthy start ls)
    (h : run (step cfg) start ls = some s) :
  (∀ e ∈ s.closings, e.owner = some e.client) ∧
    ∀ k c, s.clients[k]? = some c →
      s.closingsOf k = if c.stage = .gone then [⟨k, c.fd, some k⟩] else []
  := by
  have hInv : s.Inv :=
    run_guarded_invariant (fun _ _ _ hs hl hstep => hs.step hl hstep) start_inv hok h
  constructor
  · intro e he
    apply (hInv.closings e he).2
  · intro k c hc
    apply (hInv.client k c hc).closings

/-- A server of the directory `/srv`. -/
def srv : Config := ⟨false, false, fun _ _ _ => true, ascii "/srv"⟩

/-- A directory without files. -/
def noFiles : FileSystem := ⟨fun _ => none, fun _ => none, fun _ => false, fun _ _ => none⟩

/-- A client on descriptor 5 is served and another one gets the same descriptor after it. -/
def oneAfterTheOther : List Step :=
  [.accept 5, .init 0, .schedule 0, .enter 0, .read 0 [.ok (ascii "GET / HTTP/1.1" ++ crlf ++ crlf)],
    .process 0 noFiles, .write 0 [.error 32], .destroy 0, .accept 5, .init 1, .schedule 1]

theorem run_closesOnce_oneAfterTheOther :
  ∃ s, run (step srv) start oneAfterTheOther = some s ∧ s.closings = [⟨0, 5, some 0⟩] ∧
    s.closingsOf 1 = []
  := by
  have hrun : ((run (step srv) start oneAfterTheOther).map fun s => (s.clients, s.closings))
      = some ([⟨5, ⟨-1, false⟩, .gone⟩, ⟨5, ⟨5, true⟩, .scheduled⟩], [⟨0, 5, some 0⟩]) := by
    decide +kernel
  obtain ⟨s, hs, hfields⟩ := Option.map_eq_some_iff.mp hrun
  obtain ⟨hclients, hclosings⟩ := Prod.mk.inj hfields
  have hok : Guarded (step srv) Healthy start oneAfterTheOther := by decide +kernel
  refine ⟨s, hs, hclosings, ?_⟩
  rw [(run_closesOnce hok hs).2 1 ⟨5, ⟨5, true⟩, .scheduled⟩ (by simp [hclients])]
  rfl

/-- The client on descriptor 5 hangs up, its `HttpConn` closes the descriptor, and the kernel gives it to
another client before the socket of the first one goes. -/
def hangsUp : List Step :=
  [.accept 5, .init 0, .schedule 0, .enter 0, .read 0 [.ok []], .close 0, .accept 5, .init 1, .destroy 0]

/-- The descriptor of the first client is closed twice, the second time when it belongs to the second
client, which has not been served yet. -/
theorem closed_twice :
  ∃ s, run (step srv) start hangsUp = some s ∧
    s.closingsOf 0 = [⟨0, 5, some 0⟩, ⟨0, 5, some 1⟩] ∧
    s.clients[1]? = some ⟨5, ⟨5, true⟩, .initialised⟩ ∧ s.owner 5 = none
  := by
  have hrun : ((run (step srv) start hangsUp).map fun s =>
      (s.closingsOf 0, s.clients[1]?, s.owner 5))
      = some ([⟨0, 5, some 0⟩, ⟨0, 5, some 1⟩], some ⟨5, ⟨5, true⟩, .initialised⟩, none) := by
    decide +kernel
  obtain ⟨s, hs, hfields⟩ := Option.map_eq_some_iff.mp hrun
  obtain ⟨hclosings, hrest⟩ := Prod.mk.inj hfields
  obtain ⟨hclient, howner⟩ := Prod.mk.inj hrest
  exact ⟨s, hs, hclosings, hclient, howner⟩

end HttpServer

import TinyWebserver.Base.HttpServer
import TinyWebserver.Lib.Counting

/-!
# The count of the users

`HttpConn::userCount` goes up in `HttpConn::init` and down in `HttpConn::Close`, while the descriptors of
the clients are also closed by their sockets. `userCount_guarded_iff` says in which runs of the server the
count is the number of the connections whose descriptor is open: the socket of a client must not go while
its descriptor is open, but the handler calls `Close` only after a read that has failed.

The count is an integer without bounds. In a state where it is right it is below the number of
descriptors, so that it is also right as an `int`.
-/

namespace HttpConn

/-- What `init` does to `userCount`. -/
def countInit (fd userCount : ℤ) : ℤ := if fd ≤ 0 then userCount else userCount + 1

/-- What `Close` does to `userCount`. -/
def countClose (c : HttpConn) (userCount : ℤ) : ℤ :=
  if c.isClose = false then userCount - 1 else userCount

end HttpConn

namespace HttpServer

open Transition

/-- The server with the count of the users. -/
structure Counted where
  server : HttpServer
  userCount : ℤ

namespace Counted

/-- The constructor of the server sets the count to zero. -/
def start : Counted := ⟨HttpServer.start, 0⟩

end Counted

/-- The count of the users after a step. -/
def countAfter (s : HttpServer) (userCount : ℤ) : Step → ℤ
  | .init k =>
      match s.clientAt k .accepted with
      | some c => HttpConn.countInit c.socket.sock userCount
      | none => userCount
  | .close k =>
      match s.clientAt k .failed with
      | some c => (s.users c.socket.sock).countClose userCount
      | none => userCount
  | _ => userCount

/-- One step of the server, with the count. -/
def countedStep (cfg : Config) (s : Counted) (l : Step) : Option Counted :=
  (s.server.step cfg l).map fun server => ⟨server, s.server.countAfter s.userCount l⟩

/-- The client `k` has been initialised, and its descriptor is open. -/
def IsOpen (s : HttpServer) (k : ℕ) : Prop :=
  ∃ c ∈ s.clients[k]?, c.stage ≠ .accepted ∧ s.owner c.fd = some k

instance (s : HttpServer) (k : ℕ) : Decidable (s.IsOpen k) :=
  match h : s.clients[k]? with
  | none => .isFalse (by simp [IsOpen, h])
  | some c =>
      decidable_of_iff (c.stage ≠ .accepted ∧ s.owner c.fd = some k) (by simp [IsOpen, h])

/-- The number of accepted connections whose descriptor is open. -/
def openCount (s : HttpServer) : ℕ := Nat.count s.IsOpen s.clients.length

/-- The descriptor is open, and it belongs to a client that has been initialised. -/
def InUse (s : HttpServer) (fd : ℤ) : Prop := ∃ k ∈ s.owner fd, s.IsOpen k

instance (s : HttpServer) (fd : ℤ) : Decidable (s.InUse fd) :=
  match h : s.owner fd with
  | none => .isFalse (by simp [InUse, h])
  | some k => decidable_of_iff (s.IsOpen k) (by simp [InUse, h])

/-- The count of the users is the number of the connections that are open, and not negative. -/
def Accurate (s : Counted) : Prop :=
  s.userCount = s.server.openCount ∧ 0 ≤ s.userCount

/-- What the count of the users needs: a client is initialised on a descriptor that it still has, `Close`
closes the descriptor of a client that has been initialised, and the socket of a client does not close
one. The descriptor zero is never counted. -/
def CountKept (s : HttpServer) : Step → Prop
  | .init k => ∀ c ∈ s.clientAt k .accepted, 0 < c.fd ↔ s.owner c.fd = some k
  | .close k => ∀ c ∈ s.clientAt k .failed, (s.users c.fd).isClose = false → s.InUse c.fd
  | .destroy k => ∀ c ∈ s.clientAt k .leaving, ¬ s.InUse c.fd
  | _ => True

/-! ### What holds in every state -/

variable {cfg : Config} {s s' : HttpServer} {k : ℕ} {c : Client}

/-- A client has its descriptor number in its socket until that goes, a descriptor belongs to a client
that has its number, and an object in `users_` that is open has its own number. -/
structure Wf (s : HttpServer) : Prop where
  nonneg : ∀ {k : ℕ} {c : Client}, s.clients[k]? = some c → 0 ≤ c.fd
  sock : ∀ {k : ℕ} {c : Client}, s.clients[k]? = some c → c.stage ≠ .gone → c.socket.sock = c.fd
  owner : ∀ {fd : ℤ} {k : ℕ}, s.owner fd = some k → ∃ c, s.clients[k]? = some c ∧ c.fd = fd
  users : ∀ {fd : ℤ}, (s.users fd).isClose = false → (s.users fd).fd = fd

theorem start_wf :
  start.Wf
  := by
  refine ⟨?_, ?_, ?_, ?_⟩
  · intro k c hc
    simp [start] at hc
  · intro k c hc
    simp [start] at hc
  · intro fd k hk
    simp [start] at hk
  · intro fd hfd
    simp [start, HttpConn.new] at hfd

theorem Wf.setUser (h : s.Wf) {fd : ℤ} {conn : HttpConn}
    (hconn : conn.isClose = false → conn.fd = fd) :
  (s.setUser fd conn).Wf
  := by
  refine ⟨h.nonneg, h.sock, h.owner, ?_⟩
  intro fd' hfd'
  simp only [HttpServer.setUser] at hfd' ⊢
  by_cases heq : fd' = fd
  · subst heq
    rw [Function.update_self] at hfd' ⊢
    apply hconn hfd'
  · rw [Function.update_of_ne heq] at hfd' ⊢
    apply h.users hfd'

/-- A client changes, and keeps its number. -/
theorem Wf.setClient (h : s.Wf) (hc : s.clients[k]? = some c) (d : Client) (hfd : d.fd = c.fd)
    (hsock : d.stage ≠ .gone → d.socket.sock = d.fd) :
  (s.setClient k d).Wf
  := by
  have hlt : k < s.clients.length := (List.getElem?_eq_some_iff.mp hc).1
  have hget : ∀ {j e}, (s.setClient k d).clients[j]? = some e →
      j = k ∧ e = d ∨ s.clients[j]? = some e := by
    intro j e he
    simp only [HttpServer.setClient, List.getElem?_set, hlt, if_true] at he
    split at he
    · rename_i hkj
      exact Or.inl ⟨hkj.symm, (Option.some.inj he).symm⟩
    · exact Or.inr he
  refine ⟨?_, ?_, ?_, h.users⟩
  · intro j e he
    rcases hget he with ⟨-, rfl⟩ | he
    · rw [hfd]
      apply h.nonneg hc
    · apply h.nonneg he
  · intro j e he
    rcases hget he with ⟨-, rfl⟩ | he
    · apply hsock
    · apply h.sock he
  · intro fd j hj
    obtain ⟨e, he, heq⟩ := h.owner hj
    by_cases hkj : k = j
    · subst hkj
      refine ⟨d, ?_, ?_⟩
      · simp [HttpServer.setClient, hlt]
      · obtain rfl : c = e := Option.some.inj (hc.symm.trans he)
        rw [hfd, heq]
    · refine ⟨e, ?_, heq⟩
      simp [HttpServer.setClient, hkj, he]

theorem Wf.kernelClose (h : s.Wf) (k : ℕ) (fd : Option ℤ) :
  (s.kernelClose k fd).Wf
  := by
  cases fd with
  | none => apply h
  | some fd =>
      refine ⟨h.nonneg, h.sock, ?_, h.users⟩
      intro fd' j hj
      by_cases heq : fd' = fd
      · subst heq
        simp [HttpServer.kernelClose] at hj
      · simp only [HttpServer.kernelClose, Function.update_of_ne heq] at hj
        apply h.owner hj

/-- The kernel gives a descriptor to a new client. -/
theorem Wf.accept (h : s.Wf) {fd : ℤ} (hfd : 0 ≤ fd) :
  Wf { s with
    clients := s.clients ++ [⟨fd, Socket.new.init fd, .accepted⟩]
    owner := Function.update s.owner fd (some s.clients.length) }
  := by
  have hget : ∀ {j : ℕ} {e : Client}, (s.clients ++ [⟨fd, Socket.new.init fd, .accepted⟩])[j]? = some e →
      s.clients[j]? = some e ∨ e = ⟨fd, Socket.new.init fd, .accepted⟩ := by
    intro j e he
    simp only [List.getElem?_append] at he
    split at he
    · exact Or.inl he
    · right
      simpa [List.getElem?_singleton, eq_comm] using (List.mem_of_getElem? he)
  refine ⟨?_, ?_, ?_, h.users⟩
  · intro j e he
    rcases hget he with he | rfl
    · apply h.nonneg he
    · apply hfd
  · intro j e he
    rcases hget he with he | rfl
    · apply h.sock he
    · exact fun _ => rfl
  · intro fd' j hj
    by_cases heq : fd' = fd
    · subst heq
      obtain rfl : s.clients.length = j := by simpa using hj
      exact ⟨⟨fd', Socket.new.init fd', .accepted⟩, by simp, rfl⟩
    · simp only [Function.update_of_ne heq] at hj
      obtain ⟨e, he, hfde⟩ := h.owner hj
      have hlt : j < s.clients.length := (List.getElem?_eq_some_iff.mp he).1
      exact ⟨e, by rw [List.getElem?_append_left hlt, he], hfde⟩

/-! ### The number of open connections -/

theorem isOpen_iff {j : ℕ} {e : Client} (he : s.clients[j]? = some e) :
  s.IsOpen j ↔ e.stage ≠ .accepted ∧ s.owner e.fd = some j
  := by
  simp [IsOpen, he]

theorem openCount_setUser (s : HttpServer) (fd : ℤ) (conn : HttpConn) :
  (s.setUser fd conn).openCount = s.openCount
  := by
  rfl

/-- A client changes, and keeps its number. -/
theorem openCount_setClient (hc : s.clients[k]? = some c) (d : Client) (hfd : d.fd = c.fd) :
  (s.setClient k d).openCount + (if c.stage ≠ .accepted ∧ s.owner c.fd = some k then 1 else 0)
    = s.openCount + (if d.stage ≠ .accepted ∧ s.owner c.fd = some k then 1 else 0)
  := by
  have hlt : k < s.clients.length := (List.getElem?_eq_some_iff.mp hc).1
  have hd : (s.setClient k d).clients[k]? = some d := by simp [setClient, hlt]
  have hchange := Counting.count_update (q := s.IsOpen) (r := (s.setClient k d).IsOpen) hlt (by
    intro j _ hne
    simp only [IsOpen, setClient, List.getElem?_set_ne (Ne.symm hne)])
  have hbefore : (if s.IsOpen k then 1 else 0)
      = if c.stage ≠ .accepted ∧ s.owner c.fd = some k then 1 else 0 :=
    if_congr (isOpen_iff hc) rfl rfl
  have hafter : (if (s.setClient k d).IsOpen k then 1 else 0)
      = if d.stage ≠ .accepted ∧ s.owner c.fd = some k then 1 else 0 :=
    if_congr (by rw [isOpen_iff hd, hfd]; rfl) rfl rfl
  have hlen : (s.setClient k d).clients.length = s.clients.length := List.length_set
  rw [hbefore, hafter] at hchange
  rw [openCount, openCount, hlen]
  apply hchange

/-- A client that has been initialised gets to another stage. -/
theorem openCount_setStage (hc : s.clients[k]? = some c) (hfrom : c.stage ≠ .accepted) (d : Client)
    (hfd : d.fd = c.fd) (hto : d.stage ≠ .accepted) :
  (s.setClient k d).openCount = s.openCount
  := by
  have hchange := openCount_setClient hc d hfd
  simp only [ne_eq, hfrom, hto, not_false_eq_true, true_and] at hchange
  omega

/-- The kernel closes a descriptor. -/
theorem openCount_kernelClose (h : s.Wf) (k : ℕ) (fd : ℤ) :
  (s.kernelClose k (some fd)).openCount + (if s.InUse fd then 1 else 0) = s.openCount
  := by
  have hother : ∀ j, s.owner fd ≠ some j → ((s.kernelClose k (some fd)).IsOpen j ↔ s.IsOpen j) := by
    intro j hj
    simp only [IsOpen, kernelClose]
    constructor
    · rintro ⟨e, he, hstage, howner⟩
      refine ⟨e, he, hstage, ?_⟩
      by_cases hfd : e.fd = fd
      · rw [hfd, Function.update_self] at howner
        cases howner
      · rwa [Function.update_of_ne hfd] at howner
    · rintro ⟨e, he, hstage, howner⟩
      refine ⟨e, he, hstage, ?_⟩
      have hfd : e.fd ≠ fd := by
        intro hfd
        rw [hfd] at howner
        apply hj howner
      rwa [Function.update_of_ne hfd]
  cases howner : s.owner fd with
  | none =>
      have hnot : ¬ s.InUse fd := by simp [InUse, howner]
      rw [if_neg hnot, Nat.add_zero]
      apply Counting.count_congr
      intro j _
      apply hother j
      simp [howner]
  | some j =>
      obtain ⟨e, he, hfd⟩ := h.owner howner
      have hlt : j < s.clients.length := (List.getElem?_eq_some_iff.mp he).1
      have hchange := Counting.count_update (q := s.IsOpen)
        (r := (s.kernelClose k (some fd)).IsOpen) hlt (by
          intro i _ hne
          apply hother i
          simpa [howner] using Ne.symm hne)
      have hclosed : ¬ (s.kernelClose k (some fd)).IsOpen j := by
        rw [isOpen_iff (s := s.kernelClose k (some fd)) he]
        simp [kernelClose, hfd]
      have huse : s.InUse fd ↔ s.IsOpen j := by simp [InUse, howner]
      simp only [hclosed, if_false, Nat.add_zero, ← huse] at hchange
      apply hchange

/-- A new client is not counted before it is initialised. -/
theorem openCount_accept {fd : ℤ} (hfree : s.owner fd = none) :
  openCount { s with
    clients := s.clients ++ [⟨fd, Socket.new.init fd, .accepted⟩]
    owner := Function.update s.owner fd (some s.clients.length) } = s.openCount
  := by
  generalize hs' : ({ s with
    clients := s.clients ++ [⟨fd, Socket.new.init fd, .accepted⟩]
    owner := Function.update s.owner fd (some s.clients.length) } : HttpServer) = s'
  have hlen : s'.clients.length = s.clients.length + 1 := by
    rw [← hs']
    simp
  have hlast : ¬ s'.IsOpen s.clients.length := by
    rw [← hs']
    simp [IsOpen]
  rw [openCount, hlen, Nat.count_succ, if_neg hlast, Nat.add_zero, openCount]
  apply Counting.count_congr
  intro j hj
  subst hs'
  simp only [IsOpen, List.getElem?_append_left hj]
  constructor
  · rintro ⟨e, he, hstage, howner⟩
    refine ⟨e, he, hstage, ?_⟩
    by_cases hfd : e.fd = fd
    · rw [hfd, Function.update_self, Option.some.injEq] at howner
      omega
    · rwa [Function.update_of_ne hfd] at howner
  · rintro ⟨e, he, hstage, howner⟩
    refine ⟨e, he, hstage, ?_⟩
    have hfd : e.fd ≠ fd := by
      intro hfd
      rw [hfd, hfree] at howner
      cases howner
    rwa [Function.update_of_ne hfd]

/-! ### Steps -/

/-- The socket of a client that is not gone closes the descriptor of the client. -/
theorem Wf.closeSocket_eq (h : s.Wf) (hc : s.clients[k]? = some c) (hstage : c.stage ≠ .gone)
    (stage : Stage) :
  s.closeSocket k c stage
    = (s.kernelClose k (some c.fd)).setClient k { c with socket := ⟨-1, false⟩, stage := stage }
  := by
  have hsock := h.sock hc hstage
  have hne : c.socket.sock ≠ -1 := by
    rw [hsock]
    have hnonneg := h.nonneg hc
    omega
  have hclose : c.socket.close = (false, some c.fd, ⟨-1, false⟩) := by
    rw [Socket.close, if_neg (by simp [hne]), if_pos hne, hsock]
  simp only [closeSocket, hclose]

/-- A client gets to another stage, and keeps its socket. -/
theorem Wf.setStage (h : s.Wf) (hc : s.clients[k]? = some c) (hfrom : c.stage ≠ .gone)
    (stage : Stage) :
  (s.setClient k { c with stage := stage }).Wf
  := by
  have hsock : c.socket.sock = c.fd := h.sock hc hfrom
  apply h.setClient hc
  · rfl
  · exact fun _ => hsock

/-- The object in `users_` that the handler works on still has its number. -/
theorem Wf.setSame (h : s.Wf) {fd : ℤ} {conn : HttpConn} (hconn : (s.users fd).SameFd conn) :
  (s.setUser fd conn).Wf
  := by
  apply h.setUser
  intro hfalse
  rw [hconn.1]
  apply h.users
  rw [← hconn.2, hfalse]

/-- A step of a client that has been initialised and is not gone, without a call of `::close`. -/
theorem Wf.moves (h : s.Wf) (hc : s.clients[k]? = some c) (hfrom : c.stage ≠ .gone)
    (hinit : c.stage ≠ .accepted) {stage : Stage} (hto : stage ≠ .accepted) :
  (s.setClient k { c with stage := stage }).Wf ∧
    (s.setClient k { c with stage := stage }).openCount = s.openCount
  := ⟨h.setStage hc hfrom stage,
      openCount_setStage hc hinit { c with stage := stage } rfl hto⟩

/-- The steps that do not change the number of open connections. -/
theorem Wf.quietStep (h : s.Wf) {l : Step} (hl : ∀ k, l ≠ .init k ∧ l ≠ .close k ∧ l ≠ .destroy k)
    (hstep : s.step cfg l = some s') :
  s'.Wf ∧ s'.openCount = s.openCount
  := by
  cases l with
  | accept fd =>
      simp only [HttpServer.step] at hstep
      split at hstep
      · rename_i hfd
        obtain rfl := Option.some.inj hstep
        exact ⟨h.accept hfd.1, openCount_accept hfd.2⟩
      · cases hstep
  | schedule k =>
      obtain ⟨c, hat, rfl⟩ := Option.map_eq_some_iff.mp hstep
      obtain ⟨hc, hstage⟩ := clientAt_eq_some.mp hat
      apply h.moves hc (by simp [hstage]) (by simp [hstage]) (by simp)
  | enter k =>
      obtain ⟨c, hat, rfl⟩ := Option.map_eq_some_iff.mp hstep
      obtain ⟨hc, hstage⟩ := clientAt_eq_some.mp hat
      have hvalid : c.socket.isValid = true := by
        have hnonneg := h.nonneg hc
        rw [Socket.isValid, h.sock hc (by simp [hstage]), decide_eq_true_eq]
        omega
      rw [if_pos hvalid]
      apply h.moves hc (by simp [hstage]) (by simp [hstage]) (by simp)
  | read k results =>
      obtain ⟨c, hat, hstep⟩ := Option.bind_eq_some_iff.mp hstep
      obtain ⟨hc, hstage⟩ := clientAt_eq_some.mp hat
      obtain ⟨⟨readLen, conn⟩, hread, rfl⟩ := Option.map_eq_some_iff.mp hstep
      apply (h.setSame (HttpConn.sameFd_read hread)).moves hc (by simp [hstage]) (by simp [hstage])
      split <;> simp
  | process k fs =>
      obtain ⟨c, hat, hstep⟩ := Option.bind_eq_some_iff.mp hstep
      obtain ⟨hc, hstage⟩ := clientAt_eq_some.mp hat
      obtain ⟨⟨ok, conn⟩, hprocess, rfl⟩ := Option.map_eq_some_iff.mp hstep
      apply (h.setSame (HttpConn.sameFd_process hprocess)).moves hc (by simp [hstage])
        (by simp [hstage])
      split <;> simp
  | write k results =>
      obtain ⟨c, hat, hstep⟩ := Option.bind_eq_some_iff.mp hstep
      obtain ⟨hc, hstage⟩ := clientAt_eq_some.mp hat
      obtain ⟨⟨ret, conn, sent⟩, hwrite, rfl⟩ := Option.map_eq_some_iff.mp hstep
      apply (h.setSame (HttpConn.sameFd_write hwrite)).moves hc (by simp [hstage])
        (by simp [hstage]) (by simp)
  | init k => exact absurd rfl (hl k).1
  | close k => exact absurd rfl (hl k).2.1
  | destroy k => exact absurd rfl (hl k).2.2

/-- The count changes with the number of open connections. -/
def CountsStep (s s' : HttpServer) (userCount : ℤ) (l : Step) : Prop :=
  s.countAfter userCount l - userCount = (s'.openCount : ℤ) - s.openCount

/-- `init` counts a client, and it is open if it still has its descriptor. -/
theorem Wf.initStep (h : s.Wf) (hstep : s.step cfg (.init k) = some s') (userCount : ℤ) :
  s'.Wf ∧ (CountsStep s s' userCount (.init k) ↔ s.CountKept (.init k))
  := by
  obtain ⟨c, hat, hs'⟩ := Option.map_eq_some_iff.mp hstep
  obtain ⟨hc, hstage⟩ := clientAt_eq_some.mp hat
  have hsock : c.socket.sock = c.fd := h.sock hc (by simp [hstage])
  generalize hconn : (s.users c.socket.sock).init c.socket.sock cfg.isKeepalive = conn at hs'
  have hopen : conn.isClose = false → conn.fd = c.socket.sock := by
    rw [← hconn, HttpConn.init]
    split
    · apply h.users
    · exact fun _ => rfl
  have hchange := openCount_setClient (s := s.setUser c.socket.sock conn) hc
    { c with stage := .initialised } rfl
  rw [hs', openCount_setUser, if_neg (by simp [hstage])] at hchange
  refine ⟨hs' ▸ (h.setUser hopen).setStage hc (by simp [hstage]) _, ?_⟩
  have hkept : s.CountKept (.init k) ↔ (0 < c.fd ↔ s.owner c.fd = some k) := by
    simp [CountKept, hat]
  have howner : (s.setUser c.socket.sock conn).owner = s.owner := rfl
  simp only [howner, ne_eq, reduceCtorEq, not_false_eq_true, true_and] at hchange
  simp only [CountsStep, countAfter, hat, hkept, HttpConn.countInit, hsock]
  by_cases hpos : c.fd ≤ 0
  · have hneg : ¬ 0 < c.fd := by omega
    simp only [if_pos hpos, hneg, false_iff]
    split at hchange
    · rename_i hk
      simp only [hk, not_true_eq_false, iff_false]
      omega
    · rename_i hk
      simp only [hk, not_false_eq_true, iff_true]
      omega
  · have hlt : 0 < c.fd := by omega
    simp only [if_neg hpos, hlt, true_iff]
    split at hchange
    · rename_i hk
      simp only [hk, iff_true]
      omega
    · rename_i hk
      simp only [hk, iff_false]
      omega

/-- `Close` takes a client off the count, and a connection ends if the descriptor is one in use. -/
theorem Wf.closeStep (h : s.Wf) (hstep : s.step cfg (.close k) = some s') (userCount : ℤ) :
  s'.Wf ∧ (CountsStep s s' userCount (.close k) ↔ s.CountKept (.close k))
  := by
  obtain ⟨c, hat, rfl⟩ := Option.map_eq_some_iff.mp hstep
  obtain ⟨hc, hstage⟩ := clientAt_eq_some.mp hat
  have hsock : c.socket.sock = c.fd := h.sock hc (by simp [hstage])
  have hkept : s.CountKept (.close k) ↔ ((s.users c.fd).isClose = false → s.InUse c.fd) := by
    simp [CountKept, hat]
  have hgone : c.stage ≠ .gone := by simp [hstage]
  have hinit : c.stage ≠ .accepted := by simp [hstage]
  have hleaving : Stage.leaving ≠ .accepted := by simp
  simp only [CountsStep, countAfter, hat, hkept, HttpConn.countClose, hsock]
  cases hclosed : (s.users c.fd).isClose with
  | true =>
      obtain ⟨conn, hclose, hconn⟩ := HttpConn.close_of_isClose hclosed
      have hopen : conn.isClose = false → conn.fd = c.fd := by simp [hconn]
      obtain ⟨hwf, hcount⟩ := (h.setUser hopen).moves hc hgone hinit hleaving
      have hnone : (s.setUser c.fd conn).kernelClose k none = s.setUser c.fd conn := rfl
      simp only [hclose, hnone]
      refine ⟨hwf, ?_⟩
      rw [hcount, openCount_setUser]
      simp
  | false =>
      obtain ⟨conn, hclose, hconn⟩ : ∃ conn, (s.users c.fd).close = (some c.fd, conn) ∧
          conn.isClose = true := by
        refine ⟨{ s.users c.fd with
          response := (s.users c.fd).response.unmapFile, isClose := true }, ?_, rfl⟩
        simp [HttpConn.close, hclosed, h.users hclosed]
      have hopen : conn.isClose = false → conn.fd = c.fd := by simp [hconn]
      have hwf₁ := h.setUser hopen
      have hclosing := openCount_kernelClose hwf₁ k c.fd
      obtain ⟨hwf, hcount⟩ := (hwf₁.kernelClose k (some c.fd)).moves hc hgone hinit hleaving
      have huse : (s.setUser c.fd conn).InUse c.fd ↔ s.InUse c.fd := Iff.rfl
      simp only [hclose]
      refine ⟨hwf, ?_⟩
      rw [openCount_setUser] at hclosing
      rw [hcount]
      simp only [huse] at hclosing
      simp only [if_true, true_implies]
      split at hclosing
      · rename_i hin
        simp only [hin, iff_true]
        omega
      · rename_i hin
        simp only [hin, iff_false]
        omega

/-- The end of a socket does not change the count, and a connection ends if the descriptor is one in
use. -/
theorem Wf.destroyStep (h : s.Wf) (hstep : s.step cfg (.destroy k) = some s') (userCount : ℤ) :
  s'.Wf ∧ (CountsStep s s' userCount (.destroy k) ↔ s.CountKept (.destroy k))
  := by
  obtain ⟨c, hat, rfl⟩ := Option.map_eq_some_iff.mp hstep
  obtain ⟨hc, hstage⟩ := clientAt_eq_some.mp hat
  have hkept : s.CountKept (.destroy k) ↔ ¬ s.InUse c.fd := by simp [CountKept, hat]
  have hclosing := openCount_kernelClose h k c.fd
  have hcount : ((s.kernelClose k (some c.fd)).setClient k
      { c with socket := ⟨-1, false⟩, stage := .gone }).openCount
      = (s.kernelClose k (some c.fd)).openCount := by
    apply openCount_setStage (s := s.kernelClose k (some c.fd)) hc
    · simp [hstage]
    · rfl
    · simp
  rw [h.closeSocket_eq hc (by simp [hstage])]
  refine ⟨?_, ?_⟩
  · apply (h.kernelClose k (some c.fd)).setClient (c := c) hc
    · rfl
    · simp
  · simp only [CountsStep, countAfter, hcount, hkept]
    split at hclosing
    · rename_i hin
      simp only [hin, not_true_eq_false, iff_false]
      omega
    · rename_i hin
      simp only [hin, not_false_eq_true, iff_true]
      omega

/-- Every step keeps the state in good order, and the count changes with the number of open connections
exactly if the step meets the condition. -/
theorem Wf.step (h : s.Wf) {l : Step} (hstep : s.step cfg l = some s') (userCount : ℤ) :
  s'.Wf ∧ (CountsStep s s' userCount l ↔ s.CountKept l)
  := by
  by_cases hl : ∀ k, l ≠ .init k ∧ l ≠ .close k ∧ l ≠ .destroy k
  · obtain ⟨hwf, hcount⟩ := h.quietStep hl hstep
    refine ⟨hwf, ?_⟩
    cases l with
    | init k => exact absurd rfl (hl k).1
    | close k => exact absurd rfl (hl k).2.1
    | destroy k => exact absurd rfl (hl k).2.2
    | _ => simp [CountsStep, countAfter, CountKept, hcount]
  · cases l with
    | init k => apply h.initStep hstep
    | close k => apply h.closeStep hstep
    | destroy k => apply h.destroyStep hstep
    | _ => simp at hl

/-! ### Runs -/

/-- A step leaves an accurate count. -/
def StaysAccurate (cfg : Config) (s : Counted) (l : Step) : Prop :=
  ∀ s', countedStep cfg s l = some s' → Accurate s'

/-- What a run with an accurate count keeps. -/
def Right (s : Counted) : Prop := s.server.Wf ∧ Accurate s

theorem Right.step_iff {s s' : Counted} {l : Step} (h : Right s)
    (hstep : countedStep cfg s l = some s') :
  s'.server.Wf ∧ (Accurate s' ↔ s.server.CountKept l)
  := by
  obtain ⟨hwf, haccurate, -⟩ := h
  obtain ⟨server, hserver, rfl⟩ := Option.map_eq_some_iff.mp hstep
  obtain ⟨hwf', hcounts⟩ := hwf.step hserver s.userCount
  refine ⟨hwf', ?_⟩
  rw [← hcounts, Accurate, CountsStep, haccurate]
  dsimp only
  omega

/-- A step that meets the condition leaves an accurate count, and one that is not possible meets it. -/
theorem Right.staysAccurate_iff {s : Counted} (h : Right s) (l : Step) :
  StaysAccurate cfg s l ↔ s.server.CountKept l
  := by
  cases hstep : countedStep cfg s l with
  | some s' =>
      rw [← (h.step_iff hstep).2]
      simp [StaysAccurate, hstep]
  | none =>
      have hkept : s.server.CountKept l := by
        have hnone : s.server.step cfg l = none := Option.map_eq_none_iff.mp hstep
        cases l with
        | init k =>
            have hat : s.server.clientAt k .accepted = none := Option.map_eq_none_iff.mp hnone
            simp [CountKept, hat]
        | close k =>
            have hat : s.server.clientAt k .failed = none := Option.map_eq_none_iff.mp hnone
            simp [CountKept, hat]
        | destroy k =>
            have hat : s.server.clientAt k .leaving = none := Option.map_eq_none_iff.mp hnone
            simp [CountKept, hat]
        | _ => exact trivial
      simp [StaysAccurate, hstep, hkept]

theorem start_right :
  Right .start
  := ⟨start_wf, rfl, le_refl 0⟩

/-- In a run of the server the count of the users is, after every step, the number of the connections
that are open exactly if every step meets the condition. -/
theorem userCount_guarded_iff (cfg : Config) (ls : List Step) :
  Guarded (countedStep cfg) (StaysAccurate cfg) .start ls ↔
    Guarded (countedStep cfg) (fun s l => s.server.CountKept l) .start ls
  := by
  apply guarded_congr Right
  · intro s l h
    apply h.staysAccurate_iff
  · intro s l s' h hkept hstep
    obtain ⟨hwf, haccurate⟩ := h.step_iff hstep
    exact ⟨hwf, haccurate.mpr hkept⟩
  · apply start_right

/-- A client on descriptor 5 is served and leaves. -/
def servedOnce : List Step :=
  [.accept 5, .init 0, .schedule 0, .enter 0, .read 0 [.ok (ascii "GET / HTTP/1.1" ++ crlf ++ crlf)],
    .process 0 noFiles, .write 0 [.error 32], .destroy 0]

/-- The client that has left is still counted. -/
theorem userCount_leaks :
  ∃ s, run (countedStep srv) .start servedOnce = some s ∧ s.server.openCount = 0 ∧ s.userCount = 1
  := by
  have hrun : ((run (countedStep srv) .start servedOnce).map fun s =>
      (s.server.openCount, s.userCount)) = some (0, 1) := by
    decide +kernel
  obtain ⟨s, hs, hfields⟩ := Option.map_eq_some_iff.mp hrun
  obtain ⟨hopen, hcount⟩ := Prod.mk.inj hfields
  exact ⟨s, hs, hopen, hcount⟩

end HttpServer

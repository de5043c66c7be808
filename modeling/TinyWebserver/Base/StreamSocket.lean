import TinyWebserver.Base.HttpServer
import TinyWebserver.Lib.Transition

/-!
# Stream sockets

The class `Socket` of `base/socket.cpp` for a `Socket` that `CreateTCP` or `accept` has made. The descriptor
is made by the first call that needs one. `connect` with a time-out does not call `::connect`, the call is
commented out, and marks the socket as connected all the same.

`run_connected_iff`: in a run the flag says what the descriptor is at every state exactly if no `connect`
with a time-out gets to the flag on a descriptor that is not connected.
-/

/-- The results of the system calls of a method: the descriptor of `::socket`, or `-1`, whether `::bind`,
`::connect` and `::listen` succeed, and the addresses of `getsockname` and `getpeername`. -/
structure SystemCalls (α : Type) where
  socket : ℤ
  bind : Bool
  connect : Bool
  listen : Bool
  getsockname : Option α
  getpeername : Option α

/-- The class `Socket`, less its type and protocol, with two facts about the current descriptor: that
`::listen` has succeeded, and that it came from `::accept` or `::connect` has succeeded. -/
structure StreamSocket (α : Type) where
  m_sock : ℤ
  m_family : ℤ
  m_isConnected : Bool
  m_localAddress : Option α
  m_remoteAddress : Option α
  listening : Bool
  reached : Bool

namespace StreamSocket

open Transition

variable {α : Type} (family : α → ℤ)

/-- The constructor. -/
def new (m_family : ℤ) : StreamSocket α := ⟨-1, m_family, false, none, none, false, false⟩

/-- `CreateTCP`. -/
def createTCP (address : α) : StreamSocket α := new (family address)

/-- `isValid`. -/
def isValid (s : StreamSocket α) : Bool := s.m_sock ≠ -1

/-- `newSock`. -/
def newSock (r : SystemCalls α) (s : StreamSocket α) : StreamSocket α :=
  { s with m_sock := r.socket, listening := false, reached := false }

/-- The beginning of `bind` and `connect`: a descriptor is made if there is none. -/
def ready (r : SystemCalls α) (s : StreamSocket α) : StreamSocket α :=
  if s.isValid = true then s else s.newSock r

/-- `getLocalAddress`. -/
def getLocalAddress (r : SystemCalls α) (s : StreamSocket α) : StreamSocket α :=
  if s.m_localAddress.isSome then s else { s with m_localAddress := r.getsockname }

/-- `getRemoteAddress`. -/
def getRemoteAddress (r : SystemCalls α) (s : StreamSocket α) : StreamSocket α :=
  if s.m_remoteAddress.isSome then s else { s with m_remoteAddress := r.getpeername }

/-- `close`. -/
def close (s : StreamSocket α) : Bool × StreamSocket α :=
  if s.m_isConnected = false ∧ s.m_sock = -1 then
    (true, s)
  else
    let s := { s with m_isConnected := false }
    if s.m_sock ≠ -1 then
      (false, { s with m_sock := -1, listening := false, reached := false })
    else
      (false, s)

/-- `bind`. -/
def bind (r : SystemCalls α) (s : StreamSocket α) (addr : α) : Bool × StreamSocket α :=
  let s := ({ s with m_localAddress := some addr }).ready r
  if s.isValid = false then
    (false, s)
  else if family addr ≠ s.m_family then
    (false, s)
  else if r.bind = false then
    (false, s)
  else
    (true, s.getLocalAddress r)

/-- The value `(uint64_t)-1`. -/
def noTimeout : UInt64 := 0xffffffffffffffff

/-- `connect`. -/
def connect (r : SystemCalls α) (s : StreamSocket α) (addr : α) (timeout_ms : UInt64) :
    Bool × StreamSocket α :=
  let s := ({ s with m_remoteAddress := some addr }).ready r
  if s.isValid = false then
    (false, s)
  else if family addr ≠ s.m_family then
    (false, s)
  else if timeout_ms = noTimeout then
    if r.connect = false then
      (false, s.close.2)
    else
      let s := { s with reached := true }
      (true, (({ s with m_isConnected := true }).getRemoteAddress r).getLocalAddress r)
  else
    (true, (({ s with m_isConnected := true }).getRemoteAddress r).getLocalAddress r)

/-- `reconnect`. -/
def reconnect (r : SystemCalls α) (s : StreamSocket α) (timeout_ms : UInt64) : Bool × StreamSocket α :=
  match s.m_remoteAddress with
  | none => (false, s)
  | some addr => connect family r { s with m_localAddress := none } addr timeout_ms

/-- `listen`. -/
def listen (r : SystemCalls α) (s : StreamSocket α) : Bool × StreamSocket α :=
  if s.isValid = false then
    (false, s)
  else if r.listen = false then
    (false, s)
  else
    (true, { s with listening := true })

/-- `init`, for a descriptor that `::accept` has returned, which is not negative. It has a context that is
not closed, or it has not. -/
def init (r : SystemCalls α) (s : StreamSocket α) (sock : ℕ) (ctx : Bool) : Bool × StreamSocket α :=
  if ctx = true then
    let s := { s with m_sock := sock, m_isConnected := true, listening := false, reached := true }
    (true, (s.getLocalAddress r).getRemoteAddress r)
  else
    (false, s)

/-! ### Runs -/

/-- Where a `Socket` comes from: `CreateTCP` for an address, or an `accept` that has returned it. -/
inductive Origin (α : Type) where
  | created (address : α)
  | accepted (m_family : ℤ) (newsock : ℕ) (r : SystemCalls α)

/-- The `Socket` at its start. -/
def Origin.socket : Origin α → StreamSocket α
  | .created address => createTCP family address
  | .accepted m_family newsock r => ((new m_family).init r newsock true).2

/-- A call of a method, with the results of its system calls. -/
inductive Call (α : Type) where
  | bind (addr : α) (r : SystemCalls α)
  | connect (addr : α) (timeout_ms : UInt64) (r : SystemCalls α)
  | reconnect (timeout_ms : UInt64) (r : SystemCalls α)
  | listen (r : SystemCalls α)
  | init (sock : ℕ) (ctx : Bool) (r : SystemCalls α)
  | close

/-- The `Socket` after a call. -/
def call (s : StreamSocket α) : Call α → StreamSocket α
  | .bind addr r => (s.bind family r addr).2
  | .connect addr timeout_ms r => (s.connect family r addr timeout_ms).2
  | .reconnect timeout_ms r => (s.reconnect family r timeout_ms).2
  | .listen r => (s.listen r).2
  | .init sock ctx r => (s.init r sock ctx).2
  | .close => s.close.2

/-- A call as a step. -/
def step (s : StreamSocket α) (c : Call α) : Option (StreamSocket α) := some (s.call family c)

/-- `isConnected()` only on a descriptor that came from `::accept` or has been connected. -/
def Truthful (s : StreamSocket α) : Prop :=
  s.m_isConnected = true → s.isValid = true ∧ s.reached = true

/-- A `connect` that may set the flag: it calls `::connect`, or it does not get to the flag, as there is no
descriptor or one of another family, or the descriptor is connected already. -/
def Genuine (s : StreamSocket α) (addr : α) (timeout_ms : UInt64) (r : SystemCalls α) : Prop :=
  timeout_ms = noTimeout ∨ s.m_sock = -1 ∧ r.socket = -1 ∨ family addr ≠ s.m_family ∨
    s.m_sock ≠ -1 ∧ s.reached = true

/-- A call that does not reach the defect. -/
def Sound (s : StreamSocket α) : Call α → Prop
  | .connect addr timeout_ms r => s.Genuine family addr timeout_ms r
  | .reconnect timeout_ms r => ∀ addr, s.m_remoteAddress = some addr → s.Genuine family addr timeout_ms r
  | _ => True

variable {family}

/-! ### The descriptor and the flag -/

/-- The part of the class that the server of the clients works with. -/
def toSocket (s : StreamSocket α) : Socket := ⟨s.m_sock, s.m_isConnected⟩

theorem toSocket_getLocalAddress (r : SystemCalls α) (s : StreamSocket α) :
  (s.getLocalAddress r).toSocket = s.toSocket
  := by
  rw [getLocalAddress]
  split
  · rfl
  · rfl

theorem toSocket_getRemoteAddress (r : SystemCalls α) (s : StreamSocket α) :
  (s.getRemoteAddress r).toSocket = s.toSocket
  := by
  rw [getRemoteAddress]
  split
  · rfl
  · rfl

theorem toSocket_init (s : StreamSocket α) (r : SystemCalls α) (sock : ℕ) :
  (s.init r sock true).2.toSocket = s.toSocket.init sock
  := by
  rw [init, if_pos rfl]
  dsimp only
  rw [toSocket_getRemoteAddress, toSocket_getLocalAddress]
  rfl

theorem toSocket_close (s : StreamSocket α) :
  s.toSocket.close.1 = s.close.1 ∧ s.toSocket.close.2.2 = s.close.2.toSocket
  := by
  rw [close, Socket.close]
  by_cases hidle : s.m_isConnected = false ∧ s.m_sock = -1
  · have hidle' : s.toSocket.isConnected = false ∧ s.toSocket.sock = -1 := hidle
    rw [if_pos hidle, if_pos hidle']
    exact ⟨rfl, rfl⟩
  · have hidle' : ¬ (s.toSocket.isConnected = false ∧ s.toSocket.sock = -1) := hidle
    rw [if_neg hidle, if_neg hidle']
    dsimp only
    by_cases hsock : s.m_sock ≠ -1
    · have hsock' : s.toSocket.sock ≠ -1 := hsock
      rw [if_pos hsock, if_pos hsock']
      exact ⟨rfl, rfl⟩
    · have hsock' : ¬ s.toSocket.sock ≠ -1 := hsock
      rw [if_neg hsock, if_neg hsock']
      exact ⟨rfl, rfl⟩

/-! ### Methods that keep the flag true -/

theorem isValid_eq_true_iff (s : StreamSocket α) :
  s.isValid = true ↔ s.m_sock ≠ -1
  := decide_eq_true_iff

theorem isValid_eq_false_iff (s : StreamSocket α) :
  s.isValid = false ↔ s.m_sock = -1
  := by
  rw [← Bool.not_eq_true, isValid_eq_true_iff, not_not]

theorem truthful_getLocalAddress (r : SystemCalls α) (s : StreamSocket α) :
  (s.getLocalAddress r).Truthful ↔ s.Truthful
  := by
  rw [getLocalAddress]
  split
  · rfl
  · rfl

theorem truthful_getRemoteAddress (r : SystemCalls α) (s : StreamSocket α) :
  (s.getRemoteAddress r).Truthful ↔ s.Truthful
  := by
  rw [getRemoteAddress]
  split
  · rfl
  · rfl

/-- Without a descriptor the flag is not set. -/
theorem Truthful.not_connected {s : StreamSocket α} (h : s.Truthful) (hsock : s.m_sock = -1) :
  s.m_isConnected = false
  := by
  by_contra hconnected
  have hvalid := (h (by simpa using hconnected)).1
  rw [isValid_eq_true_iff] at hvalid
  apply hvalid hsock

theorem truthful_of_not_connected {s : StreamSocket α} (h : s.m_isConnected = false) :
  s.Truthful
  := by
  intro hconnected
  rw [h] at hconnected
  cases hconnected

/-- The descriptor that a method works with. -/
theorem truthful_ready {s : StreamSocket α} (h : s.Truthful) (r : SystemCalls α) :
  (s.ready r).Truthful
  := by
  rw [ready]
  split
  · apply h
  · rename_i hinvalid
    rw [Bool.not_eq_true, isValid_eq_false_iff] at hinvalid
    have hconnected : (s.newSock r).m_isConnected = false := h.not_connected hinvalid
    apply truthful_of_not_connected hconnected

theorem truthful_bind {s : StreamSocket α} (h : s.Truthful) (r : SystemCalls α) (addr : α) :
  (s.bind family r addr).2.Truthful
  := by
  have hs : ({ s with m_localAddress := some addr } : StreamSocket α).Truthful := h
  have hready := truthful_ready hs r
  rw [bind]
  split
  · apply hready
  · split
    · apply hready
    · split
      · apply hready
      · apply (truthful_getLocalAddress r _).mpr hready

theorem not_connected_close (s : StreamSocket α) :
  s.close.2.m_isConnected = false
  := by
  rw [close]
  split
  · rename_i h
    apply h.1
  · simp only
    split
    · rfl
    · rfl

theorem truthful_close (s : StreamSocket α) :
  s.close.2.Truthful
  := truthful_of_not_connected s.not_connected_close

theorem truthful_listen {s : StreamSocket α} (h : s.Truthful) (r : SystemCalls α) :
  (s.listen r).2.Truthful
  := by
  rw [listen]
  split
  · apply h
  · split
    · apply h
    · apply h

theorem truthful_init {s : StreamSocket α} (h : s.Truthful) (r : SystemCalls α) (sock : ℕ) (ctx : Bool) :
  (s.init r sock ctx).2.Truthful
  := by
  rw [init]
  split
  · apply (truthful_getRemoteAddress r _).mpr
    apply (truthful_getLocalAddress r _).mpr
    intro _
    refine ⟨?_, rfl⟩
    rw [isValid_eq_true_iff]
    simp only [ne_eq]
    omega
  · apply h

/-! ### Connecting -/

/-- Behind the checks of `connect` the flag is true if `::connect` has been called, or was before. -/
theorem truthful_connected (r : SystemCalls α) (s : StreamSocket α) (hvalid : s.isValid = true) :
  ((({ s with m_isConnected := true } : StreamSocket α).getRemoteAddress r).getLocalAddress r).Truthful
    ↔ s.reached = true
  := by
  rw [truthful_getLocalAddress, truthful_getRemoteAddress]
  constructor
  · intro h
    exact (h rfl).2
  · intro h _
    exact ⟨hvalid, h⟩

theorem m_family_ready (r : SystemCalls α) (s : StreamSocket α) :
  (s.ready r).m_family = s.m_family
  := by
  rw [ready]
  split
  · rfl
  · rfl

/-- There is a descriptor, unless none could be made. -/
theorem isValid_ready_iff (r : SystemCalls α) (s : StreamSocket α) :
  (s.ready r).isValid = false ↔ s.m_sock = -1 ∧ r.socket = -1
  := by
  rw [ready]
  split
  · rename_i hvalid
    have hsock := (isValid_eq_true_iff s).mp hvalid
    simp [hvalid, hsock]
  · rename_i hinvalid
    rw [Bool.not_eq_true, isValid_eq_false_iff] at hinvalid
    rw [isValid_eq_false_iff, newSock]
    simp [hinvalid]

/-- A descriptor that is just made is not connected. -/
theorem reached_ready_iff (r : SystemCalls α) (s : StreamSocket α) :
  (s.ready r).reached = true ↔ s.m_sock ≠ -1 ∧ s.reached = true
  := by
  rw [ready, ← isValid_eq_true_iff]
  split
  · rename_i hvalid
    simp [hvalid]
  · rename_i hinvalid
    simp [hinvalid, newSock]

/-- `connect` keeps the flag true exactly if it is one that may set it. -/
theorem truthful_connect_iff {s : StreamSocket α} (h : s.Truthful) (r : SystemCalls α) (addr : α)
    (timeout_ms : UInt64) :
  (s.connect family r addr timeout_ms).2.Truthful ↔ s.Genuine family addr timeout_ms r
  := by
  have hs : ({ s with m_remoteAddress := some addr } : StreamSocket α).Truthful := h
  have hready := truthful_ready hs r
  have hvalid := isValid_ready_iff r ({ s with m_remoteAddress := some addr } : StreamSocket α)
  have hreached := reached_ready_iff r ({ s with m_remoteAddress := some addr } : StreamSocket α)
  have hfamily := m_family_ready r ({ s with m_remoteAddress := some addr } : StreamSocket α)
  rw [connect, Genuine]
  generalize ({ s with m_remoteAddress := some addr } : StreamSocket α).ready r = t at *
  simp only at hvalid hreached hfamily
  rw [← hfamily]
  simp only
  by_cases hsock : t.isValid = false
  · rw [if_pos hsock]
    apply iff_of_true hready (Or.inr (Or.inl (hvalid.mp hsock)))
  · have hsome : t.isValid = true := by simpa using hsock
    rw [if_neg hsock]
    by_cases hother : family addr ≠ t.m_family
    · rw [if_pos hother]
      apply iff_of_true hready (Or.inr (Or.inr (Or.inl hother)))
    · rw [if_neg hother]
      by_cases htimeout : timeout_ms = noTimeout
      · rw [if_pos htimeout]
        apply iff_of_true _ (Or.inl htimeout)
        split
        · apply truthful_close
        · exact (truthful_connected r { t with reached := true } hsome).mpr rfl
      · rw [if_neg htimeout, truthful_connected r t hsome, hreached]
        rw [hvalid] at hsock
        tauto

theorem truthful_reconnect_iff {s : StreamSocket α} (h : s.Truthful) (r : SystemCalls α)
    (timeout_ms : UInt64) :
  (s.reconnect family r timeout_ms).2.Truthful ↔
    ∀ addr, s.m_remoteAddress = some addr → s.Genuine family addr timeout_ms r
  := by
  rw [reconnect]
  cases haddr : s.m_remoteAddress with
  | none =>
      apply iff_of_true h
      intro addr hnone
      cases hnone
  | some addr =>
      have hs : ({ s with m_localAddress := none, m_remoteAddress := some addr } :
          StreamSocket α).Truthful := h
      simp only [Option.some.injEq, forall_eq']
      apply truthful_connect_iff hs r addr timeout_ms

/-! ### Runs -/

/-- A call keeps the flag true exactly if it does not reach the defect. -/
theorem truthful_call_iff {s : StreamSocket α} (h : s.Truthful) (c : Call α) :
  (s.call family c).Truthful ↔ s.Sound family c
  := by
  cases c with
  | bind addr r => apply iff_of_true (truthful_bind h r addr) trivial
  | connect addr timeout_ms r => apply truthful_connect_iff h
  | reconnect timeout_ms r => apply truthful_reconnect_iff h
  | listen r => apply iff_of_true (truthful_listen h r) trivial
  | init sock ctx r => apply iff_of_true (truthful_init h r sock ctx) trivial
  | close => apply iff_of_true s.truthful_close trivial

theorem truthful_origin (o : Origin α) :
  (o.socket family).Truthful
  := by
  cases o with
  | created address => apply truthful_of_not_connected rfl
  | accepted m_family newsock r =>
      apply truthful_init
      apply truthful_of_not_connected rfl

/-- In a run the flag is true at every state exactly if no call reaches the defect. -/
theorem run_connected_iff (o : Origin α) (cs : List (Call α)) :
  (o.socket family).Truthful ∧
      Guarded (step family) (fun s c => ∀ s', step family s c = some s' → s'.Truthful) (o.socket family) cs ↔
    Guarded (step family) (Sound family) (o.socket family) cs
  := by
  rw [and_iff_right (truthful_origin o)]
  apply guarded_congr Truthful
  · intro s c hs
    rw [← truthful_call_iff hs]
    simp [step]
  · intro s c s' hs hsound hstep
    obtain rfl := Option.some.inj hstep
    apply (truthful_call_iff hs c).mpr hsound
  · apply truthful_origin

/-- All system calls succeed with descriptor 3. -/
def succeeding : SystemCalls Unit := ⟨3, true, true, true, some (), some ()⟩

/-- With a time-out of a second a new socket says that it is connected, without a call of `::connect`. -/
theorem connected_without_connect :
  ¬ ∀ (o : Origin Unit) (cs : List (Call Unit)) (s : StreamSocket Unit),
    run (step fun _ => 2) (o.socket fun _ => 2) cs = some s → s.Truthful
  := by
  intro h
  have htrue := h (.created ()) [.connect () 1000 succeeding] _ rfl
  exact absurd (htrue rfl).2 (by decide)

end StreamSocket

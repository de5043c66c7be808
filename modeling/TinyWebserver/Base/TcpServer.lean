import TinyWebserver.Base.StreamSocket

/-!
# Binding a server to addresses

`TcpServer::bind` of `base/tcp_server.cpp` makes a socket for each address and keeps those that listen in
`m_socks`. If an address has failed, it clears `m_socks`, and with that the sockets of earlier calls.
`run_atomic_iff`: in a run all calls are atomic exactly if none of them has a failed address when there are
sockets already.
-/

namespace TcpServer

open Transition

variable {α : Type} (family : α → ℤ)

/-- One turn of the loop of `bind`, for an address with the results of its system calls: `m_socks` and
`fails`. -/
def bindAddr (s : List (StreamSocket α) × List α) (addr : α × SystemCalls α) :
    List (StreamSocket α) × List α :=
  let sock := StreamSocket.createTCP family addr.1
  let (bound, sock) := sock.bind family addr.2 addr.1
  if bound = false then
    (s.1, s.2 ++ [addr.1])
  else
    let (listened, sock) := sock.listen addr.2
    if listened = false then
      (s.1, s.2 ++ [addr.1])
    else
      (s.1 ++ [sock], s.2)

/-- `bind`: its result, `m_socks` and `fails`. -/
def bind (m_socks : List (StreamSocket α)) (addrs : List (α × SystemCalls α)) (fails : List α) :
    Bool × List (StreamSocket α) × List α :=
  let (m_socks, fails) := addrs.foldl (bindAddr family) (m_socks, fails)
  if fails ≠ [] then (false, [], fails) else (true, m_socks, fails)

/-- The system calls for an address do not all succeed. -/
def Fails (addr : α × SystemCalls α) : Prop :=
  addr.2.socket = -1 ∨ addr.2.bind = false ∨ addr.2.listen = false

instance (addr : α × SystemCalls α) : Decidable (Fails addr) := inferInstanceAs (Decidable (_ ∨ _))

/-- A socket that listens at an address. -/
def ListensAt (addr : α × SystemCalls α) (sock : StreamSocket α) : Prop :=
  sock.isValid = true ∧ sock.listening = true ∧ sock.m_localAddress = some addr.1

/-- A call without `fails` on entry is atomic: after `false` there are the sockets of before, after `true`
there is a new listening one behind them for each address, and `fails` has the addresses that failed. -/
def Atomic (m_socks : List (StreamSocket α)) (addrs : List (α × SystemCalls α)) : Prop :=
  ((bind family m_socks addrs []).1 = false → (bind family m_socks addrs []).2.1 = m_socks) ∧
  ((bind family m_socks addrs []).1 = true → ∃ socks, (bind family m_socks addrs []).2.1 = m_socks ++ socks ∧
    List.Forall₂ ListensAt addrs socks) ∧
  (bind family m_socks addrs []).2.2 = (addrs.filter fun addr => Fails addr).map Prod.fst

/-- A call that does not reach the defect: there are no sockets yet, or no address fails. -/
def Sound (m_socks : List (StreamSocket α)) (addrs : List (α × SystemCalls α)) : Prop :=
  m_socks = [] ∨ ∀ addr ∈ addrs, ¬ Fails addr

/-- A call as a step. -/
def step (m_socks : List (StreamSocket α)) (addrs : List (α × SystemCalls α)) :
    Option (List (StreamSocket α)) :=
  some (bind family m_socks addrs []).2.1

variable {family}

/-- The socket that an address gets if nothing fails. -/
def listener (family : α → ℤ) (addr : α × SystemCalls α) : StreamSocket α :=
  { StreamSocket.createTCP family addr.1 with
    m_sock := addr.2.socket, m_localAddress := some addr.1, listening := true }

theorem listensAt_listener {addr : α × SystemCalls α} (h : ¬ Fails addr) :
  ListensAt addr (listener family addr)
  := by
  have hsocket : addr.2.socket ≠ -1 := fun hsocket => h (Or.inl hsocket)
  exact ⟨(StreamSocket.isValid_eq_true_iff _).mpr hsocket, rfl, rfl⟩

/-! ### One call -/

/-- A new socket has the family of its address, so `bind` fails only if a system call does. -/
theorem bind_createTCP (r : SystemCalls α) (addr : α) :
  (StreamSocket.createTCP family addr).bind family r addr
    = (decide (r.socket ≠ -1 ∧ r.bind = true),
        { StreamSocket.createTCP family addr with m_sock := r.socket, m_localAddress := some addr })
  := by
  have hready : ({ StreamSocket.createTCP family addr with m_localAddress := some addr } :
      StreamSocket α).ready r
      = { StreamSocket.createTCP family addr with m_sock := r.socket, m_localAddress := some addr } := rfl
  rw [StreamSocket.bind, hready]
  dsimp only
  by_cases hsocket : r.socket = -1
  · rw [if_pos ((StreamSocket.isValid_eq_false_iff _).mpr hsocket)]
    simp [hsocket]
  · have hvalid : ¬ ({ StreamSocket.createTCP family addr with
        m_sock := r.socket, m_localAddress := some addr } : StreamSocket α).isValid = false := by
      rw [StreamSocket.isValid_eq_false_iff]
      apply hsocket
    have hfamily : ¬ family addr ≠ (StreamSocket.createTCP family addr).m_family := by
      rw [not_not]
      rfl
    rw [if_neg hvalid, if_neg hfamily]
    cases hbind : r.bind with
    | false => simp
    | true =>
        simp [hsocket]
        rfl

/-- A turn of the loop. -/
theorem bindAddr_eq (s : List (StreamSocket α) × List α) (addr : α × SystemCalls α) :
  bindAddr family s addr
    = if Fails addr then (s.1, s.2 ++ [addr.1]) else (s.1 ++ [listener family addr], s.2)
  := by
  obtain ⟨addr, r⟩ := addr
  rw [bindAddr, bind_createTCP]
  dsimp only
  by_cases hbound : r.socket ≠ -1 ∧ r.bind = true
  · have hvalid : ({ StreamSocket.createTCP family addr with
        m_sock := r.socket, m_localAddress := some addr } : StreamSocket α).isValid ≠ false := by
      rw [ne_eq, StreamSocket.isValid_eq_false_iff]
      apply hbound.1
    rw [if_neg (by simpa using hbound), StreamSocket.listen, if_neg hvalid]
    cases hlisten : r.listen with
    | false => simp [Fails, hlisten]
    | true =>
        simp [Fails, hbound, hlisten]
        rfl
  · have hfails : Fails (addr, r) := by
      rw [not_and_or, not_not, Bool.not_eq_true] at hbound
      rw [Fails, ← or_assoc]
      apply Or.inl hbound
    rw [if_pos (decide_eq_false hbound), if_pos hfails]

/-- The loop keeps a socket for each address that has not failed, and the others. -/
theorem foldl_bindAddr (s : List (StreamSocket α) × List α) (addrs : List (α × SystemCalls α)) :
  addrs.foldl (bindAddr family) s
    = (s.1 ++ (addrs.filter fun addr => ¬ Fails addr).map (listener family),
        s.2 ++ (addrs.filter fun addr => Fails addr).map Prod.fst)
  := by
  induction addrs generalizing s with
  | nil => simp
  | cons addr addrs ih =>
      rw [List.foldl_cons, ih, bindAddr_eq]
      by_cases h : Fails addr
      · simp [h]
      · simp [h]

/-- What a call does, by whether an address fails. -/
theorem bind_eq (m_socks : List (StreamSocket α)) (addrs : List (α × SystemCalls α)) :
  bind family m_socks addrs []
    = if ∀ addr ∈ addrs, ¬ Fails addr then (true, m_socks ++ addrs.map (listener family), [])
      else (false, [], (addrs.filter fun addr => Fails addr).map Prod.fst)
  := by
  rw [bind, foldl_bindAddr]
  dsimp only
  by_cases h : ∀ addr ∈ addrs, ¬ Fails addr
  · have hfails : (addrs.filter fun addr => Fails addr) = [] := by simpa using h
    have hall : (addrs.filter fun addr => ¬ Fails addr) = addrs := by simpa using h
    rw [hfails, hall, if_pos h]
    simp
  · have hfails : (addrs.filter fun addr => Fails addr) ≠ [] := by simpa using h
    rw [if_neg h]
    simp [hfails]

/-- A call is atomic exactly if it does not clear sockets of earlier calls. -/
theorem atomic_iff (m_socks : List (StreamSocket α)) (addrs : List (α × SystemCalls α)) :
  Atomic family m_socks addrs ↔ Sound m_socks addrs
  := by
  rw [Atomic, Sound, bind_eq]
  by_cases h : ∀ addr ∈ addrs, ¬ Fails addr
  · rw [if_pos h]
    apply iff_of_true _ (Or.inr h)
    refine ⟨nofun, fun _ => ⟨_, rfl, ?_⟩, ?_⟩
    · rw [List.forall₂_map_right_iff, List.forall₂_same]
      intro addr haddr
      apply listensAt_listener (h addr haddr)
    · simpa using h
  · rw [if_neg h]
    simp only [forall_const, reduceCtorEq, false_implies, and_true, or_iff_left h]
    apply eq_comm

/-! ### Runs -/

/-- In a run all calls are atomic exactly if each of them finds no sockets or has no address that fails. -/
theorem run_atomic_iff (calls : List (List (α × SystemCalls α))) :
  Guarded (step family) (Atomic family) [] calls ↔ Guarded (step family) Sound [] calls
  := by
  apply guarded_congr fun _ => True
  · intro m_socks addrs _
    apply atomic_iff
  · intros
    trivial
  · trivial

/-- All system calls for an address succeed. -/
def succeeding : SystemCalls Unit := ⟨3, true, true, true, some (), some ()⟩

/-- `::bind` fails for an address. -/
def failing : SystemCalls Unit := ⟨4, false, true, true, some (), some ()⟩

/-- A second call, for an address that cannot be bound, loses the socket of the first. -/
theorem bound_socket_lost :
  ¬ ∀ (calls : List (List (Unit × SystemCalls Unit))),
    Guarded (step fun _ => 2) (Atomic fun _ => 2) [] calls
  := by
  intro h
  have hsecond := (h [[((), succeeding)], [((), failing)]]).2 _ rfl
  have hlost : ([] : List (StreamSocket Unit)) = [listener (fun _ => 2) ((), succeeding)] :=
    hsecond.1.1 rfl
  cases hlost

end TcpServer

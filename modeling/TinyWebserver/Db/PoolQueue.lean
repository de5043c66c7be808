import TinyWebserver.Db.ConnectionPool

/-!
# The queue of the pool

What the scanner and the consumers rely on in the queue of the pool.

The scanner looks at the first element of the queue as long as the counter is above the lower bound.
The counter also counts the connections that are checked out, so the queue may be empty then,
`front_of_empty`. In every run the scanner takes the first element of queues that are not empty exactly
if none of its turns finds more than the lower bound checked out and the whole queue expired,
`run_frontsFull_iff`.

It stops at the first connection that was used recently. That is sound, since with a clock that does not
go back the queue is ordered by the times of the last use, `run_oldestFirst`.

A connection whose `Connect` has failed is put into the queue and counted like the others,
`dead_connection`. In every run the pool hands out connections that are connected, and counts no others,
exactly if no call of `mysql_real_connect` fails, `run_handsConnected_iff`.
-/

universe u

namespace ConnectionPool

open Transition

variable {C : Type u} [DecidableEq C]

/-- The state behind the constructor. -/
def start (minSize maxSize maxIdleTime : ℕ) (oks : ℕ → Bool) (now : ℕ → ℕ) : State C :=
  ⟨new minSize maxSize maxIdleTime oks now, [], []⟩

/-! ### The first element of the queue -/

/-- The queues on which the inner loop of the scanner takes the first element. -/
def fronts (p : ConnectionPool) (now : ℕ → ℕ) : List Connection → ℤ → List (List Connection)
  | [], count => if toInt p.minSize < count then [[]] else []
  | conn :: rest, count =>
      if toInt p.minSize < count then
        (conn :: rest) ::
          if p.expired conn (now rest.length) then p.fronts now rest (count - 1) else []
      else []

/-- All connections of a queue are expired when the scanner looks at them. -/
def allExpired (p : ConnectionPool) (now : ℕ → ℕ) : List Connection → Bool
  | [] => true
  | conn :: rest => p.expired conn (now rest.length) && p.allExpired now rest

/-- The scanner takes the first element of queues that are not empty. -/
def FrontsFull (s : State C) : Step C → Prop
  | .scan now =>
      s.pool.isShutdown = false →
        ∀ queue ∈ s.pool.fronts now s.pool.connectionQueue s.pool.connectionCount, queue ≠ []
  | _ => True

/-- A turn of the scanner is defined. -/
def TurnDefined (s : State C) : Step C → Prop
  | .scan now => (s.pool.scannerConnectionTask now).isSome
  | _ => True

/-- The connections that are checked out are not more than the lower bound, or a connection in the queue
is not expired. -/
def Spare (s : State C) : Step C → Prop
  | .scan now =>
      s.pool.isShutdown = false →
        s.pool.connectionCount - s.pool.connectionQueue.length ≤ toInt s.pool.minSize ∨
          s.pool.allExpired now s.pool.connectionQueue = false
  | _ => True

/-- The inner loop gets to the end of the queue, and takes its first element there, exactly if the
counter is large enough and all connections are expired. -/
theorem nil_mem_fronts_iff (p : ConnectionPool) (now : ℕ → ℕ) (queue : List Connection) (count : ℤ) :
  [] ∈ p.fronts now queue count ↔
    toInt p.minSize < count - queue.length ∧ p.allExpired now queue = true
  := by
  induction queue generalizing count with
  | nil =>
      rw [fronts]
      split <;> simp_all [allExpired]
  | cons conn rest ih =>
      rw [fronts, allExpired]
      have hcast : count - ((conn :: rest).length : ℕ) = count - 1 - rest.length := by
        rw [List.length_cons]
        push_cast
        ring
      rw [hcast]
      split
      · cases hexpired : p.expired conn (now rest.length) with
        | true => simp [ih]
        | false => simp
      · rename_i hstop
        simp only [List.not_mem_nil, false_iff, not_and]
        intro hlt
        omega

/-- The scan fails exactly if it takes the first element of an empty queue. -/
theorem scanQueue_eq_none_iff (p : ConnectionPool) (now : ℕ → ℕ) (queue : List Connection)
    (count : ℤ) :
  p.scanQueue now queue count = none ↔ [] ∈ p.fronts now queue count
  := by
  induction queue generalizing count with
  | nil =>
      rw [scanQueue, fronts]
      split <;> simp
  | cons conn rest ih =>
      rw [scanQueue, fronts]
      split
      · cases p.expired conn (now rest.length) with
        | true => simp [ih]
        | false => simp
      · simp

omit [DecidableEq C] in
/-- A turn of the scanner has no other way to fail. -/
theorem frontsFull_iff_turnDefined (s : State C) (l : Step C) :
  FrontsFull s l ↔ TurnDefined s l
  := by
  cases l with
  | scan now =>
      simp only [FrontsFull, TurnDefined, scannerConnectionTask]
      cases s.pool.isShutdown with
      | true => simp
      | false =>
          have hnone := s.pool.scanQueue_eq_none_iff now s.pool.connectionQueue s.pool.connectionCount
          have hsome := hnone.not.symm.trans Option.isSome_iff_ne_none.symm
          simp only [forall_const, Bool.false_eq_true, if_false, Option.isSome_map, ← hsome]
          constructor
          · exact fun hfull hmem => hfull [] hmem rfl
          · rintro hmem queue hqueue rfl
            apply hmem hqueue
  | getConnection consumer => apply Iff.rfl
  | giveBack consumer id now => apply Iff.rfl
  | produce ok now => apply Iff.rfl
  | shutdown => apply Iff.rfl

omit [DecidableEq C] in
theorem frontsFull_iff (s : State C) (l : Step C) :
  FrontsFull s l ↔ Spare s l
  := by
  cases l with
  | scan now =>
      simp only [FrontsFull, Spare]
      apply imp_congr_right
      intro _
      have hnil := nil_mem_fronts_iff s.pool now s.pool.connectionQueue s.pool.connectionCount
      constructor
      · intro hfull
        by_contra hspare
        simp only [not_or, not_le, Bool.not_eq_false] at hspare
        apply hfull [] (hnil.mpr hspare) rfl
      · rintro hspare queue hmem rfl
        obtain ⟨hcount, hexpired⟩ := hnil.mp hmem
        rcases hspare with hle | hnot
        · omega
        · simp [hexpired] at hnot
  | getConnection consumer => rfl
  | giveBack consumer id now => rfl
  | produce ok now => rfl
  | shutdown => rfl

/-- In every run the scanner takes the first element of queues that are not empty exactly if every turn
of it finds at most the lower bound checked out, or a connection in the queue that is not expired, and
exactly then all its turns are defined. -/
theorem run_frontsFull_iff (minSize maxSize maxIdleTime : ℕ) (oks : ℕ → Bool) (now : ℕ → ℕ)
    (ls : List (Step C)) :
  (Guarded step FrontsFull (start minSize maxSize maxIdleTime oks now) ls ↔
    Guarded step Spare (start minSize maxSize maxIdleTime oks now) ls) ∧
    (Guarded step FrontsFull (start minSize maxSize maxIdleTime oks now) ls ↔
      Guarded step TurnDefined (start minSize maxSize maxIdleTime oks now) ls)
  := by
  have hspare : (FrontsFull : State C → Step C → Prop) = Spare := by
    funext s l
    apply propext (frontsFull_iff s l)
  have hdefined : (FrontsFull : State C → Step C → Prop) = TurnDefined := by
    funext s l
    apply propext (frontsFull_iff_turnDefined s l)
  exact ⟨by rw [hspare], by rw [hdefined]⟩

/-- Two consumers have taken all connections of a pool for one to two of them. -/
def bothOut : List (Step Bool) := [.getConnection false, .produce true 0, .getConnection true]

/-- The counter is above the lower bound, and the scanner takes the first element of the empty queue. -/
theorem front_of_empty :
  ∃ s, run step (start 1 2 5 (fun _ => true) fun _ => 0) bothOut = some s ∧
    ¬ FrontsFull s (.scan fun _ => 0)
  := by
  refine ⟨_, rfl, ?_⟩
  intro hfull
  apply hfull rfl [] _ rfl
  decide

/-! ### The order of the queue -/

/-- The time that a step reads, the last one if there are several. -/
def Step.now : Step C → Option ℕ
  | .giveBack _ _ now => some now
  | .produce _ now => some now
  | .scan now => some (now 0)
  | _ => none

/-- The pool with the time that was read last. -/
structure Clocked (C : Type u) where
  state : State C
  clock : ℕ

namespace Clocked

/-- One step. -/
def step (s : Clocked C) (l : Step C) : Option (Clocked C) :=
  (ConnectionPool.step s.state l).map fun state => ⟨state, l.now.getD s.clock⟩

/-- The clock does not go back, and its values fit into the type of a time, of 64 bits. -/
def OnClock (s : Clocked C) : Step C → Prop
  | .giveBack _ _ now => s.clock ≤ now ∧ now < 2 ^ 63
  | .produce _ now => s.clock ≤ now ∧ now < 2 ^ 63
  | .scan now => Antitone now ∧ (∀ i, s.clock ≤ now i) ∧ now 0 < 2 ^ 63
  | _ => True

/-- The queue is ordered by the times of the last use, which lie in the past. -/
structure Ordered (s : Clocked C) : Prop where
  sorted : s.state.pool.connectionQueue.Pairwise fun c c' => c.aliveTime ≤ c'.aliveTime
  le_clock : ∀ c ∈ s.state.pool.connectionQueue, c.aliveTime ≤ s.clock
  clock_lt : s.clock < 2 ^ 63

variable {s s' : Clocked C}

end Clocked

/-- A connection with a new time is put behind the others. -/
theorem pairwise_push {queue : List Connection} {clock : ℕ}
    (hsorted : queue.Pairwise fun c c' => c.aliveTime ≤ c'.aliveTime)
    (hle : ∀ c ∈ queue, c.aliveTime ≤ clock) {conn : Connection} (hconn : clock ≤ conn.aliveTime) :
  (queue ++ [conn]).Pairwise (fun c c' => c.aliveTime ≤ c'.aliveTime) ∧
    ∀ c ∈ queue ++ [conn], c.aliveTime ≤ conn.aliveTime
  := by
  have hall : ∀ c ∈ queue, c.aliveTime ≤ conn.aliveTime := fun c hc => (hle c hc).trans hconn
  constructor
  · rw [List.pairwise_append]
    refine ⟨hsorted, List.pairwise_singleton _ _, ?_⟩
    intro c hc c' hc'
    obtain rfl := List.mem_singleton.mp hc'
    apply hall c hc
  · intro c hc
    rcases List.mem_append.mp hc with hc | hc
    · apply hall c hc
    · obtain rfl := List.mem_singleton.mp hc
      apply le_rfl

theorem aliveTime_addConnection (p : ConnectionPool) (ok : Bool) (now : ℕ) :
  ∃ conn : Connection, conn.aliveTime = now ∧
    (p.addConnection ok now).connectionQueue = p.connectionQueue ++ [conn]
  := ⟨_, rfl, rfl⟩

theorem addConnections_sorted (p : ConnectionPool) (oks : ℕ → Bool) {now : ℕ → ℕ}
    (hnow : Monotone now) (hempty : p.connectionQueue = []) (n : ℕ) :
  (p.addConnections oks now n).connectionQueue.Pairwise (fun c c' => c.aliveTime ≤ c'.aliveTime) ∧
    ∀ c ∈ (p.addConnections oks now n).connectionQueue, c.aliveTime ≤ now n
  := by
  induction n with
  | zero => simp [addConnections, hempty]
  | succ n ih =>
      obtain ⟨hsorted, hle⟩ := ih
      obtain ⟨conn, htime, hqueue⟩ :=
        aliveTime_addConnection (p.addConnections oks now n) (oks n) (now n)
      obtain ⟨hpush, hpushed⟩ := pairwise_push hsorted hle htime.ge
      rw [addConnections, hqueue]
      refine ⟨hpush, ?_⟩
      intro c hc
      calc c.aliveTime ≤ conn.aliveTime := hpushed c hc
        _ = now n := htime
        _ ≤ now (n + 1) := hnow n.le_succ

namespace Clocked

variable {s s' : Clocked C}

/-- The state behind the constructor, with the time that is read next. -/
def start (minSize maxSize maxIdleTime : ℕ) (oks : ℕ → Bool) (now : ℕ → ℕ) : Clocked C :=
  ⟨ConnectionPool.start minSize maxSize maxIdleTime oks now, now minSize⟩

omit [DecidableEq C] in
theorem start_ordered (minSize maxSize maxIdleTime : ℕ) (oks : ℕ → Bool) {now : ℕ → ℕ}
    (hnow : Monotone now) (hlt : now minSize < 2 ^ 63) :
  (start minSize maxSize maxIdleTime oks now : Clocked C).Ordered
  := by
  obtain ⟨hsorted, hle⟩ :=
    addConnections_sorted (empty minSize maxSize maxIdleTime) oks hnow rfl minSize
  exact ⟨hsorted, hle, hlt⟩

omit [DecidableEq C] in
theorem Ordered.push (h : s.Ordered) {state : State C} (conn : Connection)
    (hqueue : state.pool.connectionQueue = s.state.pool.connectionQueue ++ [conn])
    (hle : s.clock ≤ conn.aliveTime) (hlt : conn.aliveTime < 2 ^ 63) :
  Ordered ⟨state, conn.aliveTime⟩
  := by
  obtain ⟨hsorted, hpushed⟩ := pairwise_push h.sorted h.le_clock hle
  rw [← hqueue] at hsorted hpushed
  exact ⟨hsorted, hpushed, hlt⟩

omit [DecidableEq C] in
/-- Connections are only taken away from the queue. -/
theorem Ordered.sublist (h : s.Ordered) {state : State C} {clock : ℕ}
    (hqueue : state.pool.connectionQueue.Sublist s.state.pool.connectionQueue)
    (hle : s.clock ≤ clock) (hlt : clock < 2 ^ 63) :
  Ordered ⟨state, clock⟩
  := by
  refine ⟨h.sorted.sublist hqueue, ?_, hlt⟩
  intro c hc
  apply (h.le_clock c (hqueue.subset hc)).trans hle

theorem clock_step {l : Step C} (h : s.step l = some s') :
  s'.clock = l.now.getD s.clock
  := by
  obtain ⟨state, -, rfl⟩ := Option.map_eq_some_iff.mp h
  rfl

theorem Ordered.step (h : s.Ordered) {l : Step C} (hclock : s.OnClock l)
    (hstep : s.step l = some s') :
  s'.Ordered
  := by
  obtain ⟨state, hstate, rfl⟩ := Option.map_eq_some_iff.mp hstep
  cases l with
  | getConnection consumer =>
      obtain ⟨conn, rest, hqueue, rfl⟩ := step_getConnection hstate
      apply h.sublist _ le_rfl h.clock_lt
      rw [hqueue]
      apply List.sublist_cons_self
  | giveBack consumer id now =>
      obtain ⟨p, -, rfl⟩ := step_giveBack hstate
      apply h.push (p.2.refreshAliveTime now) rfl hclock.1 hclock.2
  | produce ok now =>
      obtain ⟨-, rfl⟩ | ⟨-, rfl⟩ := step_produce hstate
      · obtain ⟨conn, rfl, hqueue⟩ := aliveTime_addConnection s.state.pool ok now
        apply h.push conn hqueue hclock.1 hclock.2
      · apply h.sublist (List.Sublist.refl _) hclock.1 hclock.2
  | scan now =>
      obtain ⟨-, hle, hlt⟩ := hclock
      obtain rfl | ⟨-, deleted, queue, count, hscan, rfl⟩ := step_scan hstate
      · apply h.sublist (List.Sublist.refl _) (hle 0) hlt
      · obtain ⟨hsplit, -⟩ := (scans_of_scanQueue hscan).spec
        apply h.sublist _ (hle 0) hlt
        rw [hsplit]
        apply List.sublist_append_right
  | shutdown =>
      obtain rfl := step_shutdown hstate
      exact ⟨h.sorted, h.le_clock, h.clock_lt⟩

/-- What a turn of the scanner at the given times does is sound: it deletes connections that were not used
for longer than those it leaves, and if it stops while it could delete more, none that is left was unused
for too long when it stops. -/
structure SoundScan (p : ConnectionPool) (now : ℕ → ℕ) (deleted : List Connection)
    (p' : ConnectionPool) : Prop where
  queue : p.connectionQueue = deleted ++ p'.connectionQueue
  oldest : ∀ c ∈ deleted, ∀ c' ∈ p'.connectionQueue, c.aliveTime ≤ c'.aliveTime
  stop : ∀ head rest, p'.connectionQueue = head :: rest → toInt p.minSize < p'.connectionCount →
    ∀ c ∈ p'.connectionQueue, c.getAliveTime (now rest.length) < p.maxIdleTime * 1000 % 2 ^ 64

end Clocked

/-- If the inner loop of the scanner stops while the counter is above the bound, the first connection is
not expired. -/
theorem Scans.stop {p : ConnectionPool} {now : ℕ → ℕ} {queue deleted rest : List Connection}
    {head : Connection} {count count' : ℤ}
    (h : Scans p now queue count deleted (head :: rest) count') (hcount : toInt p.minSize < count') :
  p.expired head (now rest.length) = false
  := by
  generalize hleft : head :: rest = left at h
  induction h with
  | bound hstop => exact absurd hcount hstop.not_gt
  | fresh hexpired =>
      obtain ⟨rfl, rfl⟩ := List.cons.inj hleft
      apply hexpired
  | delete _ _ _ ih => apply ih hcount hleft

theorem Connection.getAliveTime_of_le {c : Connection} {now : ℕ} (hle : c.aliveTime ≤ now)
    (hlt : now < 2 ^ 63) :
  c.getAliveTime now = (now - c.aliveTime) / 1000
  := by
  have hsub : (now : ℤ) - c.aliveTime = ((now - c.aliveTime : ℕ) : ℤ) := by omega
  have hdiv : ((now - c.aliveTime : ℕ) : ℤ).tdiv 1000 = ((now - c.aliveTime) / 1000 : ℕ) := rfl
  rw [Connection.getAliveTime, hsub, hdiv]
  omega

namespace Clocked

variable {s s' : Clocked C}

omit [DecidableEq C] in
/-- In an ordered queue, the connections behind one that is not expired are not expired either. -/
theorem Ordered.soundScan (h : s.Ordered) {now : ℕ → ℕ} (hclock : s.OnClock (.scan now))
    {deleted : List Connection} {p : ConnectionPool} (hopen : s.state.pool.isShutdown = false)
    (hscan : s.state.pool.scannerConnectionTask now = some (deleted, p)) :
  SoundScan s.state.pool now deleted p
  := by
  obtain ⟨hanti, hle, hlt⟩ := hclock
  rw [scannerConnectionTask, if_neg (by simp [hopen])] at hscan
  obtain ⟨⟨deleted', queue, count⟩, hqueue, heq⟩ := Option.map_eq_some_iff.mp hscan
  obtain ⟨rfl, rfl⟩ := Prod.mk.inj heq
  obtain ⟨hsplit, -, -⟩ := (scans_of_scanQueue hqueue).spec
  have hsorted := h.sorted
  rw [hsplit, List.pairwise_append] at hsorted
  refine ⟨hsplit, hsorted.2.2, ?_⟩
  rintro head rest rfl hcount c hc
  have hhead := (scans_of_scanQueue hqueue).stop hcount
  have hnow : now rest.length < 2 ^ 63 := (hanti (Nat.zero_le _)).trans_lt hlt
  have hpast : ∀ c ∈ head :: rest, c.aliveTime ≤ now rest.length := by
    intro c hc
    apply (h.le_clock c _).trans (hle _)
    rw [hsplit]
    apply List.mem_append_right _ hc
  have hyounger : head.aliveTime ≤ c.aliveTime := by
    rcases List.mem_cons.mp hc with rfl | hrest
    · apply le_rfl
    · apply List.rel_of_pairwise_cons hsorted.2.1 hrest
  have hheadTime : head.getAliveTime (now rest.length) < s.state.pool.maxIdleTime * 1000 % 2 ^ 64 := by
    simpa [expired] using hhead
  rw [Connection.getAliveTime_of_le (hpast head List.mem_cons_self) hnow] at hheadTime
  rw [Connection.getAliveTime_of_le (hpast c hc) hnow]
  calc (now rest.length - c.aliveTime) / 1000
      ≤ (now rest.length - head.aliveTime) / 1000 := Nat.div_le_div_right (by omega)
    _ < s.state.pool.maxIdleTime * 1000 % 2 ^ 64 := hheadTime

/-- In every run with a clock that does not go back, the queue is ordered by the times of the last use,
and every turn of the scanner is sound. -/
theorem run_oldestFirst {minSize maxSize maxIdleTime : ℕ} {oks : ℕ → Bool} {now : ℕ → ℕ}
    (hnow : Monotone now) (hlt : now minSize < 2 ^ 63) {ls : List (Step C)}
    (hclock : Guarded step OnClock (start minSize maxSize maxIdleTime oks now) ls)
    (h : run step (start minSize maxSize maxIdleTime oks now) ls = some s) :
  s.state.pool.connectionQueue.Pairwise (fun c c' => c.aliveTime ≤ c'.aliveTime) ∧
    ∀ now' deleted p, s.OnClock (.scan now') → s.state.pool.isShutdown = false →
      s.state.pool.scannerConnectionTask now' = some (deleted, p) →
        SoundScan s.state.pool now' deleted p
  := by
  have hOrdered : s.Ordered :=
    run_guarded_invariant (fun _ _ _ hs hl hstep => hs.step hl hstep)
      (start_ordered minSize maxSize maxIdleTime oks hnow hlt) hclock h
  refine ⟨hOrdered.sorted, ?_⟩
  intro now' deleted p hon hopen hscan
  apply hOrdered.soundScan hon hopen hscan

/-- Three connections are taken and given back in another order. -/
def backInOrder : List (Step Bool) :=
  [.getConnection false, .getConnection true, .produce true 2000, .giveBack true 1 3000000,
    .giveBack false 0 5000000]

theorem run_oldestFirst_backInOrder :
  ∃ s : Clocked Bool,
    run step (start 2 4 2 (fun _ => true) fun n => n) backInOrder = some s ∧
    s.state.pool.connectionQueue.map Connection.id = [2, 1, 0] ∧
    s.state.pool.connectionQueue.Pairwise (fun c c' => c.aliveTime ≤ c'.aliveTime) ∧
    ∃ deleted p, s.state.pool.scannerConnectionTask (fun _ => 5500000) = some (deleted, p) ∧
      deleted.map Connection.id = [2] ∧ SoundScan s.state.pool (fun _ => 5500000) deleted p
  := by
  have hclock : Guarded step OnClock (start 2 4 2 (fun _ => true) fun n => n) backInOrder := by
    refine ⟨trivial, fun s₁ h₁ => ⟨trivial, fun s₂ h₂ => ⟨?_, fun s₃ h₃ => ⟨?_, fun s₄ h₄ =>
      ⟨?_, fun _ _ => trivial⟩⟩⟩⟩⟩
    · simp [OnClock, clock_step h₂, clock_step h₁, Step.now, start]
    · simp [OnClock, clock_step h₃, Step.now]
    · simp [OnClock, clock_step h₄, Step.now]
  have hrun : (run step (start 2 4 2 (fun _ => true) fun n => n) backInOrder).map (fun s =>
      (s.clock, s.state.pool.isShutdown, s.state.pool.connectionQueue.map Connection.id,
        (s.state.pool.scannerConnectionTask fun _ => 5500000).map fun r => r.1.map Connection.id))
      = some (5000000, false, [2, 1, 0], some [2]) := by decide
  obtain ⟨s, hs, hfields⟩ := Option.map_eq_some_iff.mp hrun
  simp only [Prod.mk.injEq] at hfields
  obtain ⟨htime, hopen, hids, hscan⟩ := hfields
  obtain ⟨⟨deleted, p⟩, hscan, hdeleted⟩ := Option.map_eq_some_iff.mp hscan
  obtain ⟨hsorted, hsound⟩ := run_oldestFirst (fun _ _ h => h) (by norm_num) hclock hs
  refine ⟨s, hs, hids, hsorted, deleted, p, hscan, hdeleted, ?_⟩
  apply hsound _ _ _ _ hopen hscan
  exact ⟨fun _ _ _ => le_rfl, fun _ => by simp [htime], by norm_num⟩

end Clocked

/-! ### Connections to the database -/

/-- The connections in the queue and with the consumers. -/
def State.connections (s : State C) : List Connection :=
  s.pool.connectionQueue ++ s.held.map Prod.snd

/-- The number of connections whose `Connect` returned true. -/
def State.connected (s : State C) : ℕ := s.connections.countP fun conn => conn.conn = .connected

/-- The counter, of 32 bits, counts the connections whose `Connect` returned true. -/
def CountsConnected (s : State C) : Prop := s.pool.connectionCount ≡ s.connected [ZMOD 2 ^ 32]

/-- What a step hands out is connected, and the counter counts the connected ones behind it. -/
def HandsConnected (s : State C) (l : Step C) : Prop :=
  (∀ consumer conn pool, l = .getConnection consumer → s.pool.getConnection = some (conn, pool) →
      conn.conn = .connected) ∧
    ∀ s', step s l = some s' → CountsConnected s'

/-- If the producer adds a connection, then `mysql_real_connect` succeeds. -/
def Connects (s : State C) : Step C → Prop
  | .produce ok _ => s.pool.Produces → ok = true
  | _ => True

/-- All connections of the pool are connected and counted. -/
structure AllConnected (s : State C) : Prop where
  usable : ∀ conn ∈ s.connections, conn.conn = .connected
  counted : CountsConnected s

omit [DecidableEq C] in
theorem connected_eq_length {s : State C} (h : ∀ conn ∈ s.connections, conn.conn = .connected) :
  s.connected = s.connections.length
  := by
  apply List.countP_eq_length.mpr
  simpa using h

omit [DecidableEq C] in
/-- A step that adds no connections and counts those it deletes. -/
theorem AllConnected.of_perm {s s' : State C} (h : AllConnected s) (deleted : List Connection)
    {conns : List Connection} (hperm : s.connections.Perm (deleted ++ conns))
    (hconns : s'.connections.map Connection.conn = conns.map Connection.conn)
    (hcount : s'.pool.connectionCount = s.pool.connectionCount - deleted.length) :
  AllConnected s'
  := by
  have husable : ∀ conn ∈ s'.connections, conn.conn = .connected := by
    intro conn hconn
    have hmem : conn.conn ∈ conns.map Connection.conn := hconns ▸ List.mem_map_of_mem hconn
    obtain ⟨conn', hconn', heq⟩ := List.mem_map.mp hmem
    rw [← heq]
    apply h.usable conn'
    rw [hperm.mem_iff]
    apply List.mem_append_right _ hconn'
  have hlength : s'.connections.length = conns.length := by simpa using congrArg List.length hconns
  have hold : s.connections.length = deleted.length + conns.length := by simpa using hperm.length_eq
  refine ⟨husable, ?_⟩
  have hcounted := h.counted
  rw [CountsConnected, connected_eq_length h.usable, hold] at hcounted
  rw [CountsConnected, connected_eq_length husable, hlength, hcount]
  have hsub := hcounted.sub_right (deleted.length : ℤ)
  simpa using hsub

omit [DecidableEq C] in
/-- The counter counts a new connection as it counts the others. -/
theorem countsConnected_addConnection {s : State C} (h : CountsConnected s) (ok : Bool) (now : ℕ) :
  CountsConnected { s with pool := s.pool.addConnection ok now } ↔ ok = true
  := by
  have hwrap : (s.pool.addConnection ok now).connectionCount
      ≡ s.pool.connectionCount + 1 [ZMOD 2 ^ 32] := by
    have hemod := Int.bmod_emod (x := s.pool.connectionCount + 1) (m := 2 ^ 32)
    exact_mod_cast hemod
  have hcount : (s.pool.addConnection ok now).connectionCount ≡ s.connected + 1 [ZMOD 2 ^ 32] :=
    hwrap.trans (h.add_right 1)
  have hconnected : State.connected { s with pool := s.pool.addConnection ok now }
      = s.connected + if ok then 1 else 0 := by
    cases ok <;>
      simp [State.connected, State.connections, addConnection, Connection.connect, Connection.new,
        Connection.refreshAliveTime]
    omega
  rw [CountsConnected, hconnected]
  cases ok with
  | true => simpa using hcount
  | false =>
      simp only [Bool.false_eq_true, if_false, Nat.add_zero, iff_false]
      intro hsame
      have hone : (s.connected : ℤ) + 1 ≡ s.connected + 0 [ZMOD 2 ^ 32] := by
        simpa using hcount.symm.trans hsame
      have hzero : (1 : ℤ) ≡ 0 [ZMOD 2 ^ 32] := Int.ModEq.add_left_cancel' _ hone
      exact absurd hzero (by decide)

omit [DecidableEq C] in
theorem AllConnected.addConnection {s : State C} (h : AllConnected s) (now : ℕ) :
  AllConnected { s with pool := s.pool.addConnection true now }
  := by
  refine ⟨?_, (countsConnected_addConnection h.counted true now).mpr rfl⟩
  intro conn hconn
  have hcases : conn ∈ s.connections ∨
      conn = ((Connection.new s.pool.created).connect true).2.refreshAliveTime now := by
    simp only [State.connections, ConnectionPool.addConnection, List.mem_append, List.mem_singleton]
      at hconn ⊢
    tauto
  rcases hcases with hconn | rfl
  · apply h.usable conn hconn
  · rfl

theorem AllConnected.step {s s' : State C} (h : AllConnected s) {l : Step C} (hl : Connects s l)
    (hstep : step s l = some s') :
  AllConnected s'
  := by
  cases l with
  | getConnection consumer =>
      obtain ⟨conn, rest, hqueue, rfl⟩ := step_getConnection hstep
      apply h.of_perm [] _ rfl (by simp)
      simp only [State.connections, hqueue, List.map_cons, List.cons_append, List.nil_append]
      apply List.perm_middle.symm
  | giveBack consumer id now =>
      obtain ⟨p, hp, rfl⟩ := step_giveBack hstep
      have hperm : (s.held.map Prod.snd).Perm (p.2 :: (s.held.erase p).map Prod.snd) :=
        (List.perm_cons_erase hp).map Prod.snd
      apply h.of_perm [] (hperm.append_left s.pool.connectionQueue) _ (by simp [giveBack])
      simp [State.connections, giveBack, Connection.refreshAliveTime]
  | produce ok now =>
      obtain ⟨hproduces, rfl⟩ | ⟨-, rfl⟩ := step_produce hstep
      · obtain rfl : ok = true := hl hproduces
        apply h.addConnection
      · apply h
  | scan now =>
      obtain rfl | ⟨-, deleted, queue, count, hscan, rfl⟩ := step_scan hstep
      · apply h
      · obtain ⟨hsplit, hcount, -⟩ := (scans_of_scanQueue hscan).spec
        apply h.of_perm deleted _ rfl hcount
        simp [State.connections, hsplit]
  | shutdown =>
      obtain rfl := step_shutdown hstep
      exact ⟨h.usable, h.counted⟩

/-- As long as all connections are connected, a step keeps to that exactly if the producer does not fail
to connect. -/
theorem AllConnected.handsConnected_iff {s : State C} (h : AllConnected s) (l : Step C) :
  HandsConnected s l ↔ Connects s l
  := by
  constructor
  · rintro ⟨-, hcounts⟩
    cases l with
    | produce ok now =>
        intro hproduces
        apply (countsConnected_addConnection h.counted ok now).mp
        apply hcounts
        obtain ⟨hopen, hshort, hroom⟩ := hproduces
        simp [ConnectionPool.step, produceConnectionTask, hopen, hshort, hroom]
    | getConnection consumer => trivial
    | giveBack consumer id now => trivial
    | scan now => trivial
    | shutdown => trivial
  · intro hl
    refine ⟨?_, fun s' hstep => (h.step hl hstep).counted⟩
    rintro consumer conn pool rfl hget
    have hstep : ConnectionPool.step s (.getConnection consumer)
        = some ⟨pool, (consumer, conn) :: s.held, s.log ++ [.handed conn.id]⟩ := by
      simp [ConnectionPool.step, hget]
    apply (h.step hl hstep).usable conn
    simp [State.connections]

/-- The states of the constructor, in which some of the connections have been added. -/
def constructing (minSize maxSize maxIdleTime : ℕ) (oks : ℕ → Bool) (now : ℕ → ℕ) (n : ℕ) : State C :=
  ⟨(empty minSize maxSize maxIdleTime).addConnections oks now n, [], []⟩

omit [DecidableEq C] in
theorem constructing_allConnected (minSize maxSize maxIdleTime : ℕ) {oks : ℕ → Bool} (now : ℕ → ℕ)
    {n : ℕ} (hoks : ∀ i < n, oks i = true) :
  AllConnected (constructing minSize maxSize maxIdleTime oks now n : State C)
  := by
  induction n with
  | zero => exact ⟨by simp [State.connections, constructing, addConnections, empty], rfl⟩
  | succ n ih =>
      have hadded := (ih fun i hi => hoks i (hi.trans n.lt_succ_self)).addConnection (now n)
      rw [← hoks n n.lt_succ_self] at hadded
      apply hadded

/-- In every run, from the first connection that the constructor adds, `GetConnection` hands out
connections that are connected, and the counter counts no others, exactly if no call of
`mysql_real_connect` fails. -/
theorem run_handsConnected_iff (minSize maxSize maxIdleTime : ℕ) (oks : ℕ → Bool) (now : ℕ → ℕ)
    (ls : List (Step C)) :
  ((∀ n ≤ minSize,
        CountsConnected (constructing minSize maxSize maxIdleTime oks now n : State C)) ∧
      Guarded step HandsConnected (start minSize maxSize maxIdleTime oks now) ls) ↔
    (∀ i < minSize, oks i = true) ∧
      Guarded step Connects (start minSize maxSize maxIdleTime oks now) ls
  := by
  have hconstructor : (∀ n ≤ minSize,
      CountsConnected (constructing minSize maxSize maxIdleTime oks now n : State C)) ↔
        ∀ i < minSize, oks i = true := by
    constructor
    · intro hcounts i hi
      apply (countsConnected_addConnection (hcounts i hi.le) (oks i) (now i)).mp
      apply hcounts (i + 1) hi
    · intro hoks n hn
      apply (constructing_allConnected minSize maxSize maxIdleTime now _).counted
      intro i hi
      apply hoks i (hi.trans_le hn)
  rw [hconstructor]
  apply and_congr_right
  intro hoks
  apply guarded_congr AllConnected (fun s l hs => hs.handsConnected_iff l)
    (fun s l s' hs hl hstep => hs.step hl hstep)
  apply constructing_allConnected minSize maxSize maxIdleTime now hoks

/-- The database is gone when the producer connects again, and a consumer gets what it has made. -/
def databaseGone : List (Step Bool) := [.getConnection false, .produce false 0]

/-- A consumer gets a connection without a handle, which the counter counts. -/
theorem dead_connection :
  ∃ s, run step (start 1 2 5 (fun _ => true) fun _ => 0) databaseGone = some s ∧
    ¬ CountsConnected s ∧ ¬ HandsConnected s (.getConnection true)
  := by
  refine ⟨_, rfl, ?_, ?_⟩
  · intro hcounts
    exact absurd (show (1 : ℤ) + 1 ≡ 1 [ZMOD 2 ^ 32] from hcounts) (by decide)
  · rintro ⟨hhands, -⟩
    have hnull := hhands true ⟨1, .null, 0⟩ _ rfl rfl
    exact absurd hnull (by decide)

end ConnectionPool

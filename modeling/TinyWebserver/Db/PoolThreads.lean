import TinyWebserver.Db.PoolQueue

/-!
# The threads of the pool

How the threads of `ConnectionPool` wait for each other. The producer goes through its loop in single
steps, since the destructor sets `m_isShutdown` and notifies without the mutex, and may do so between any
two of them. The critical sections of the others are one step each. `notify_all` wakes exactly the threads
that wait on `m_cv`.

The runs of the threads are runs of the pool, `run_refines`.

A consumer that takes a connection notifies the producer, the scanner that deletes one does not. So the
queue may be empty and a consumer wait, while the producer is asleep and there is room for another
connection, `starved`. That does not happen in runs in which the scanner, while the producer waits, finds
less than the lower bound checked out, or a connection in the queue that is not expired,
`run_not_starved`.

The destructor may notify after the producer has read `m_isShutdown` and before it waits. Then nobody wakes
the producer, and the destructor does not return, `hung`. That does not happen in runs in which the
destructor does not notify there, `run_not_hung`.
-/

universe u

namespace ConnectionPool

open Transition

/-- Where the producer is in `ProduceConnectionTask`. -/
inductive Producer where
  /-- It tests `m_isShutdown` in the outer loop. -/
  | looping
  /-- It locks the mutex, at the start of the outer loop or behind a wait. -/
  | locking
  /-- It has the mutex and tests `m_isShutdown` in the inner loop. -/
  | testing
  /-- It has found `m_isShutdown` false and compares the size of the queue. -/
  | measuring
  /-- It calls `m_cv.wait`. -/
  | blocking
  | waiting
  /-- It is behind the inner loop and tests `m_isShutdown`. -/
  | checking
  /-- It adds a connection, if there is room, and notifies. -/
  | producing
  | ended
deriving DecidableEq

/-- The producer has the mutex. -/
def Producer.hasMutex : Producer → Bool
  | .testing | .measuring | .blocking | .checking | .producing => true
  | .looping | .locking | .waiting | .ended => false

/-- Where a consumer is in `GetConnection`. -/
inductive Consumer where
  | outside
  /-- It locks the mutex, at the start or behind a wait, and tests whether the queue is empty. -/
  | locking
  | waiting
deriving DecidableEq

/-- Where the thread is that calls the destructor. -/
inductive Destructor where
  | alive
  /-- `m_isShutdown` is set. -/
  | notifying
  /-- It has notified and waits for the producer to end. -/
  | joining
deriving DecidableEq

/-- The pool and its threads. -/
structure Threads (C : Type u) where
  data : State C
  producer : Producer
  consumers : C → Consumer
  destructor : Destructor

namespace Threads

variable {C : Type u} [DecidableEq C]

/-- `m_cv.notify_all()`. -/
def notifyAll (s : Threads C) : Threads C :=
  { s with
    producer := if s.producer = .waiting then .locking else s.producer
    consumers := fun c => if s.consumers c = .waiting then .locking else s.consumers c }

/-- The next step of the producer. -/
def produceConnectionTask (s : Threads C) (ok : Bool) (now : ℕ) : Option (Threads C) :=
  let pool := s.data.pool
  match s.producer with
  | .looping => some { s with producer := if pool.isShutdown then .ended else .locking }
  | .locking => some { s with producer := .testing }
  | .testing => some { s with producer := if pool.isShutdown then .checking else .measuring }
  | .measuring =>
      some { s with
        producer := if pool.minSize ≤ pool.connectionQueue.length then .blocking else .checking }
  | .blocking => some { s with producer := .waiting }
  | .waiting => none
  | .checking => some { s with producer := if pool.isShutdown then .ended else .producing }
  | .producing =>
      let added :=
        if pool.connectionCount < toInt pool.maxSize then pool.addConnection ok now else pool
      some (notifyAll { s with data := { s.data with pool := added }, producer := .looping })
  | .ended => none

/-- The turn of a consumer that gets the mutex in `GetConnection`. -/
def getConnection (s : Threads C) (consumer : C) : Option (Threads C) :=
  match s.data.pool.connectionQueue with
  | [] => some { s with consumers := Function.update s.consumers consumer .waiting }
  | _ :: _ =>
      (step s.data (.getConnection consumer)).map fun data =>
        notifyAll
          { s with data := data, consumers := Function.update s.consumers consumer .outside }

/-- A step: of the producer, of a consumer that calls `GetConnection`, gets the mutex there, waits for
too long or gives a connection back, of the scanner, or of the destructor. -/
inductive Label (C : Type u) where
  | produce (ok : Bool) (now : ℕ)
  | call (consumer : C)
  | getConnection (consumer : C)
  | timeout (consumer : C)
  | giveBack (consumer : C) (id now : ℕ)
  | scan (now : ℕ → ℕ)
  | shutdown
  | notify

/-- One step, with `none` if it has to wait or is an error. No consumer calls a pool that is being
destroyed. -/
def next (s : Threads C) : Label C → Option (Threads C)
  | .produce ok now => s.produceConnectionTask ok now
  | .call consumer =>
      if s.destructor = .alive ∧ s.consumers consumer = .outside then
        some { s with consumers := Function.update s.consumers consumer .locking }
      else none
  | .getConnection consumer =>
      if ¬ s.producer.hasMutex ∧ s.consumers consumer = .locking then s.getConnection consumer
      else none
  | .timeout consumer =>
      if s.consumers consumer = .waiting then
        some { s with consumers := Function.update s.consumers consumer .locking }
      else none
  | .giveBack consumer id now =>
      if s.producer.hasMutex then none
      else (step s.data (.giveBack consumer id now)).map fun data => { s with data := data }
  | .scan now =>
      if s.producer.hasMutex then none
      else (step s.data (.scan now)).map fun data => { s with data := data }
  | .shutdown =>
      if s.destructor = .alive then
        (step s.data .shutdown).map fun data => { s with data := data, destructor := .notifying }
      else none
  | .notify =>
      if s.destructor = .notifying then some (notifyAll { s with destructor := .joining }) else none

/-- The threads behind the constructor. -/
def start (minSize maxSize maxIdleTime : ℕ) (oks : ℕ → Bool) (now : ℕ → ℕ) : Threads C :=
  { data := ConnectionPool.start minSize maxSize maxIdleTime oks now
    producer := .looping
    consumers := fun _ => .outside
    destructor := .alive }

/-! ### The steps, read backwards -/

variable {s s' : Threads C}

theorem next_call {consumer : C} (h : s.next (.call consumer) = some s') :
  ∃ consumers, s' = { s with consumers := consumers }
  := by
  rw [next] at h
  split at h
  · exact ⟨_, (Option.some.inj h).symm⟩
  · simp at h

theorem next_timeout {consumer : C} (h : s.next (.timeout consumer) = some s') :
  ∃ consumers, s' = { s with consumers := consumers }
  := by
  rw [next] at h
  split at h
  · exact ⟨_, (Option.some.inj h).symm⟩
  · simp at h

theorem next_getConnection {consumer : C} (h : s.next (.getConnection consumer) = some s') :
  s.producer.hasMutex = false ∧ s.consumers consumer = .locking ∧ ∃ consumers,
    s' = { s with consumers := consumers } ∨
      ∃ data, step s.data (.getConnection consumer) = some data ∧
        s' = notifyAll { s with data := data, consumers := consumers }
  := by
  rw [next] at h
  split at h
  · rename_i hguard
    refine ⟨by simpa using hguard.1, hguard.2, ?_⟩
    rw [getConnection] at h
    split at h
    · exact ⟨_, Or.inl (Option.some.inj h).symm⟩
    · obtain ⟨data, hdata, rfl⟩ := Option.map_eq_some_iff.mp h
      exact ⟨_, Or.inr ⟨data, hdata, rfl⟩⟩
  · simp at h

theorem next_giveBack {consumer : C} {id now : ℕ} (h : s.next (.giveBack consumer id now) = some s') :
  s.producer.hasMutex = false ∧ ∃ data, step s.data (.giveBack consumer id now) = some data ∧
    s' = { s with data := data }
  := by
  rw [next] at h
  split at h
  · simp at h
  · rename_i hmutex
    obtain ⟨data, hdata, rfl⟩ := Option.map_eq_some_iff.mp h
    exact ⟨by simpa using hmutex, data, hdata, rfl⟩

theorem next_scan {now : ℕ → ℕ} (h : s.next (.scan now) = some s') :
  s.producer.hasMutex = false ∧ ∃ data, step s.data (.scan now) = some data ∧
    s' = { s with data := data }
  := by
  rw [next] at h
  split at h
  · simp at h
  · rename_i hmutex
    obtain ⟨data, hdata, rfl⟩ := Option.map_eq_some_iff.mp h
    exact ⟨by simpa using hmutex, data, hdata, rfl⟩

theorem next_shutdown (h : s.next .shutdown = some s') :
  s.destructor = .alive ∧ s' = { s with
    data := { s.data with pool := { s.data.pool with isShutdown := true } }
    destructor := .notifying }
  := by
  rw [next] at h
  split at h
  · rename_i halive
    exact ⟨halive, (Option.some.inj h).symm⟩
  · simp at h

theorem next_notify (h : s.next .notify = some s') :
  s.destructor = .notifying ∧ s' = notifyAll { s with destructor := .joining }
  := by
  rw [next] at h
  split at h
  · rename_i hnotifying
    exact ⟨hnotifying, (Option.some.inj h).symm⟩
  · simp at h

/-- The steps of the producer that only read the pool. -/
inductive Moves (pool : ConnectionPool) : Producer → Producer → Prop
  | loop (hopen : pool.isShutdown = false) : Moves pool .looping .locking
  | leave (hshutdown : pool.isShutdown = true) : Moves pool .looping .ended
  | lock : Moves pool .locking .testing
  | test (hopen : pool.isShutdown = false) : Moves pool .testing .measuring
  | skip (hshutdown : pool.isShutdown = true) : Moves pool .testing .checking
  | long (hlong : pool.minSize ≤ pool.connectionQueue.length) : Moves pool .measuring .blocking
  | short (hshort : pool.connectionQueue.length < pool.minSize) : Moves pool .measuring .checking
  | wait : Moves pool .blocking .waiting
  | stop (hshutdown : pool.isShutdown = true) : Moves pool .checking .ended
  | pass (hopen : pool.isShutdown = false) : Moves pool .checking .producing

/-- The pool behind the turn of the producer that adds a connection, if there is room. -/
def added (pool : ConnectionPool) (ok : Bool) (now : ℕ) : ConnectionPool :=
  if pool.connectionCount < toInt pool.maxSize then pool.addConnection ok now else pool

theorem added_minSize (pool : ConnectionPool) (ok : Bool) (now : ℕ) :
  (added pool ok now).minSize = pool.minSize
  := by
  rw [added]
  split <;> rfl

theorem added_isShutdown (pool : ConnectionPool) (ok : Bool) (now : ℕ) :
  (added pool ok now).isShutdown = pool.isShutdown
  := by
  rw [added]
  split <;> rfl

theorem next_produce {ok : Bool} {now : ℕ} (h : s.next (.produce ok now) = some s') :
  (∃ phase, Moves s.data.pool s.producer phase ∧ s' = { s with producer := phase }) ∨
    s.producer = .producing ∧ s' = notifyAll { s with
      data := { s.data with pool := added s.data.pool ok now }
      producer := .looping }
  := by
  rw [next, produceConnectionTask] at h
  cases hphase : s.producer with
  | looping =>
      obtain rfl : _ = s' := by simpa [hphase] using h
      refine Or.inl ⟨_, ?_, rfl⟩
      cases hflag : s.data.pool.isShutdown with
      | true => apply Moves.leave hflag
      | false => apply Moves.loop hflag
  | locking =>
      obtain rfl : _ = s' := by simpa [hphase] using h
      exact Or.inl ⟨_, Moves.lock, rfl⟩
  | testing =>
      obtain rfl : _ = s' := by simpa [hphase] using h
      refine Or.inl ⟨_, ?_, rfl⟩
      cases hflag : s.data.pool.isShutdown with
      | true => apply Moves.skip hflag
      | false => apply Moves.test hflag
  | measuring =>
      obtain rfl : _ = s' := by simpa [hphase] using h
      refine Or.inl ⟨_, ?_, rfl⟩
      split
      · apply Moves.long
        assumption
      · apply Moves.short
        omega
  | blocking =>
      obtain rfl : _ = s' := by simpa [hphase] using h
      exact Or.inl ⟨_, Moves.wait, rfl⟩
  | waiting => simp [hphase] at h
  | checking =>
      obtain rfl : _ = s' := by simpa [hphase] using h
      refine Or.inl ⟨_, ?_, rfl⟩
      cases hflag : s.data.pool.isShutdown with
      | true => apply Moves.stop hflag
      | false => apply Moves.pass hflag
  | producing =>
      obtain rfl : _ = s' := by simpa [hphase] using h
      exact Or.inr ⟨rfl, rfl⟩
  | ended => simp [hphase] at h

omit [DecidableEq C] in
theorem notifyAll_producer_ne (s : Threads C) :
  s.notifyAll.producer ≠ .waiting
  := by
  rw [notifyAll]
  split
  · simp
  · assumption

omit [DecidableEq C] in
theorem hasMutex_notifyAll (s : Threads C) :
  s.notifyAll.producer.hasMutex = s.producer.hasMutex
  := by
  rw [notifyAll]
  split
  · rename_i hwaiting
    rw [hwaiting]
    rfl
  · rfl

omit [DecidableEq C] in
/-- `notify_all` leaves the producer in all places but one. -/
theorem producer_of_notifyAll {phase : Producer} (hne : phase ≠ .locking)
    (h : s.notifyAll.producer = phase) :
  s.producer = phase
  := by
  rw [notifyAll] at h
  split at h
  · exact absurd h.symm hne
  · apply h

/-! ### The threads refine the pool -/

/-- The pool as the steps of `ConnectionPool.step` see it: where the producer is about to add a connection,
it has found that the pool is not shut down. -/
def toState (s : Threads C) : State C :=
  if s.producer = .producing then
    { s.data with pool := { s.data.pool with isShutdown := false } }
  else s.data

/-- Behind the inner loop the pool is shut down, or the queue is short. -/
structure Ready (s : Threads C) : Prop where
  checking : s.producer = .checking →
    s.data.pool.isShutdown = true ∨ s.data.pool.connectionQueue.length < s.data.pool.minSize
  producing : s.producer = .producing →
    s.data.pool.connectionQueue.length < s.data.pool.minSize

omit [DecidableEq C] in
theorem Ready.of_hasMutex (h : s.producer.hasMutex = false) :
  s.Ready
  := by
  constructor
  · intro hphase
    simp [hphase, Producer.hasMutex] at h
  · intro hphase
    simp [hphase, Producer.hasMutex] at h

omit [DecidableEq C] in
theorem toState_of_hasMutex (h : s.producer.hasMutex = false) :
  s.toState = s.data
  := by
  rw [toState, if_neg]
  intro hphase
  simp [hphase, Producer.hasMutex] at h

theorem Ready.next (h : s.Ready) {l : Label C} (hnext : s.next l = some s') :
  s'.Ready
  := by
  cases l with
  | produce ok now =>
      obtain ⟨phase, hmoves, rfl⟩ | ⟨-, rfl⟩ := next_produce hnext
      · generalize hold : s.producer = old at hmoves
        constructor
        · rintro (rfl : phase = .checking)
          cases hmoves with
          | skip hshutdown => exact Or.inl hshutdown
          | short hshort => exact Or.inr hshort
        · rintro (rfl : phase = .producing)
          cases hmoves with
          | pass hopen =>
              rcases h.checking hold with hshutdown | hshort
              · simp [hopen] at hshutdown
              · apply hshort
      · apply Ready.of_hasMutex
        rw [hasMutex_notifyAll]
        rfl
  | call consumer =>
      obtain ⟨consumers, rfl⟩ := next_call hnext
      exact ⟨h.checking, h.producing⟩
  | getConnection consumer =>
      obtain ⟨hmutex, -, consumers, rfl | ⟨data, -, rfl⟩⟩ := next_getConnection hnext
      · exact ⟨h.checking, h.producing⟩
      · apply Ready.of_hasMutex
        rw [hasMutex_notifyAll]
        apply hmutex
  | timeout consumer =>
      obtain ⟨consumers, rfl⟩ := next_timeout hnext
      exact ⟨h.checking, h.producing⟩
  | giveBack consumer id now =>
      obtain ⟨hmutex, data, -, rfl⟩ := next_giveBack hnext
      apply Ready.of_hasMutex
      apply hmutex
  | scan now =>
      obtain ⟨hmutex, data, -, rfl⟩ := next_scan hnext
      apply Ready.of_hasMutex
      apply hmutex
  | shutdown =>
      obtain ⟨-, rfl⟩ := next_shutdown hnext
      exact ⟨fun _ => Or.inl rfl, h.producing⟩
  | notify =>
      obtain ⟨-, rfl⟩ := next_notify hnext
      constructor
      · intro hphase
        apply h.checking (producer_of_notifyAll (by simp) hphase)
      · intro hphase
        apply h.producing (producer_of_notifyAll (by simp) hphase)

theorem isShutdown_eta {pool : ConnectionPool} {flag : Bool} (h : pool.isShutdown = flag) :
  { pool with isShutdown := flag } = pool
  := by
  rw [← h]

theorem step_shutdown_reset {data : State C} {pool : ConnectionPool} (h : pool.isShutdown = true) :
  step { data with pool := { pool with isShutdown := false } } .shutdown
    = some { data with pool := pool }
  := by
  rw [step, ← h]

/-- The turn of the producer, without the waits, and the shutdown if it has come in the meantime. -/
theorem toState_added (hready : s.Ready) (hphase : s.producer = .producing) (ok : Bool) (now : ℕ) :
  ∃ ls, run step s.toState ls
    = some { s.data with pool := added s.data.pool ok now }
  := by
  have hshort := hready.producing hphase
  have hstate : s.toState
      = { s.data with pool := { s.data.pool with isShutdown := false } } := if_pos hphase
  have hproduce : step s.toState (.produce ok now) = some { s.data with
      pool := { added s.data.pool ok now with isShutdown := false } } := by
    rw [hstate]
    simp only [step, ConnectionPool.produceConnectionTask, added]
    rw [if_neg (by simp; omega), if_neg (by simp)]
    split <;> simp [addConnection]
  have hflag := added_isShutdown s.data.pool ok now
  cases hopen : s.data.pool.isShutdown with
  | false =>
      use [.produce ok now]
      rw [run_cons, hproduce, Option.bind_some, run_nil]
      exact congrArg (fun pool => some { s.data with pool := pool }) (isShutdown_eta (hflag.trans hopen))
  | true =>
      use [.produce ok now, .shutdown]
      rw [run_cons, hproduce, Option.bind_some, run_cons, step_shutdown_reset (hflag.trans hopen),
        Option.bind_some, run_nil]

omit [DecidableEq C] in
theorem toState_notifyAll (s : Threads C) :
  s.notifyAll.toState = s.toState
  := by
  rw [toState, toState, notifyAll]
  cases s.producer <;> simp

/-- Every step of the threads is a step of the pool, or two, or none. -/
theorem toState_next (hready : s.Ready) {l : Label C} (hnext : s.next l = some s') :
  ∃ ls, run step s.toState ls = some s'.toState
  := by
  cases l with
  | produce ok now =>
      obtain ⟨phase, hmoves, rfl⟩ | ⟨hphase, rfl⟩ := next_produce hnext
      · use []
        generalize hold : s.producer = old at hmoves
        rw [run_nil, toState, toState]
        cases hmoves with
        | pass hopen => simp [hold, ← hopen]
        | loop hopen => simp [hold]
        | leave hshutdown => simp [hold]
        | lock => simp [hold]
        | test hopen => simp [hold]
        | skip hshutdown => simp [hold]
        | long hlong => simp [hold]
        | short hshort => simp [hold]
        | wait => simp [hold]
        | stop hshutdown => simp [hold]
      · rw [toState_notifyAll]
        apply toState_added hready hphase
  | call consumer =>
      obtain ⟨consumers, rfl⟩ := next_call hnext
      exact ⟨[], rfl⟩
  | getConnection consumer =>
      obtain ⟨hmutex, -, consumers, rfl | ⟨data, hdata, rfl⟩⟩ := next_getConnection hnext
      · exact ⟨[], rfl⟩
      · use [.getConnection consumer]
        rw [toState_notifyAll, toState_of_hasMutex hmutex, toState_of_hasMutex]
        · simp [hdata]
        · apply hmutex
  | timeout consumer =>
      obtain ⟨consumers, rfl⟩ := next_timeout hnext
      exact ⟨[], rfl⟩
  | giveBack consumer id now =>
      obtain ⟨hmutex, data, hdata, rfl⟩ := next_giveBack hnext
      use [.giveBack consumer id now]
      rw [toState_of_hasMutex hmutex, toState_of_hasMutex]
      · simp [hdata]
      · apply hmutex
  | scan now =>
      obtain ⟨hmutex, data, hdata, rfl⟩ := next_scan hnext
      use [.scan now]
      rw [toState_of_hasMutex hmutex, toState_of_hasMutex]
      · simp [hdata]
      · apply hmutex
  | shutdown =>
      obtain ⟨-, rfl⟩ := next_shutdown hnext
      by_cases hphase : s.producer = .producing
      · use []
        simp [toState, hphase]
      · use [.shutdown]
        simp [toState, hphase, step]
  | notify =>
      obtain ⟨-, rfl⟩ := next_notify hnext
      use []
      rw [toState_notifyAll]
      rfl

/-- Every run of the threads is a run of the pool. -/
theorem run_refines {minSize maxSize maxIdleTime : ℕ} {oks : ℕ → Bool} {now : ℕ → ℕ}
    {ls : List (Label C)} (h : run next (start minSize maxSize maxIdleTime oks now) ls = some s) :
  ∃ ls', run step (ConnectionPool.start minSize maxSize maxIdleTime oks now) ls' = some s.toState
  := by
  apply run_simulates toState (fun _ _ _ hs => hs.next) (fun _ _ _ hs => toState_next hs) _ h
  apply Ready.of_hasMutex
  rfl

end Threads

/-! ### The producer asleep -/

theorem Producer.ne_blocking {phase : Producer} (h : phase.hasMutex = false) :
  phase ≠ .blocking
  := by
  rintro rfl
  simp [Producer.hasMutex] at h

theorem step_minSize {C : Type u} [DecidableEq C] {s s' : State C} {l : Step C}
    (h : step s l = some s') :
  s'.pool.minSize = s.pool.minSize
  := by
  cases l with
  | getConnection consumer =>
      obtain ⟨conn, rest, -, rfl⟩ := step_getConnection h
      rfl
  | giveBack consumer id now =>
      obtain ⟨p, -, rfl⟩ := step_giveBack h
      rfl
  | produce ok now =>
      obtain ⟨-, rfl⟩ | ⟨-, rfl⟩ := step_produce h
      · rfl
      · rfl
  | scan now =>
      obtain rfl | ⟨-, deleted, queue, count, -, rfl⟩ := step_scan h
      · rfl
      · rfl
  | shutdown =>
      obtain rfl := step_shutdown h
      rfl

/-- A pool that is shut down stays so. -/
theorem step_isShutdown {C : Type u} [DecidableEq C] {s s' : State C} {l : Step C}
    (h : step s l = some s') (hshutdown : s.pool.isShutdown = true) :
  s'.pool.isShutdown = true
  := by
  cases l with
  | getConnection consumer =>
      obtain ⟨conn, rest, -, rfl⟩ := step_getConnection h
      apply hshutdown
  | giveBack consumer id now =>
      obtain ⟨p, -, rfl⟩ := step_giveBack h
      apply hshutdown
  | produce ok now =>
      obtain ⟨-, rfl⟩ | ⟨-, rfl⟩ := step_produce h
      · apply hshutdown
      · apply hshutdown
  | scan now =>
      obtain rfl | ⟨-, deleted, queue, count, -, rfl⟩ := step_scan h
      · apply hshutdown
      · apply hshutdown
  | shutdown =>
      obtain rfl := step_shutdown h
      rfl

/-- The scanner empties a queue only if it may delete all connections, and all of them are expired. -/
theorem Scans.empties {p : ConnectionPool} {now : ℕ → ℕ} {queue deleted : List Connection}
    {count count' : ℤ} (h : Scans p now queue count deleted [] count') (hne : queue ≠ []) :
  toInt p.minSize ≤ count - queue.length ∧ p.allExpired now queue = true
  := by
  generalize hleft : [] = left at h
  induction h with
  | bound _ => exact absurd hleft.symm hne
  | fresh _ => simp at hleft
  | @delete conn rest deleted left count count' hcount hexpired hrest ih =>
      rw [allExpired, hexpired, Bool.true_and, List.length_cons]
      cases rest with
      | nil =>
          simp only [List.length_nil, allExpired, and_true]
          push_cast
          omega
      | cons conn' rest' =>
          obtain ⟨hleast, hall⟩ := ih (by simp) hleft
          refine ⟨?_, hall⟩
          push_cast at hleast ⊢
          omega

namespace Threads

variable {C : Type u} [DecidableEq C] {s s' : Threads C}

/-- Before the shutdown, a consumer waits for a connection and there is room for one, but the producer is
asleep. -/
structure Starved (s : Threads C) : Prop where
  isOpen : s.data.pool.isShutdown = false
  empty : s.data.pool.connectionQueue = []
  consumer : ∃ consumer, s.consumers consumer = .waiting
  room : s.data.pool.connectionCount < toInt s.data.pool.maxSize
  asleep : s.producer = .waiting

/-- Before the shutdown, and while the producer waits, the scanner finds less than the lower bound checked
out, or a connection in the queue that is not expired. -/
def LeavesOne (s : Threads C) : Label C → Prop
  | .scan now =>
      s.data.pool.isShutdown = false → s.producer = .waiting →
        s.data.pool.connectionCount - s.data.pool.connectionQueue.length < toInt s.data.pool.minSize ∨
          s.data.pool.allExpired now s.data.pool.connectionQueue = false
  | _ => True

instance LeavesOne.decidable (s : Threads C) : ∀ l, Decidable (s.LeavesOne l)
  | .scan now =>
      inferInstanceAs (Decidable (s.data.pool.isShutdown = false → s.producer = .waiting →
        s.data.pool.connectionCount - s.data.pool.connectionQueue.length < toInt s.data.pool.minSize ∨
          s.data.pool.allExpired now s.data.pool.connectionQueue = false))
  | .produce _ _ | .call _ | .getConnection _ | .timeout _ | .giveBack _ _ _ | .shutdown | .notify =>
      inferInstanceAs (Decidable True)

/-- There is a connection in the queue while the producer waits. -/
structure Stocked (s : Threads C) : Prop where
  minSize_pos : 1 ≤ s.data.pool.minSize
  blocking : s.producer = .blocking → s.data.pool.connectionQueue ≠ []
  waiting : s.producer = .waiting → s.data.pool.connectionQueue ≠ []

omit [DecidableEq C] in
/-- The producer does not wait, or does so no more. -/
theorem Stocked.of_awake (hmin : 1 ≤ s.data.pool.minSize) (hblocking : s.producer ≠ .blocking)
    (hwaiting : s.producer ≠ .waiting) :
  s.Stocked
  := ⟨hmin, fun hphase => absurd hphase hblocking, fun hphase => absurd hphase hwaiting⟩

omit [DecidableEq C] in
theorem Stocked.of_queue (hmin : 1 ≤ s.data.pool.minSize)
    (hqueue : s.data.pool.connectionQueue ≠ []) :
  s.Stocked
  := ⟨hmin, fun _ => hqueue, fun _ => hqueue⟩

/-- While the producer waits, the scanner leaves a connection in the queue. -/
theorem Stocked.scan (h : s.Stocked) {now : ℕ → ℕ} (hl : s.LeavesOne (.scan now))
    (hwaiting : s.producer = .waiting) {data : State C} (hdata : step s.data (.scan now) = some data) :
  data.pool.connectionQueue ≠ []
  := by
  have hqueue := h.waiting hwaiting
  obtain rfl | ⟨hopen, deleted, queue, count, hscan, rfl⟩ := step_scan hdata
  · apply hqueue
  · rintro (rfl : queue = [])
    obtain ⟨hcount, hexpired⟩ := (scans_of_scanQueue hscan).empties hqueue
    rcases hl hopen hwaiting with hlt | hnot
    · omega
    · simp [hexpired] at hnot

theorem Stocked.next (h : s.Stocked) {l : Label C} (hl : s.LeavesOne l) (hnext : s.next l = some s') :
  s'.Stocked
  := by
  cases l with
  | produce ok now =>
      obtain ⟨phase, hmoves, rfl⟩ | ⟨-, rfl⟩ := next_produce hnext
      · generalize hold : s.producer = old at hmoves
        refine ⟨h.minSize_pos, ?_, ?_⟩
        · rintro (rfl : phase = .blocking)
          cases hmoves with
          | long hlong =>
              have hpos : 0 < s.data.pool.connectionQueue.length := h.minSize_pos.trans hlong
              apply List.ne_nil_of_length_pos hpos
        · rintro (rfl : phase = .waiting)
          cases hmoves with
          | wait => apply h.blocking hold
      · apply Stocked.of_awake
        · simp only [notifyAll, added_minSize]
          apply h.minSize_pos
        · simp [notifyAll]
        · apply notifyAll_producer_ne
  | call consumer =>
      obtain ⟨consumers, rfl⟩ := next_call hnext
      exact ⟨h.minSize_pos, h.blocking, h.waiting⟩
  | getConnection consumer =>
      obtain ⟨hmutex, -, consumers, rfl | ⟨data, hdata, rfl⟩⟩ := next_getConnection hnext
      · exact ⟨h.minSize_pos, h.blocking, h.waiting⟩
      · apply Stocked.of_awake
        · simp only [notifyAll, step_minSize hdata]
          apply h.minSize_pos
        · apply Producer.ne_blocking
          rw [hasMutex_notifyAll]
          apply hmutex
        · apply notifyAll_producer_ne
  | timeout consumer =>
      obtain ⟨consumers, rfl⟩ := next_timeout hnext
      exact ⟨h.minSize_pos, h.blocking, h.waiting⟩
  | giveBack consumer id now =>
      obtain ⟨-, data, hdata, rfl⟩ := next_giveBack hnext
      apply Stocked.of_queue
      · simp only [step_minSize hdata]
        apply h.minSize_pos
      · obtain ⟨p, -, rfl⟩ := step_giveBack hdata
        simp [giveBack]
  | scan now =>
      obtain ⟨hmutex, data, hdata, rfl⟩ := next_scan hnext
      refine ⟨?_, fun hphase => absurd hphase (Producer.ne_blocking hmutex), ?_⟩
      · simp only [step_minSize hdata]
        apply h.minSize_pos
      · intro hwaiting
        apply h.scan hl hwaiting hdata
  | shutdown =>
      obtain ⟨-, rfl⟩ := next_shutdown hnext
      exact ⟨h.minSize_pos, h.blocking, h.waiting⟩
  | notify =>
      obtain ⟨-, rfl⟩ := next_notify hnext
      refine ⟨h.minSize_pos, ?_, fun hwaiting => absurd hwaiting (notifyAll_producer_ne _)⟩
      intro hphase
      apply h.blocking (producer_of_notifyAll (by simp) hphase)

omit [DecidableEq C] in
theorem start_minSize (minSize maxSize maxIdleTime : ℕ) (oks : ℕ → Bool) (now : ℕ → ℕ) :
  (start minSize maxSize maxIdleTime oks now : Threads C).data.pool.minSize = minSize
  := ((empty minSize maxSize maxIdleTime).addConnections_sizes oks now minSize).1

/-- In every run in which the scanner leaves a connection while the producer waits, no consumer starves. -/
theorem run_not_starved {minSize maxSize maxIdleTime : ℕ} {oks : ℕ → Bool} {now : ℕ → ℕ}
    (hmin : 1 ≤ minSize) {ls : List (Label C)}
    (hguard : Guarded next LeavesOne (start minSize maxSize maxIdleTime oks now) ls)
    (h : run next (start minSize maxSize maxIdleTime oks now) ls = some s) :
  ¬ s.Starved
  := by
  have hstart : (start minSize maxSize maxIdleTime oks now : Threads C).Stocked := by
    apply Stocked.of_awake
    · rw [start_minSize]
      apply hmin
    · simp [start]
    · simp [start]
  have hstocked : s.Stocked :=
    run_guarded_invariant (fun _ _ _ hs hl hnext => hs.next hl hnext) hstart hguard h
  intro hstarved
  apply hstocked.waiting hstarved.asleep hstarved.empty

/-- A number of steps of the producer, with a database that answers. -/
def producing (n : ℕ) : List (Label Bool) := List.replicate n (.produce true 0)

/-- One consumer has taken the first connection, the producer has added another and waits. -/
def oneOut : List (Label Bool) := [.call false, .getConnection false] ++ producing 11

theorem run_not_starved_oneOut :
  ∃ s, run next (start 1 3 5 (fun _ => true) fun _ => 0)
      (oneOut ++ [.scan fun _ => 0, .call true, .getConnection true]) = some s ∧
    s.data.held.map (fun p => (p.1, p.2.id)) = [(true, 1), (false, 0)] ∧ ¬ s.Starved
  := by
  have hguard : Guarded next LeavesOne (start 1 3 5 (fun _ => true) fun _ => 0)
      (oneOut ++ [.scan fun _ => 0, .call true, .getConnection true]) := by decide
  have hrun : (run next (start 1 3 5 (fun _ => true) fun _ => 0)
      (oneOut ++ [.scan fun _ => 0, .call true, .getConnection true])).map
        (fun s => s.data.held.map fun p => (p.1, p.2.id))
      = some [(true, 1), (false, 0)] := by decide
  obtain ⟨s, hs, hheld⟩ := Option.map_eq_some_iff.mp hrun
  exact ⟨s, hs, hheld, run_not_starved le_rfl hguard hs⟩

/-- The scanner deletes the connection in the queue, and the next consumer waits. -/
theorem starved :
  ∃ s, run next (start 1 3 5 (fun _ => true) fun _ => 0)
      (oneOut ++ [.scan fun _ => 9000000, .call true, .getConnection true]) = some s ∧ s.Starved
  := by
  have hrun : (run next (start 1 3 5 (fun _ => true) fun _ => 0)
      (oneOut ++ [.scan fun _ => 9000000, .call true, .getConnection true])).map
        (fun s => (s.data.pool.isShutdown, s.data.pool.connectionQueue, s.consumers true,
          decide (s.data.pool.connectionCount < toInt s.data.pool.maxSize), s.producer))
      = some (false, [], Consumer.waiting, true, Producer.waiting) := by decide
  obtain ⟨s, hs, hfields⟩ := Option.map_eq_some_iff.mp hrun
  simp only [Prod.mk.injEq, decide_eq_true_eq] at hfields
  obtain ⟨hopen, hqueue, hconsumer, hroom, hproducer⟩ := hfields
  exact ⟨s, hs, hopen, hqueue, ⟨true, hconsumer⟩, hroom, hproducer⟩

/-! ### The shutdown -/

/-- The destructor has notified, and the producer waits and will not be woken. -/
structure Hung (s : Threads C) : Prop where
  shutdown : s.data.pool.isShutdown = true
  notified : s.destructor = .joining
  waiting : s.producer = .waiting
  asleep : ∀ ls s', run next s ls = some s' → s'.producer = .waiting

/-- When the destructor notifies, the producer is not on its way from the test of `m_isShutdown` into the
wait. -/
def NotifiesInTime (s : Threads C) : Label C → Prop
  | .notify =>
      s.producer ≠ .blocking ∧
        (s.producer = .measuring → s.data.pool.connectionQueue.length < s.data.pool.minSize)
  | _ => True

instance NotifiesInTime.decidable (s : Threads C) : ∀ l, Decidable (s.NotifiesInTime l)
  | .notify =>
      inferInstanceAs (Decidable (s.producer ≠ .blocking ∧
        (s.producer = .measuring → s.data.pool.connectionQueue.length < s.data.pool.minSize)))
  | .produce _ _ | .call _ | .getConnection _ | .timeout _ | .giveBack _ _ _ | .scan _ | .shutdown =>
      inferInstanceAs (Decidable True)

/-- Once the destructor has notified, the producer does not wait, and is not on its way there. -/
structure Roused (s : Threads C) : Prop where
  shutdown : s.destructor ≠ .alive → s.data.pool.isShutdown = true
  waiting : s.destructor = .joining → s.producer ≠ .waiting
  blocking : s.destructor = .joining → s.producer ≠ .blocking
  measuring : s.destructor = .joining → s.producer = .measuring →
    s.data.pool.connectionQueue.length < s.data.pool.minSize

/-- A step of the others, who leave the producer without the mutex. -/
theorem Roused.of_step (h : s.Roused) (hmutex : s.producer.hasMutex = false) {data : State C}
    {l : Step C} (hdata : step s.data l = some data) (consumers : C → Consumer) :
  Roused { s with data := data, consumers := consumers }
  := by
  refine ⟨?_, h.waiting, h.blocking, ?_⟩
  · intro halive
    apply step_isShutdown hdata (h.shutdown halive)
  · rintro - (hphase : s.producer = .measuring)
    simp [hphase, Producer.hasMutex] at hmutex

omit [DecidableEq C] in
theorem Roused.notifyAll (h : s.Roused) :
  s.notifyAll.Roused
  := by
  refine ⟨h.shutdown, fun _ => notifyAll_producer_ne s, ?_, ?_⟩
  · intro hjoining hphase
    apply h.blocking hjoining (producer_of_notifyAll (by simp) hphase)
  · intro hjoining hphase
    apply h.measuring hjoining (producer_of_notifyAll (by simp) hphase)

theorem Roused.next (h : s.Roused) {l : Label C} (hl : s.NotifiesInTime l)
    (hnext : s.next l = some s') :
  s'.Roused
  := by
  cases l with
  | produce ok now =>
      obtain ⟨phase, hmoves, rfl⟩ | ⟨-, rfl⟩ := next_produce hnext
      · generalize hold : s.producer = old at hmoves
        refine ⟨h.shutdown, ?_, ?_, ?_⟩
        · rintro hjoining (rfl : phase = .waiting)
          cases hmoves with
          | wait => apply h.blocking hjoining hold
        · rintro hjoining (rfl : phase = .blocking)
          cases hmoves with
          | long hlong =>
              have hshort := h.measuring hjoining hold
              omega
        · rintro (hjoining : s.destructor = .joining) (rfl : phase = .measuring)
          cases hmoves with
          | test hopen =>
              have hshutdown := h.shutdown (by simp [hjoining])
              simp [hopen] at hshutdown
      · apply Roused.notifyAll
        refine ⟨?_, by simp, by simp, by simp⟩
        intro halive
        rw [added_isShutdown]
        apply h.shutdown halive
  | call consumer =>
      obtain ⟨consumers, rfl⟩ := next_call hnext
      exact ⟨h.shutdown, h.waiting, h.blocking, h.measuring⟩
  | getConnection consumer =>
      obtain ⟨hmutex, -, consumers, rfl | ⟨data, hdata, rfl⟩⟩ := next_getConnection hnext
      · exact ⟨h.shutdown, h.waiting, h.blocking, h.measuring⟩
      · apply Roused.notifyAll
        apply h.of_step hmutex hdata
  | timeout consumer =>
      obtain ⟨consumers, rfl⟩ := next_timeout hnext
      exact ⟨h.shutdown, h.waiting, h.blocking, h.measuring⟩
  | giveBack consumer id now =>
      obtain ⟨hmutex, data, hdata, rfl⟩ := next_giveBack hnext
      apply h.of_step hmutex hdata
  | scan now =>
      obtain ⟨hmutex, data, hdata, rfl⟩ := next_scan hnext
      apply h.of_step hmutex hdata
  | shutdown =>
      obtain ⟨-, rfl⟩ := next_shutdown hnext
      exact ⟨fun _ => rfl, by simp, by simp, by simp⟩
  | notify =>
      obtain ⟨hnotifying, rfl⟩ := next_notify hnext
      obtain ⟨hblocking, hmeasuring⟩ := hl
      refine ⟨?_, fun _ => notifyAll_producer_ne _, ?_, ?_⟩
      · intro _
        apply h.shutdown (by simp [hnotifying])
      · intro _ hphase
        apply hblocking (producer_of_notifyAll (by simp) hphase)
      · intro _ hphase
        apply hmeasuring (producer_of_notifyAll (by simp) hphase)

/-- In every run in which the destructor does not notify while the producer is on its way into the wait,
the producer does not wait once the destructor has notified. -/
theorem run_not_hung {minSize maxSize maxIdleTime : ℕ} {oks : ℕ → Bool} {now : ℕ → ℕ}
    {ls : List (Label C)}
    (hguard : Guarded next NotifiesInTime (start minSize maxSize maxIdleTime oks now) ls)
    (h : run next (start minSize maxSize maxIdleTime oks now) ls = some s) :
  ¬ (s.data.pool.isShutdown = true ∧ s.destructor = .joining ∧ s.producer = .waiting) ∧ ¬ s.Hung
  := by
  have hstart : (start minSize maxSize maxIdleTime oks now : Threads C).Roused :=
    ⟨by simp [start], by simp [start], by simp [start], by simp [start]⟩
  have hroused : s.Roused :=
    run_guarded_invariant (fun _ _ _ hs hl hnext => hs.next hl hnext) hstart hguard h
  constructor
  · rintro ⟨-, hjoining, hwaiting⟩
    apply hroused.waiting hjoining hwaiting
  · intro hhung
    apply hroused.waiting hhung.notified hhung.waiting

/-- The destructor finds the producer asleep, which then ends. -/
theorem run_not_hung_asleep :
  ∃ s, run next (start 1 3 5 (fun _ => true) fun _ => 0)
      (producing 5 ++ [.shutdown, .notify] ++ producing 3) = some s ∧
    s.producer = .ended ∧
    ¬ (s.data.pool.isShutdown = true ∧ s.destructor = .joining ∧ s.producer = .waiting) ∧ ¬ s.Hung
  := by
  have hguard : Guarded next NotifiesInTime (start 1 3 5 (fun _ => true) fun _ => 0)
      (producing 5 ++ [.shutdown, .notify] ++ producing 3) := by decide
  have hrun : (run next (start 1 3 5 (fun _ => true) fun _ => 0)
      (producing 5 ++ [.shutdown, .notify] ++ producing 3)).map Threads.producer
      = some .ended := by decide
  obtain ⟨s, hs, hended⟩ := Option.map_eq_some_iff.mp hrun
  exact ⟨s, hs, hended, run_not_hung hguard hs⟩

/-- The pool is being destroyed, no consumer uses it, and the producer waits. -/
structure Abandoned (s : Threads C) : Prop where
  joining : s.destructor = .joining
  outside : ∀ consumer, s.consumers consumer = .outside
  waiting : s.producer = .waiting

/-- Nobody wakes the producer then. -/
theorem Abandoned.next (h : s.Abandoned) {l : Label C} (hnext : s.next l = some s') :
  s'.Abandoned
  := by
  cases l with
  | produce ok now => simp [Threads.next, produceConnectionTask, h.waiting] at hnext
  | call consumer => simp [Threads.next, h.joining] at hnext
  | getConnection consumer => simp [Threads.next, h.outside] at hnext
  | timeout consumer => simp [Threads.next, h.outside] at hnext
  | giveBack consumer id now =>
      obtain ⟨-, data, -, rfl⟩ := next_giveBack hnext
      exact ⟨h.joining, h.outside, h.waiting⟩
  | scan now =>
      obtain ⟨-, data, -, rfl⟩ := next_scan hnext
      exact ⟨h.joining, h.outside, h.waiting⟩
  | shutdown => simp [Threads.next, h.joining] at hnext
  | notify => simp [Threads.next, h.joining] at hnext

/-- The producer has tested `m_isShutdown` when the destructor sets it and notifies, and then waits. -/
theorem hung :
  ∃ s, run next (start 1 3 5 (fun _ => true) fun _ => 0)
      (producing 4 ++ [.shutdown, .notify] ++ producing 1) = some s ∧ s.Hung
  := by
  have hrun : (run next (start 1 3 5 (fun _ => true) fun _ => 0)
      (producing 4 ++ [.shutdown, .notify] ++ producing 1)).map
        (fun s => (s.data.pool.isShutdown, s.destructor, s.consumers true, s.consumers false,
          s.producer))
      = some (true, Destructor.joining, Consumer.outside, Consumer.outside, Producer.waiting) := by
    decide
  obtain ⟨s, hs, hfields⟩ := Option.map_eq_some_iff.mp hrun
  simp only [Prod.mk.injEq] at hfields
  obtain ⟨hshutdown, hjoining, htrue, hfalse, hwaiting⟩ := hfields
  have habandoned : s.Abandoned := by
    refine ⟨hjoining, ?_, hwaiting⟩
    intro consumer
    cases consumer with
    | true => apply htrue
    | false => apply hfalse
  refine ⟨s, hs, hshutdown, hjoining, hwaiting, ?_⟩
  intro ls s' hrun'
  exact (run_invariant (fun _ _ _ hs => hs.next) habandoned hrun').waiting

end Threads

end ConnectionPool

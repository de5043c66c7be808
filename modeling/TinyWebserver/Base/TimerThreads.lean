import TinyWebserver.Base.TimerRuns

/-!
# Threads that collect expired timers

`listExpiredCb` reads the clock before it takes the lock, so a thread may come to the locked section
with a time that lies before the one of the thread that was there last. `detectClockRollover` allows
for an hour of that, but subtracts the hour in unsigned arithmetic: within the first hour of the clock
every step back is taken for a rollover, and all timers fire. `run_onTime_iff` says exactly which runs
return only callbacks that are due.
-/

universe u v

namespace TimerManager

open OrderedSet Transition

variable {Cb : Type u}

/-! ### One call -/

/-- A call returns the callbacks of timers that are due, or, after a rollover, those of all. -/
theorem listExpiredCb_expires {m : TimerManager Cb} (now probe : ℕ)
    (hlt : m.previouseTime < uint64Size) :
  ∃ left, m.Expires now ((m.listExpiredCb now probe).1.map Prod.fst) left
  := by
  obtain ⟨t, expired, left, -, -, hexpires, heq⟩ := m.listExpiredCb_eq now probe
  rw [heq, map_fst_fireAll]
  exact ⟨left, hexpires hlt⟩

/-! ### Threads -/

/-- What a call has returned: the callback of a timer with this deadline, where the call has read
this time. -/
structure Expiry where
  next : ℕ
  now : ℕ
deriving DecidableEq

/-- The manager, the clock, the time each thread has read that is in a call of `listExpiredCb`, and
what the calls have returned. -/
structure Threads (ι : Type v) (Cb : Type u) where
  manager : TimerManager Cb
  clock : ℕ
  sampled : ι → Option ℕ
  log : List Expiry

namespace Threads

variable {ι : Type v} [DecidableEq ι]

/-- A step: the clock goes on, or a thread reads it, leaves its call since it has seen no timers
under the read lock, or goes through the section under the write lock; or another call is made, under
the lock. -/
inductive Step (ι : Type v) (Cb : Type u) where
  | tick (ms : ℕ)
  | sample (i : ι)
  | leave (i : ι)
  | collect (i : ι) (probe : ℕ)
  | call (op : Op Cb)

/-- What the section under the write lock returns, to a thread that has read the time `now`. -/
def returned (m : TimerManager Cb) (now probe : ℕ) : List Expiry :=
  (m.listExpiredCb now probe).1.map fun p => ⟨(m.timer p.1).next, now⟩

/-- One step. -/
def step (s : Threads ι Cb) : Step ι Cb → Option (Threads ι Cb)
  | .tick ms =>
      if s.clock + ms < uint64Size then some { s with clock := s.clock + ms } else none
  | .sample i =>
      match s.sampled i with
      | none => some { s with sampled := Function.update s.sampled i (some s.clock) }
      | some _ => none
  | .leave i =>
      match s.sampled i with
      | none => none
      | some _ =>
          if s.manager.timers.isEmpty then
            some { s with sampled := Function.update s.sampled i none }
          else none
  | .collect i probe =>
      match s.sampled i with
      | none => none
      | some now =>
          some { s with
            manager := (s.manager.listExpiredCb now probe).2
            sampled := Function.update s.sampled i none
            log := s.log ++ returned s.manager now probe }
  | .call op =>
      if op.isListExpiredCb then none
      else (State.step ⟨s.manager, []⟩ op).map fun t => { s with manager := t.manager }

/-- The times that the threads and the manager hold are in the past, and of type `uint64_t`. -/
structure Timed (s : Threads ι Cb) : Prop where
  clock_lt : s.clock < uint64Size
  previouse_le : s.manager.previouseTime ≤ s.clock
  sampled_le : ∀ i now, s.sampled i = some now → now ≤ s.clock

/-- The step is no section under the write lock whose time is taken for one after a rollover while a
timer is pending that is not due by that time. -/
def OnTime (s : Threads ι Cb) : Step ι Cb → Prop
  | .collect i _ => ∀ now ∈ s.sampled i, s.manager.RolledOver now →
      ∀ h ∈ s.manager.timers, (s.manager.timer h).next ≤ now
  | _ => True

/-- Only callbacks that were due have been returned. -/
def AllDue (s : Threads ι Cb) : Prop := ∀ e ∈ s.log, e.next ≤ e.now

/-! ### The times -/

variable {s s' : Threads ι Cb}

theorem step_tick {ms : ℕ} (h : s.step (.tick ms) = some s') :
  s.clock + ms < uint64Size ∧ s' = { s with clock := s.clock + ms }
  := by
  rw [step] at h
  split at h
  · rename_i hlt
    exact ⟨hlt, (Option.some.inj h).symm⟩
  · simp at h

theorem step_sample {i : ι} (h : s.step (.sample i) = some s') :
  s' = { s with sampled := Function.update s.sampled i (some s.clock) }
  := by
  rw [step] at h
  split at h
  · exact (Option.some.inj h).symm
  · simp at h

theorem step_leave {i : ι} (h : s.step (.leave i) = some s') :
  s' = { s with sampled := Function.update s.sampled i none }
  := by
  rw [step] at h
  split at h
  · simp at h
  · split at h
    · exact (Option.some.inj h).symm
    · simp at h

theorem step_collect {i : ι} {probe : ℕ} (h : s.step (.collect i probe) = some s') :
  ∃ now, s.sampled i = some now ∧
    s' = { s with
      manager := (s.manager.listExpiredCb now probe).2
      sampled := Function.update s.sampled i none
      log := s.log ++ returned s.manager now probe }
  := by
  rw [step] at h
  split at h
  · simp at h
  · rename_i now hnow
    exact ⟨now, hnow, (Option.some.inj h).symm⟩

theorem step_call {op : Op Cb} (h : s.step (.call op) = some s') :
  ∃ m, m.previouseTime = s.manager.previouseTime ∧ s' = { s with manager := m }
  := by
  rw [step] at h
  split at h
  · simp at h
  · rename_i hop
    obtain ⟨t, ht, rfl⟩ := Option.map_eq_some_iff.mp h
    exact ⟨t.manager, step_previouseTime ht hop, rfl⟩

/-- A thread that reads the clock, or leaves its call, holds a time in the past, or none. -/
theorem Timed.update (h : s.Timed) (i : ι) {o : Option ℕ} (ho : ∀ now, o = some now → now ≤ s.clock) :
  ∀ j now, Function.update s.sampled i o j = some now → now ≤ s.clock
  := by
  intro j now hj
  by_cases hji : j = i
  · rw [hji, Function.update_self] at hj
    apply ho now hj
  · rw [Function.update_of_ne hji] at hj
    apply h.sampled_le j now hj

theorem Timed.step (h : s.Timed) {l : Step ι Cb} (hstep : s.step l = some s') :
  s'.Timed
  := by
  cases l with
  | tick ms =>
      obtain ⟨hlt, rfl⟩ := step_tick hstep
      refine ⟨hlt, h.previouse_le.trans (Nat.le_add_right _ _), ?_⟩
      intro i now hnow
      exact (h.sampled_le i now hnow).trans (Nat.le_add_right _ _)
  | sample i =>
      obtain rfl := step_sample hstep
      refine ⟨h.clock_lt, h.previouse_le, h.update i ?_⟩
      rintro now ⟨⟩
      exact le_rfl
  | leave i =>
      obtain rfl := step_leave hstep
      refine ⟨h.clock_lt, h.previouse_le, h.update i ?_⟩
      simp
  | collect i probe =>
      obtain ⟨now, hnow, rfl⟩ := step_collect hstep
      refine ⟨h.clock_lt, ?_, h.update i (by simp)⟩
      dsimp only
      cases s.manager.listExpiredCb_previouseTime now probe with
      | inl hsame =>
          rw [hsame]
          apply h.previouse_le
      | inr hnew =>
          rw [hnew]
          apply h.sampled_le i now hnow
  | call op =>
      obtain ⟨m, hm, rfl⟩ := step_call hstep
      exact ⟨h.clock_lt, hm.trans_le h.previouse_le, h.sampled_le⟩

/-! ### What is returned -/

/-- All that a section under the write lock returns is due exactly if its time is not taken for one
after a rollover, or all timers are due. -/
theorem returned_due_iff {m : TimerManager Cb} (now probe : ℕ)
    (hlt : m.previouseTime < uint64Size) :
  (∀ e ∈ returned m now probe, e.next ≤ e.now) ↔
    (m.RolledOver now → ∀ h ∈ m.timers, (m.timer h).next ≤ now)
  := by
  have hmap : (∀ e ∈ returned m now probe, e.next ≤ e.now) ↔
      ∀ h ∈ (m.listExpiredCb now probe).1.map Prod.fst, (m.timer h).next ≤ now := by
    simp only [returned, List.forall_mem_map]
  rw [hmap]
  obtain ⟨left, hexpires⟩ := listExpiredCb_expires now probe hlt
  constructor
  · intro hdue hover h hmem
    apply hdue
    simpa [hexpires.split, hexpires.all hover] using hmem
  · intro hall h hmem
    by_cases hover : m.RolledOver now
    · apply hall hover
      rw [hexpires.split]
      exact List.mem_append_left _ hmem
    · apply hexpires.due hover h hmem

theorem step_allDue_iff (h : s.Timed) {l : Step ι Cb} (hstep : s.step l = some s') :
  s'.AllDue ↔ s.AllDue ∧ s.OnTime l
  := by
  cases l with
  | tick ms =>
      obtain ⟨-, rfl⟩ := step_tick hstep
      simp [AllDue, OnTime]
  | sample i =>
      obtain rfl := step_sample hstep
      simp [AllDue, OnTime]
  | leave i =>
      obtain rfl := step_leave hstep
      simp [AllDue, OnTime]
  | collect i probe =>
      obtain ⟨now, hnow, rfl⟩ := step_collect hstep
      have hdue := returned_due_iff now probe (h.previouse_le.trans_lt h.clock_lt)
      simp only [AllDue, OnTime, hnow, Option.mem_some_iff, forall_eq', List.forall_mem_append, hdue]
  | call op =>
      obtain ⟨m, -, rfl⟩ := step_call hstep
      simp [AllDue, OnTime]

/-- However the threads are interleaved, from any time `m_previouseTime` that is not larger than the
clock, the calls of a run return only callbacks that are due by the times they have read, exactly if
no section under the write lock is entered with a time that is taken for one after a rollover while a
timer is pending that is not due by that time. -/
theorem run_onTime_iff {m : TimerManager Cb} {clock : ℕ} (hclock : clock < uint64Size)
    (hm : m.previouseTime ≤ clock) {ls : List (Step ι Cb)}
    (h : run step ⟨m, clock, fun _ => none, []⟩ ls = some s) :
  (∀ e ∈ s.log, e.next ≤ e.now) ↔ Guarded step OnTime ⟨m, clock, fun _ => none, []⟩ ls
  := by
  have hstart : Timed (⟨m, clock, fun _ => none, []⟩ : Threads ι Cb) := ⟨hclock, hm, by simp⟩
  have hiff := run_guarded_iff (P := AllDue) (fun _ _ _ hs => hs.step)
    (fun _ _ _ hs => step_allDue_iff hs) hstart h
  have hnone : AllDue (⟨m, clock, fun _ => none, []⟩ : Threads ι Cb) := by simp [AllDue]
  simpa [hnone, AllDue] using hiff

/-- A manager made 5 milliseconds after the start of the clock, with one timer, for the time 1000. -/
def youngManager : TimerManager Unit := (new 5).addTimer 995 () false 5 0

/-- Two threads, one after the other. -/
def oneByOne : List (Step Bool Unit) :=
  [.sample false, .collect false 1, .tick 995, .sample true, .collect true 1]

theorem run_onTime_oneByOne :
  ∃ s, run step ⟨youngManager, 5, fun _ => none, []⟩ oneByOne = some s ∧ s.log = [⟨1000, 1000⟩] ∧
    ((∀ e ∈ s.log, e.next ≤ e.now) ↔
      Guarded step OnTime ⟨youngManager, 5, fun _ => none, []⟩ oneByOne)
  := ⟨_, rfl, by decide, run_onTime_iff (by decide) (by decide) rfl⟩

/-- A second thread reads the clock one millisecond after the first one, but comes to the lock before
it. -/
def overtaken : List (Step Bool Unit) :=
  [.sample false, .tick 1, .sample true, .collect true 1, .collect false 1]

/-- The first thread, with the time 5, returns the callback of the timer for the time 1000. -/
theorem overtaken_not_due :
  youngManager.previouseTime ≤ 5 ∧
    ∃ s, run step ⟨youngManager, 5, fun _ => none, []⟩ overtaken = some s ∧
      ⟨1000, 5⟩ ∈ s.log ∧ ¬ ∀ e ∈ s.log, e.next ≤ e.now
  := ⟨by decide, _, rfl, by decide, by decide⟩

end Threads

end TimerManager

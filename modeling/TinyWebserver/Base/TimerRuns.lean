import TinyWebserver.Base.TimerInvariant
import TinyWebserver.Lib.Transition

/-!
# Runs of the timer manager

A run is a list of calls, each taken as one step, together with the log of what it has shown to
the callers: the timers whose callbacks `listExpiredCb` returned, and the calls of `cancel` that
returned true. `LogInv` is the invariant of the log.
-/

universe u

namespace TimerManager

open OrderedSet Transition

variable {Cb : Type u}

/-- A call, with its arguments, the value of the clock it reads, and the address of the timer it
allocates. The callback of a new timer may be null. -/
inductive Op (Cb : Type u) where
  | addTimer (ms : ℕ) (cb : Option Cb) (recurring : Bool) (now addr : ℕ)
  | cancel (h : ℕ)
  | refresh (h now : ℕ)
  | reset (h ms : ℕ) (fromNow : Bool) (now : ℕ)
  | listExpiredCb (now probe : ℕ)
  | getNextTimer (now : ℕ)

/-- What a call shows: the callback of a timer was returned, or a timer was cancelled. -/
inductive Event where
  | returned (h : ℕ)
  | cancelled (h : ℕ)
deriving DecidableEq

/-- The timer of an event. -/
def Event.timer : Event → ℕ
  | .returned h => h
  | .cancelled h => h

/-- A manager and the log of its run. -/
structure State (Cb : Type u) where
  manager : TimerManager Cb
  log : List Event

/-- One call. -/
def State.step (s : State Cb) : Op Cb → Option (State Cb)
  | .addTimer ms cb recurring now addr =>
      some ⟨s.manager.addTimerOf ms cb recurring now addr, s.log⟩
  | .cancel h =>
      (s.manager.cancel h).map fun (r, m) =>
        ⟨m, s.log ++ if r then [.cancelled h] else []⟩
  | .refresh h now => some ⟨(s.manager.refresh h now).2, s.log⟩
  | .reset h ms fromNow now => some ⟨(s.manager.reset h ms fromNow now).2, s.log⟩
  | .listExpiredCb now probe =>
      let (cbs, m) := s.manager.listExpiredCb now probe
      some ⟨m, s.log ++ cbs.map fun p => .returned p.1⟩
  | .getNextTimer now => some ⟨(s.manager.getNextTimer now).2, s.log⟩

/-- The call is one of `listExpiredCb`. -/
def Op.isListExpiredCb : Op Cb → Bool
  | .listExpiredCb _ _ => true
  | _ => false

/-- Handles are those of timers that exist, and a new timer has a callback and is allocated where no
pending timer is. -/
def Op.Legal (m : TimerManager Cb) : Op Cb → Prop
  | .addTimer _ cb _ _ addr => cb.isSome ∧ ∀ a ∈ m.timers, (m.timer a).addr ≠ addr
  | .cancel h => h < m.count
  | .refresh h _ => h < m.count
  | .reset h _ _ _ => h < m.count
  | .listExpiredCb _ _ => True
  | .getNextTimer _ => True

instance Op.Legal.decidable (m : TimerManager Cb) : ∀ op : Op Cb, Decidable (op.Legal m)
  | .addTimer _ cb _ _ addr =>
      inferInstanceAs (Decidable (cb.isSome ∧ ∀ a ∈ m.timers, (m.timer a).addr ≠ addr))
  | .cancel h => inferInstanceAs (Decidable (h < m.count))
  | .refresh h _ => inferInstanceAs (Decidable (h < m.count))
  | .reset h _ _ _ => inferInstanceAs (Decidable (h < m.count))
  | .listExpiredCb _ _ => inferInstanceAs (Decidable True)
  | .getNextTimer _ => inferInstanceAs (Decidable True)

/-- No call but `listExpiredCb` changes `m_previouseTime`. -/
theorem step_previouseTime {s s' : State Cb} {op : Op Cb} (h : s.step op = some s')
    (hop : ¬ op.isListExpiredCb) :
  s'.manager.previouseTime = s.manager.previouseTime
  := by
  cases op with
  | addTimer ms cb recurring now addr =>
      obtain rfl := Option.some.inj h
      rfl
  | cancel a =>
      obtain ⟨⟨r, m⟩, hcancel, rfl⟩ := Option.map_eq_some_iff.mp h
      rw [cancel] at hcancel
      split at hcancel
      · dsimp only at hcancel
        split at hcancel
        · simp at hcancel
        · obtain ⟨-, rfl⟩ := Prod.mk.inj (Option.some.inj hcancel)
          rfl
      · obtain ⟨-, rfl⟩ := Prod.mk.inj (Option.some.inj hcancel)
        rfl
  | refresh a now =>
      obtain rfl := Option.some.inj h
      simp only [refresh]
      split
      · rfl
      · split <;> rfl
  | reset a ms fromNow now =>
      obtain rfl := Option.some.inj h
      simp only [reset]
      split
      · rfl
      · split
        · rfl
        · split <;> rfl
  | listExpiredCb now probe => exact absurd rfl hop
  | getNextTimer now =>
      obtain rfl := Option.some.inj h
      simp only [getNextTimer]
      split <;> rfl

/-- The events are about timers of the manager, a timer that was cancelled, or that is not
recurring and whose callback was returned, has no callback, a callback of a timer that is not
recurring was returned at most once, and none after the timer was cancelled. -/
structure LogInv (m : TimerManager Cb) (log : List Event) : Prop where
  known : ∀ e ∈ log, e.timer < m.count
  cancelled_dead : ∀ h, .cancelled h ∈ log → (m.timer h).cb = none
  returned_dead : ∀ h, .returned h ∈ log → (m.timer h).recurring = false → (m.timer h).cb = none
  once : ∀ h, (m.timer h).recurring = false → log.count (.returned h) ≤ 1
  ordered : log.Pairwise fun e e' => ∀ h, e = .cancelled h → e' ≠ .returned h

/-- A call that adds nothing to the log. -/
theorem LogInv.keep {m m' : TimerManager Cb} {log : List Event} (h : LogInv m log)
    (hkeeps : Keeps m m') :
  LogInv m' log
  := by
  constructor
  · intro e he
    apply (h.known e he).trans_le hkeeps.count_le
  · intro a ha
    apply hkeeps.cb_none a (h.known _ ha) (h.cancelled_dead a ha)
  · intro a ha hrec
    rw [hkeeps.recurring_eq a (h.known _ ha)] at hrec
    apply hkeeps.cb_none a (h.known _ ha) (h.returned_dead a ha hrec)
  · intro a hrec
    by_cases ha : Event.returned a ∈ log
    · rw [hkeeps.recurring_eq a (h.known _ ha)] at hrec
      apply h.once a hrec
    · rw [List.count_eq_zero.mpr ha]
      apply Nat.zero_le
  · apply h.ordered

/-- A timer that is pending at a call, and has no callback after it, is cancelled by it. -/
theorem LogInv.cancel {m : TimerManager Cb} {log : List Event} (h : LogInv m log) {a : ℕ}
    (ha : a < m.count) (hdead : (m.timer a).cb = none) :
  LogInv m (log ++ [.cancelled a])
  := by
  constructor
  · intro e he
    rcases List.mem_append.mp he with he | he
    · apply h.known e he
    · simp only [List.mem_singleton] at he
      simpa [he, Event.timer] using ha
  · intro b hb
    rcases List.mem_append.mp hb with hb | hb
    · apply h.cancelled_dead b hb
    · simp only [List.mem_singleton, Event.cancelled.injEq] at hb
      simpa [hb] using hdead
  · intro b hb
    apply h.returned_dead b
    simpa using hb
  · intro b hrec
    simpa using h.once b hrec
  · rw [List.pairwise_append]
    refine ⟨h.ordered, List.pairwise_singleton _ _, ?_⟩
    intro e _ e' he'
    simp only [List.mem_singleton] at he'
    simp [he']

/-- Callbacks of different timers that had one are returned, and the timers that are not recurring
lose them. -/
theorem LogInv.return {m m' : TimerManager Cb} {log : List Event} (h : LogInv m log)
    (hkeeps : Keeps m m') {expired : List ℕ} (hnodup : expired.Nodup)
    (hcb : ∀ a ∈ expired, (m.timer a).cb.isSome) (hlt : ∀ a ∈ expired, a < m.count)
    (hdead : ∀ a ∈ expired, (m.timer a).recurring = false → (m'.timer a).cb = none) :
  LogInv m' (log ++ expired.map .returned)
  := by
  have h' := h.keep hkeeps
  constructor
  · intro e he
    rcases List.mem_append.mp he with he | he
    · apply h'.known e he
    · obtain ⟨a, ha, rfl⟩ := List.mem_map.mp he
      apply (hlt a ha).trans_le hkeeps.count_le
  · intro a ha
    apply h'.cancelled_dead a
    simpa using ha
  · intro a ha hrec
    rcases List.mem_append.mp ha with ha | ha
    · apply h'.returned_dead a ha hrec
    · simp only [List.mem_map, Event.returned.injEq, exists_eq_right] at ha
      rw [hkeeps.recurring_eq a (hlt a ha)] at hrec
      apply hdead a ha hrec
  · intro a hrec
    have hcount : (expired.map Event.returned).count (.returned a) = expired.count a :=
      List.count_map_of_injective _ _ (fun _ _ heq => by simpa using heq) a
    rw [List.count_append, hcount]
    by_cases ha : a ∈ expired
    · rw [hkeeps.recurring_eq a (hlt a ha)] at hrec
      have hnew : Event.returned a ∉ log := by
        intro hmem
        have hnone := h.returned_dead a hmem hrec
        have hsome := hcb a ha
        simp [hnone] at hsome
      rw [List.count_eq_zero.mpr hnew, List.count_eq_one_of_mem hnodup ha]
    · rw [List.count_eq_zero.mpr ha]
      apply h'.once a hrec
  · rw [List.pairwise_append]
    refine ⟨h.ordered, ?_, ?_⟩
    · rw [List.pairwise_map]
      apply hnodup.imp
      simp
    · rintro e he e' he' a rfl rfl
      simp only [List.mem_map, Event.returned.injEq, exists_eq_right] at he'
      have hnone := h.cancelled_dead a he
      have hsome := hcb a he'
      simp [hnone] at hsome

/-- The invariant of the manager and the invariant of the log. -/
structure State.Inv (s : State Cb) : Prop where
  manager : s.manager.Inv []
  log : LogInv s.manager s.log

theorem State.new_inv (now : ℕ) :
  State.Inv (⟨new now, []⟩ : State Cb)
  := by
  use TimerManager.new_inv now
  constructor <;> simp [new]

/-- A legal call succeeds and keeps the invariants. -/
theorem State.Inv.step {s : State Cb} (h : s.Inv) {op : Op Cb} (hop : op.Legal s.manager) :
  ∃ s', s.step op = some s' ∧ s'.Inv
  := by
  cases op with
  | addTimer ms cb recurring now addr =>
      obtain ⟨hsome, haddr⟩ := hop
      obtain ⟨cb, rfl⟩ := Option.isSome_iff_exists.mp hsome
      obtain ⟨hInv, hkeeps⟩ := h.manager.addTimer ms cb recurring now haddr
      rw [State.step, addTimerOf_some]
      exact ⟨_, rfl, hInv, h.log.keep hkeeps⟩
  | cancel a =>
      obtain ⟨r, m', hcancel, hInv, hkeeps, hdead⟩ := h.manager.cancel a
      refine ⟨⟨m', s.log ++ if r then [.cancelled a] else []⟩, by simp [State.step, hcancel], hInv,
        ?_⟩
      cases r with
      | false => simpa using h.log.keep hkeeps
      | true =>
          apply (h.log.keep hkeeps).cancel
          · apply lt_of_lt_of_le hop hkeeps.count_le
          · apply hdead rfl
  | refresh a now =>
      obtain ⟨hInv, hkeeps⟩ := h.manager.refresh a now
      exact ⟨_, rfl, hInv, h.log.keep hkeeps⟩
  | reset a ms fromNow now =>
      obtain ⟨hInv, hkeeps⟩ := h.manager.reset a ms fromNow now
      exact ⟨_, rfl, hInv, h.log.keep hkeeps⟩
  | listExpiredCb now probe =>
      obtain ⟨expired, hmap, hnodup, hcb, hInv, hkeeps, hdead⟩ :=
        h.manager.listExpiredCb now probe
      have hlt : ∀ a ∈ expired, a < s.manager.count := by
        intro a ha
        by_contra hge
        have hsome := hcb a ha
        simp [h.manager.fresh a (by omega)] at hsome
      refine ⟨⟨(s.manager.listExpiredCb now probe).2, s.log ++ expired.map .returned⟩, ?_, hInv, ?_⟩
      · simp [State.step, hmap, Function.comp_def]
      · apply h.log.return hkeeps hnodup hcb hlt hdead
  | getNextTimer now =>
      have heq : (s.manager.getNextTimer now).2 = { s.manager with tickled := false } := by
        rw [getNextTimer]
        split <;> rfl
      refine ⟨_, rfl, ?_, ?_⟩
      · simp only [heq]
        exact h.manager.of_eq rfl rfl rfl
      · simp only [heq]
        exact h.log.keep ⟨le_rfl, fun _ _ => rfl, fun _ _ hcb => hcb⟩

/-- In every run of the timer manager no call erases the end iterator; the set of the pending timers
is strictly sorted by the comparator on the current deadlines, without repetition, `find` locates
each of its members, and they are the timers that have a callback; the callback of a timer that is
not recurring is returned at most once, and none is returned after the timer was cancelled. -/
theorem run_ordered {now : ℕ} {ops : List (Op Cb)}
    (hops : Guarded State.step (fun s op => op.Legal s.manager) ⟨new now, []⟩ ops) :
  ∃ s, run State.step ⟨new now, []⟩ ops = some s ∧
    Sorted s.manager.less s.manager.timers ∧ s.manager.timers.Nodup ∧
    (∀ h ∈ s.manager.timers, ∃ before after, s.manager.timers = before ++ h :: after ∧
      find s.manager.less h s.manager.timers = some (before, h, after)) ∧
    (∀ h, h ∈ s.manager.timers ↔ (s.manager.timer h).cb ≠ none) ∧
    (∀ h, (s.manager.timer h).recurring = false → s.log.count (.returned h) ≤ 1) ∧
    s.log.Pairwise fun e e' => ∀ h, e = .cancelled h → e' ≠ .returned h
  := by
  obtain ⟨s, hrun, hInv, hlog⟩ := run_total (fun _ _ h hop => State.Inv.step h hop)
    (State.new_inv now) hops
  refine ⟨s, hrun, hInv.sorted, hInv.sorted.nodup s.manager.less_strictOrder, ?_, ?_, hlog.once,
    hlog.ordered⟩
  · intro h hmem
    apply hInv.sorted.find_mem s.manager.less_strictOrder hmem
  · intro h
    simp [hInv.mem_iff, Option.isSome_iff_ne_none]

/-- Three timers, one of them recurring and two with the same deadline: one is refreshed and
cancelled, the others expire. -/
def threeTimers : List (Op Unit) :=
  [.addTimer 5 (some ()) false 0 3, .addTimer 5 (some ()) true 0 1, .addTimer 7 (some ()) false 0 2,
    .refresh 2 1,
    .cancel 2, .listExpiredCb 5 4, .reset 1 9 true 6, .cancel 0]

theorem run_ordered_three :
  ∃ s : State Unit, run State.step ⟨new 0, []⟩ threeTimers = some s ∧
    (∀ h, (s.manager.timer h).recurring = false → s.log.count (.returned h) ≤ 1)
  := by
  have hops : Guarded State.step (fun s op => op.Legal s.manager) ⟨new 0, []⟩ threeTimers := by
    decide
  obtain ⟨s, hrun, -, -, -, -, honce, -⟩ := run_ordered hops
  exact ⟨s, hrun, honce⟩

end TimerManager

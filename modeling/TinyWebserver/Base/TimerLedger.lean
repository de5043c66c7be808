import TinyWebserver.Base.TimerInvariant
import TinyWebserver.Lib.Ledger
import TinyWebserver.Lib.Transition
import Mathlib.Data.List.Perm.Basic

/-!
# What becomes of the callbacks of the timers

A callback that is given to `addTimer` or `addConditionTimer` waits in its timer until `listExpiredCb`
returns it or the timer is cancelled; the caller of `listExpiredCb` schedules the callbacks it gets, and
each is called later, in any order, by `OnTimer` if it is one of a condition timer. In the ledger of a run a
callback is opened under its timer when it is put there, or put back after a timer that recurs has fired,
and closed when it is returned or cancelled. A timer whose callback is null from the start would have that
returned as well, so the runs here have none.
-/

universe u v

/-- What `m_cb` holds, for functions in `F` and objects in `C`: a function, or `OnTimer` bound to a
function and to a weak pointer to an object, the condition. -/
structure TimerCb (F : Type u) (C : Type v) where
  fn : F
  weakCond : Option C

/-- The call of a callback calls the function, for `OnTimer` if `weak_cond.lock()` is not null: if the
object has not expired. -/
def TimerCb.callsFn {F : Type u} {C : Type v} (cb : TimerCb F C) (expired : C → Bool) : Bool :=
  match cb.weakCond with
  | none => true
  | some c => !expired c

namespace TimerManager

variable {F : Type u} {C : Type v}

/-- `TimerManager::addConditionTimer`. -/
def addConditionTimer (m : TimerManager (TimerCb F C)) (ms : ℕ) (cb : F) (weakCond : C) (recurring : Bool)
    (now addr : ℕ) : TimerManager (TimerCb F C) :=
  m.addTimer ms ⟨cb, some weakCond⟩ recurring now addr

/-- The callback that waits in a timer, if any. -/
def pending {Cb : Type u} (m : TimerManager Cb) (h : ℕ) : List Cb := (m.timer h).cb.toList

namespace Calling

open Transition Ledger

/-- A callback is returned by `listExpiredCb`, or its timer is cancelled. -/
inductive Fate where
  | returned
  | cancelled
deriving DecidableEq

/-- What happens outside the manager: a callback is called, and the function is called or not; the last
shared pointer to an object goes away. -/
inductive Happening (F : Type u) (C : Type v) where
  | called (cb : TimerCb F C) (fn : Bool)
  | released (c : C)

/-- The callback of a call. -/
def Happening.callback : Happening F C → Option (TimerCb F C)
  | called cb _ => some cb
  | released _ => none

/-- The manager with its ledger; the callbacks that were returned and not called yet; the objects that
have expired; what has happened. -/
structure State (F : Type u) (C : Type v) where
  manager : TimerManager (TimerCb F C)
  waiting : List (Option (TimerCb F C))
  expired : C → Bool
  history : List (Happening F C)
  log : List (Entry ℕ (TimerCb F C) Fate)

/-- The start, with a new manager. -/
def State.new (now : ℕ) : State F C where
  manager := TimerManager.new now
  waiting := []
  expired _ := false
  history := []
  log := []

/-- A call of the manager, the call of one of the callbacks that wait for it, or the end of an object. -/
inductive Label (F : Type u) (C : Type v) where
  | addTimer (ms : ℕ) (cb : Option F) (recurring : Bool) (now addr : ℕ)
  | addConditionTimer (ms : ℕ) (cb : F) (weakCond : C) (recurring : Bool) (now addr : ℕ)
  | cancel (h : ℕ)
  | refresh (h now : ℕ)
  | reset (h ms : ℕ) (fromNow : Bool) (now : ℕ)
  | listExpiredCb (now probe : ℕ)
  | getNextTimer (now : ℕ)
  | call (i : ℕ)
  | release (c : C)

/-- The timer exists, the new timer has a callback and lies where no pending one does, the returned callback
is there. -/
def Label.Legal (s : State F C) : Label F C → Prop
  | .addTimer _ cb _ _ addr => cb.isSome ∧ ∀ a ∈ s.manager.timers, (s.manager.timer a).addr ≠ addr
  | .addConditionTimer _ _ _ _ _ addr => ∀ a ∈ s.manager.timers, (s.manager.timer a).addr ≠ addr
  | .cancel h => h < s.manager.count
  | .refresh h _ => h < s.manager.count
  | .reset h _ _ _ => h < s.manager.count
  | .listExpiredCb _ _ => True
  | .getNextTimer _ => True
  | .call i => i < s.waiting.length
  | .release _ => True

instance Label.Legal.decidable (s : State F C) : ∀ l : Label F C, Decidable (l.Legal s)
  | .addTimer _ cb _ _ addr =>
      inferInstanceAs (Decidable (cb.isSome ∧ ∀ a ∈ s.manager.timers, (s.manager.timer a).addr ≠ addr))
  | .addConditionTimer _ _ _ _ _ addr =>
      inferInstanceAs (Decidable (∀ a ∈ s.manager.timers, (s.manager.timer a).addr ≠ addr))
  | .cancel h => inferInstanceAs (Decidable (h < s.manager.count))
  | .refresh h _ => inferInstanceAs (Decidable (h < s.manager.count))
  | .reset h _ _ _ => inferInstanceAs (Decidable (h < s.manager.count))
  | .listExpiredCb _ _ => inferInstanceAs (Decidable True)
  | .getNextTimer _ => inferInstanceAs (Decidable True)
  | .call i => inferInstanceAs (Decidable (i < s.waiting.length))
  | .release _ => inferInstanceAs (Decidable True)

section Step

variable [DecidableEq C]

/-- One step. Erasing the end iterator is an error, and so is the call of a null callback. -/
def step (s : State F C) : Label F C → Option (State F C)
  | .addTimer ms cb recurring now addr =>
      let cb : Option (TimerCb F C) := cb.map fun fn => ⟨fn, none⟩
      some { s with
        manager := s.manager.addTimerOf ms cb recurring now addr
        log := s.log ++ cb.toList.map fun cb => .opened s.manager.count cb }
  | .addConditionTimer ms cb weakCond recurring now addr =>
      some { s with
        manager := s.manager.addConditionTimer ms cb weakCond recurring now addr
        log := s.log ++ [.opened s.manager.count ⟨cb, some weakCond⟩] }
  | .cancel h =>
      (s.manager.cancel h).map fun (r, m) =>
        { s with
          manager := m
          log := s.log ++ turnover .cancelled (fun _ => false) s.manager.pending (if r then [h] else []) }
  | .refresh h now => some { s with manager := (s.manager.refresh h now).2 }
  | .reset h ms fromNow now => some { s with manager := (s.manager.reset h ms fromNow now).2 }
  | .listExpiredCb now probe =>
      let (cbs, m) := s.manager.listExpiredCb now probe
      some { s with
        manager := m
        waiting := s.waiting ++ cbs.map Prod.snd
        log := s.log ++ turnover .returned (fun h => (s.manager.timer h).recurring) s.manager.pending
          (cbs.map Prod.fst) }
  | .getNextTimer now => some { s with manager := (s.manager.getNextTimer now).2 }
  | .call i =>
      match s.waiting[i]? with
      | some (some cb) =>
          some { s with
            waiting := s.waiting.eraseIdx i
            history := s.history ++ [.called cb (cb.callsFn s.expired)] }
      | _ => none
  | .release c =>
      some { s with
        expired := Function.update s.expired c true
        history := s.history ++ [.released c] }

end Step

/-! ### What the calls of the manager do to the callbacks that wait -/

variable {Cb : Type u}

theorem pending_addTimer (m : TimerManager Cb) (ms : ℕ) (cb : Cb) (recurring : Bool) (now addr : ℕ) :
  (m.addTimer ms cb recurring now addr).pending = Function.update m.pending m.count [cb]
  := by
  funext a
  by_cases ha : a = m.count
  · subst ha
    simp [pending, addTimer, addTimerLocked, setTimer]
  · simp [pending, addTimer, addTimerLocked, setTimer, ha]

theorem pending_cancel {m m' : TimerManager Cb} {h : ℕ} {r : Bool} (hcancel : m.cancel h = some (r, m'))
    (a : ℕ) :
  m'.pending a = if a ∈ (if r then [h] else []) ∧ false = false then [] else m.pending a
  := by
  rw [cancel] at hcancel
  split at hcancel
  · dsimp only at hcancel
    split at hcancel
    · simp at hcancel
    · obtain ⟨rfl, rfl⟩ := Prod.mk.inj (Option.some.inj hcancel)
      by_cases ha : a = h
      · simp [pending, setTimer, ha]
      · simp [pending, setTimer, ha]
  · obtain ⟨rfl, rfl⟩ := Prod.mk.inj (Option.some.inj hcancel)
    simp

theorem pending_setTimer (m : TimerManager Cb) (h : ℕ) {t : Timer Cb} (ht : t.cb = (m.timer h).cb) :
  (m.setTimer h t).pending = m.pending
  := by
  funext a
  by_cases ha : a = h
  · simp [pending, ha, ht]
  · simp [pending, setTimer_of_ne m t ha]

theorem pending_refresh (m : TimerManager Cb) (h now : ℕ) :
  (m.refresh h now).2.pending = m.pending
  := by
  rw [refresh]
  split
  · rfl
  · split
    · rfl
    · have ht : ({ m.timer h with next := (now + (m.timer h).ms) % uint64Size } : Timer Cb).cb
          = (m.timer h).cb := rfl
      apply pending_setTimer m h ht

theorem pending_reset (m : TimerManager Cb) (h ms : ℕ) (fromNow : Bool) (now : ℕ) :
  (m.reset h ms fromNow now).2.pending = m.pending
  := by
  rw [reset]
  split
  · rfl
  · split
    · rfl
    · split
      · rfl
      · dsimp only
        generalize (if fromNow then now else _) = start
        have ht : ({ m.timer h with ms := ms, next := (start + ms) % uint64Size } : Timer Cb).cb
            = (m.timer h).cb := rfl
        apply pending_setTimer m h ht

theorem pending_getNextTimer (m : TimerManager Cb) (now : ℕ) :
  (m.getNextTimer now).2.pending = m.pending
  := by
  rw [getNextTimer]
  split
  · rfl
  · rfl

/-- `listExpiredCb` returns the callbacks that wait in different timers, and leaves those of the timers that
recur. -/
theorem pending_listExpiredCb {m : TimerManager Cb} (h : m.Inv []) (now probe : ℕ) :
  ∃ expired : List ℕ, expired.Nodup ∧ (∀ a ∈ expired, (m.timer a).cb.isSome) ∧
    (m.listExpiredCb now probe).1 = expired.map (fun a => (a, (m.timer a).cb)) ∧
    ∀ a, (m.listExpiredCb now probe).2.pending a
      = if a ∈ expired ∧ (m.timer a).recurring = false then [] else m.pending a
  := by
  obtain ⟨t, expired, left, hsplit, -, -, heq⟩ := m.listExpiredCb_eq now probe
  have hnodup : expired.Nodup := by
    have hsorted := h.sorted.nodup m.less_strictOrder
    rw [hsplit] at hsorted
    exact (List.nodup_append.mp hsorted).1
  have hcb : ∀ a ∈ expired, (m.timer a).cb.isSome := by
    intro a ha
    have hmem : a ∈ m.timers := by simp [hsplit, ha]
    exact ((h.mem_iff a).mp hmem).1
  have hout : TimerManager.Inv { m with timers := left, previouseTime := t } expired :=
    (h.detach hsplit).of_eq rfl rfl rfl
  obtain ⟨hmap, -⟩ := hout.fireAll now hnodup hcb
  rw [heq]
  refine ⟨expired, hnodup, hcb, hmap, ?_⟩
  intro a
  have hobject := fireAll_timer now { m with timers := left, previouseTime := t } hnodup a
  rw [pending, hobject]
  by_cases ha : a ∈ expired
  · by_cases hrec : (m.timer a).recurring <;> simp [fire_timer_self, ha, hrec, pending]
  · simp [ha, pending]

/-- The callbacks of timers that have one. -/
theorem map_cb {m : TimerManager Cb} {expired : List ℕ} (hcb : ∀ a ∈ expired, (m.timer a).cb.isSome) :
  expired.map (fun a => (m.timer a).cb) = (expired.flatMap m.pending).map some
  := by
  induction expired with
  | nil => rfl
  | cons a rest ih =>
      obtain ⟨cb, ha⟩ := Option.isSome_iff_exists.mp (hcb a List.mem_cons_self)
      rw [List.map_cons, ih fun b hb => hcb b (List.mem_cons_of_mem a hb)]
      simp [pending, ha]

/-! ### What has happened -/

/-- The callbacks that were called, in order. -/
def calls (history : List (Happening F C)) : List (TimerCb F C) := history.filterMap Happening.callback

/-- A callback calls its function exactly if its condition, where it has one, was not released before. -/
def Conditional (history : List (Happening F C)) : Prop :=
  ∀ before cb fn after, history = before ++ .called cb fn :: after →
    (fn = true ↔ ∀ c, cb.weakCond = some c → Happening.released c ∉ before)

theorem Conditional.append {history : List (Happening F C)} (h : Conditional history) {e : Happening F C}
    (he : ∀ cb fn, e = .called cb fn →
      (fn = true ↔ ∀ c, cb.weakCond = some c → Happening.released c ∉ history)) :
  Conditional (history ++ [e])
  := by
  intro before cb fn after hsplit
  obtain rfl | ⟨after, last, rfl⟩ := after.eq_nil_or_concat
  · obtain ⟨rfl, hlast⟩ := List.append_inj' hsplit rfl
    apply he cb fn
    simpa using hlast
  · have hinit : history ++ [e] = (before ++ .called cb fn :: after) ++ [last] := by simpa using hsplit
    apply h before cb fn after (List.append_inj' hinit rfl).1

/-- What is called when the objects in `expired` are those that were released. -/
theorem callsFn_iff {history : List (Happening F C)} {expired : C → Bool}
    (hexpired : ∀ c, expired c = true ↔ Happening.released c ∈ history) (cb : TimerCb F C) :
  cb.callsFn expired = true ↔ ∀ c, cb.weakCond = some c → Happening.released c ∉ history
  := by
  obtain ⟨fn, weakCond⟩ := cb
  cases weakCond with
  | none => simp [TimerCb.callsFn]
  | some c => simp [TimerCb.callsFn, ← hexpired]

/-- The ledger is balanced with the callbacks that wait in the timers, what was returned was called or
waits for its call, and functions are called on their conditions. -/
structure State.Inv (s : State F C) : Prop where
  manager : s.manager.Inv []
  balanced : Balanced s.log s.manager.pending
  called : ∃ callbacks, s.waiting = callbacks.map some ∧
    (calls s.history ++ callbacks).Perm (settled .returned s.log)
  expired : ∀ c, s.expired c = true ↔ .released c ∈ s.history
  conditional : Conditional s.history

theorem State.new_inv (now : ℕ) :
  (State.new now : State F C).Inv
  := by
  refine ⟨TimerManager.new_inv now, ?_, ⟨[], rfl, ?_⟩, ?_, ?_⟩
  · intro k
    simp [State.new, opens, closes, TimerManager.new, pending]
  · simp [State.new, calls, settled]
  · simp [State.new]
  · intro before cb fn after hsplit
    simp [State.new] at hsplit

/-- A call of the manager that opens and closes nothing. -/
theorem State.Inv.keep {s : State F C} (h : s.Inv) {m : TimerManager (TimerCb F C)} (hm : m.Inv [])
    (hpending : m.pending = s.manager.pending) :
  State.Inv { s with manager := m }
  := ⟨hm, hpending ▸ h.balanced, h.called, h.expired, h.conditional⟩

/-- A new timer. -/
theorem State.Inv.add {s : State F C} (h : s.Inv) (ms : ℕ) (cb : TimerCb F C) (recurring : Bool) (now : ℕ)
    {addr : ℕ} (haddr : ∀ a ∈ s.manager.timers, (s.manager.timer a).addr ≠ addr) :
  State.Inv { s with
    manager := s.manager.addTimer ms cb recurring now addr
    log := s.log ++ [.opened s.manager.count cb] }
  := by
  obtain ⟨callbacks, hwaiting, hperm⟩ := h.called
  have hnone : s.manager.pending s.manager.count = [] := by
    simp [pending, h.manager.fresh s.manager.count le_rfl]
  refine ⟨(h.manager.addTimer ms cb recurring now haddr).1, ?_, ⟨callbacks, hwaiting, ?_⟩, h.expired,
    h.conditional⟩
  · apply h.balanced.opened
    rw [pending_addTimer, hnone]
    rfl
  · have hopened : settled Fate.returned [Entry.opened s.manager.count cb] = [] := rfl
    rw [settled_append, hopened, List.append_nil]
    apply hperm

section Run

variable [DecidableEq C]

/-- A legal step succeeds and keeps the invariant. -/
theorem State.Inv.step {s : State F C} (h : s.Inv) {l : Label F C} (hl : l.Legal s) :
  ∃ s', Calling.step s l = some s' ∧ s'.Inv
  := by
  obtain ⟨callbacks, hwaiting, hperm⟩ := h.called
  cases l with
  | addTimer ms cb recurring now addr =>
      obtain ⟨hsome, haddr⟩ := hl
      obtain ⟨fn, rfl⟩ := Option.isSome_iff_exists.mp hsome
      rw [Calling.step, Option.map_some, addTimerOf_some]
      exact ⟨_, rfl, h.add ms ⟨fn, none⟩ recurring now haddr⟩
  | addConditionTimer ms cb weakCond recurring now addr =>
      exact ⟨_, rfl, h.add ms ⟨cb, some weakCond⟩ recurring now hl⟩
  | cancel a =>
      obtain ⟨r, m, hcancel, hm, -, -⟩ := h.manager.cancel a
      have hstep : Calling.step s (.cancel a) = some { s with
          manager := m
          log := s.log ++
            turnover .cancelled (fun _ => false) s.manager.pending (if r then [a] else []) } := by
        rw [Calling.step, hcancel]
        rfl
      refine ⟨_, hstep, hm, ?_, ⟨callbacks, hwaiting, ?_⟩, h.expired, h.conditional⟩
      · apply h.balanced.turnover
        · cases r <;> simp
        · apply pending_cancel hcancel
      · rw [settled_append, settled_turnover]
        simpa using hperm
  | refresh a now => exact ⟨_, rfl, h.keep (h.manager.refresh a now).1 (pending_refresh _ a now)⟩
  | reset a ms fromNow now =>
      exact ⟨_, rfl, h.keep (h.manager.reset a ms fromNow now).1 (pending_reset _ a ms fromNow now)⟩
  | listExpiredCb now probe =>
      obtain ⟨-, -, -, -, hm, -⟩ := h.manager.listExpiredCb now probe
      obtain ⟨expired, hnodup, hcb, hmap, hpending⟩ := pending_listExpiredCb h.manager now probe
      have hfst : (s.manager.listExpiredCb now probe).1.map Prod.fst = expired := by
        simp [hmap, Function.comp_def]
      have hsnd : (s.manager.listExpiredCb now probe).1.map Prod.snd
          = (expired.flatMap s.manager.pending).map some := by
        rw [hmap, List.map_map, ← map_cb hcb]
        rfl
      have hstep : Calling.step s (.listExpiredCb now probe) = some { s with
          manager := (s.manager.listExpiredCb now probe).2
          waiting := s.waiting ++ (expired.flatMap s.manager.pending).map some
          log := s.log ++ turnover .returned (fun b => (s.manager.timer b).recurring) s.manager.pending
            expired } := by
        rw [← hsnd]
        nth_rewrite 1 [← hfst]
        rfl
      refine ⟨_, hstep, hm, ?_, ⟨callbacks ++ expired.flatMap s.manager.pending, ?_, ?_⟩, h.expired,
        h.conditional⟩
      · apply h.balanced.turnover hnodup _ _ hpending
      · rw [hwaiting, List.map_append]
      · rw [settled_append, settled_turnover, if_pos rfl, ← List.append_assoc]
        apply hperm.append_right
  | getNextTimer now =>
      have heq : (s.manager.getNextTimer now).2 = { s.manager with tickled := false } := by
        rw [getNextTimer]
        split <;> rfl
      refine ⟨_, rfl, h.keep ?_ (pending_getNextTimer _ now)⟩
      rw [heq]
      exact h.manager.of_eq rfl rfl rfl
  | call i =>
      have hlt : i < callbacks.length := by
        have hi : i < s.waiting.length := hl
        simpa [hwaiting] using hi
      have hget : s.waiting[i]? = some (some callbacks[i]) := by simp [hwaiting, hlt]
      have hstep : Calling.step s (.call i) = some { s with
          waiting := s.waiting.eraseIdx i
          history := s.history ++ [.called callbacks[i] (callbacks[i].callsFn s.expired)] } := by
        rw [Calling.step, hget]
      refine ⟨_, hstep, h.manager, h.balanced, ⟨callbacks.eraseIdx i, ?_, ?_⟩, ?_, ?_⟩
      · simp [hwaiting, List.eraseIdx_map]
      · have hcalls : calls (s.history ++ [.called callbacks[i] (callbacks[i].callsFn s.expired)])
            = calls s.history ++ [callbacks[i]] := by simp [calls, Happening.callback]
        rw [hcalls, List.append_assoc]
        apply List.Perm.trans _ hperm
        apply List.Perm.append_left
        apply List.getElem_cons_eraseIdx_perm hlt
      · simpa using h.expired
      · apply h.conditional.append
        intro cb fn heq
        cases heq
        apply callsFn_iff h.expired
  | release c =>
      have hcalls : calls (s.history ++ [.released c]) = calls s.history := by
        simp [calls, Happening.callback]
      refine ⟨_, rfl, h.manager, h.balanced, ⟨callbacks, hwaiting, hcalls.symm ▸ hperm⟩, ?_, ?_⟩
      · intro d
        by_cases hd : d = c
        · simp [hd]
        · simp [hd, h.expired]
      · apply h.conditional.append
        simp

/-- In every run the callbacks under each timer are those that were returned or cancelled and then the one
that waits in it; what `listExpiredCb` has returned is what was called and what waits for its call, none of it
null; and a callback calls its function exactly if it has no condition or that was not released before. -/
theorem run_called {now : ℕ} {ls : List (Label F C)}
    (hls : Guarded Calling.step (fun s l => l.Legal s) (State.new now) ls) :
  ∃ s, run Calling.step (State.new now) ls = some s ∧ Balanced s.log s.manager.pending ∧
    (∃ callbacks, s.waiting = callbacks.map some ∧
      (calls s.history ++ callbacks).Perm (settled .returned s.log)) ∧
    Conditional s.history
  := by
  obtain ⟨s, hrun, h⟩ := run_total (fun _ _ h hl => State.Inv.step h hl) (State.new_inv now) hls
  exact ⟨s, hrun, h.balanced, h.called, h.conditional⟩

/-- A timer that recurs, on a condition, fires twice, is called, loses its condition, is called again and is
cancelled. -/
def recurringOnCondition : List (Label ℕ ℕ) :=
  [.addConditionTimer 5 0 7 true 0 1, .addTimer 9 (some 1) false 0 2, .listExpiredCb 5 3, .call 0,
    .listExpiredCb 10 3, .release 7, .call 0, .cancel 0, .call 0]

theorem run_called_recurring :
  ∃ s : State ℕ ℕ, run Calling.step (State.new 0) recurringOnCondition = some s ∧
    Balanced s.log s.manager.pending
  := by
  have hls : Guarded Calling.step (fun s l => l.Legal s) (State.new 0) recurringOnCondition := by decide
  obtain ⟨s, hrun, hbalanced, -⟩ := run_called hls
  exact ⟨s, hrun, hbalanced⟩

end Run

end Calling

end TimerManager

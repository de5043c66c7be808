import TinyWebserver.Base.TimerHandles

/-!
# Deadlines as natural numbers

Deadlines are sums of type `uint64_t`, so one that does not fit is taken for an early one. Beside a manager
`Clocked` keeps the time that was read last and, for every timer, when it was armed last and with which
interval. `run_early_iff` says for runs with a clock that does not go back that no callback is returned
before its time, as a natural number, exactly if the deadlines of the timers that are due did fit.
-/

universe u

namespace TimerManager

open OrderedSet Transition

variable {Cb : Type u}

/-- When a timer was armed last, and its interval then. -/
structure Arming where
  time : ℕ
  ms : ℕ

/-- The deadline as a natural number. -/
def Arming.deadline (r : Arming) : ℕ := r.time + r.ms

/-- A manager, the time that was read last, and when the timers were armed last. -/
structure Clocked (Cb : Type u) where
  manager : TimerManager Cb
  clock : ℕ
  arming : ℕ → Arming

namespace Clocked

/-- Before the first call. -/
def start (now : ℕ) : Clocked Cb := ⟨new now, now, fun _ => ⟨0, 0⟩⟩

/-- The timer has been armed if the call has returned true. -/
def rearm (s : Clocked Cb) (h now ms : ℕ) (res : Bool × TimerManager Cb) : Clocked Cb :=
  ⟨res.2, now, if res.1 then Function.update s.arming h ⟨now, ms⟩ else s.arming⟩

/-- One call. `listExpiredCb` arms the recurring timers whose callbacks it returns. -/
def step (s : Clocked Cb) : Call Cb → Option (Clocked Cb)
  | .addTimer ms cb recurring now addr =>
      some ⟨s.manager.addTimerOf ms cb recurring now addr, now,
        Function.update s.arming s.manager.count ⟨now, ms⟩⟩
  | .handle h .cancel => (s.manager.cancel h).map fun res => { s with manager := res.2 }
  | .handle h (.refresh now) =>
      some (s.rearm h now (s.manager.timer h).ms (s.manager.refresh h now))
  | .handle h (.reset ms fromNow now) => some (s.rearm h now ms (s.manager.reset h ms fromNow now))
  | .listExpiredCb now probe =>
      let (cbs, m) := s.manager.listExpiredCb now probe
      some ⟨m, now, fun h => if h ∈ cbs.map Prod.fst ∧ (s.manager.timer h).recurring = true
        then ⟨now, (s.manager.timer h).ms⟩ else s.arming h⟩
  | .getNextTimer now => some ⟨(s.manager.getNextTimer now).2, now, s.arming⟩

theorem step_listExpiredCb (s : Clocked Cb) (now probe : ℕ) :
  s.step (.listExpiredCb now probe) = some ⟨(s.manager.listExpiredCb now probe).2, now, fun h =>
    if h ∈ (s.manager.listExpiredCb now probe).1.map Prod.fst ∧ (s.manager.timer h).recurring = true
    then ⟨now, (s.manager.timer h).ms⟩ else s.arming h⟩
  := rfl

/-- The clock does not go back. -/
def Later (s : Clocked Cb) (now : ℕ) : Prop := s.clock ≤ now ∧ now < uint64Size

/-- The clock does not go back, a new timer is allocated where no pending timer is, and a timer is reset
from now on. -/
def Proper (s : Clocked Cb) : Call Cb → Prop
  | .addTimer _ _ _ now addr => s.Later now ∧ ∀ a ∈ s.manager.timers, (s.manager.timer a).addr ≠ addr
  | .handle _ .cancel => True
  | .handle _ (.refresh now) => s.Later now
  | .handle _ (.reset _ fromNow now) => s.Later now ∧ fromNow = true
  | .listExpiredCb now _ => s.Later now
  | .getNextTimer now => s.Later now

/-- The callbacks that the call returns are not early. -/
def NotEarly (s : Clocked Cb) : Call Cb → Prop
  | .listExpiredCb now probe =>
      ∀ p ∈ (s.manager.listExpiredCb now probe).1, (s.arming p.1).deadline ≤ now
  | _ => True

/-- The deadlines of the timers that are due have fitted into a `uint64_t` when the timers were armed. -/
def Fitted (s : Clocked Cb) : Call Cb → Prop
  | .listExpiredCb now _ => ∀ h ∈ s.manager.due now, (s.arming h).deadline < uint64Size
  | _ => True

instance (s : Clocked Cb) (now : ℕ) : Decidable (s.Later now) := inferInstanceAs (Decidable (_ ∧ _))

instance Proper.decidable (s : Clocked Cb) : ∀ call : Call Cb, Decidable (s.Proper call)
  | .addTimer _ _ _ now addr => inferInstanceAs (Decidable (s.Later now ∧
      ∀ a ∈ s.manager.timers, (s.manager.timer a).addr ≠ addr))
  | .handle _ .cancel => inferInstanceAs (Decidable True)
  | .handle _ (.refresh now) => inferInstanceAs (Decidable (s.Later now))
  | .handle _ (.reset _ fromNow now) => inferInstanceAs (Decidable (s.Later now ∧ fromNow = true))
  | .listExpiredCb now _ => inferInstanceAs (Decidable (s.Later now))
  | .getNextTimer now => inferInstanceAs (Decidable (s.Later now))

instance NotEarly.decidable (s : Clocked Cb) : ∀ call : Call Cb, Decidable (s.NotEarly call)
  | .listExpiredCb now probe => inferInstanceAs (Decidable (∀ p ∈
      (s.manager.listExpiredCb now probe).1, (s.arming p.1).deadline ≤ now))
  | .addTimer _ _ _ _ _ => inferInstanceAs (Decidable True)
  | .handle _ _ => inferInstanceAs (Decidable True)
  | .getNextTimer _ => inferInstanceAs (Decidable True)

instance Fitted.decidable (s : Clocked Cb) : ∀ call : Call Cb, Decidable (s.Fitted call)
  | .listExpiredCb now _ => inferInstanceAs (Decidable (∀ h ∈ s.manager.due now,
      (s.arming h).deadline < uint64Size))
  | .addTimer _ _ _ _ _ => inferInstanceAs (Decidable True)
  | .handle _ _ => inferInstanceAs (Decidable True)
  | .getNextTimer _ => inferInstanceAs (Decidable True)

/-! ### The invariant -/

/-- The deadlines of the pending timers are those that were computed when they were armed. -/
structure Inv (s : Clocked Cb) : Prop where
  live : s.manager.Live
  clock_lt : s.clock < uint64Size
  previouseTime_le : s.manager.previouseTime ≤ s.clock
  next_eq : ∀ h ∈ s.manager.timers, (s.manager.timer h).next = (s.arming h).deadline % uint64Size

variable {s s' : Clocked Cb}

theorem start_inv {now : ℕ} (h : now < uint64Size) :
  (start now : Clocked Cb).Inv
  := ⟨new_live now, h, le_rfl, by simp [start, new]⟩

theorem Inv.addTimer (h : s.Inv) {ms : ℕ} {cb : Option Cb} {recurring : Bool} {now addr : ℕ}
    (hnow : s.Later now) (haddr : ∀ a ∈ s.manager.timers, (s.manager.timer a).addr ≠ addr) :
  Inv ⟨s.manager.addTimerOf ms cb recurring now addr, now,
    Function.update s.arming s.manager.count ⟨now, ms⟩⟩
  := by
  refine ⟨h.live.addTimerOf ms cb recurring now haddr, hnow.2, h.previouseTime_le.trans hnow.1, ?_⟩
  intro a ha
  by_cases hac : a = s.manager.count
  · subst hac
    simp [addTimerOf, addTimerLocked, setTimer, Arming.deadline]
  · have hmem : a ∈ s.manager.timers := (mem_of_mem_insert ha).resolve_left hac
    have hsame : (s.manager.addTimerOf ms cb recurring now addr).timer a = s.manager.timer a :=
      setTimer_of_ne s.manager _ hac
    dsimp only
    rw [hsame, Function.update_of_ne hac, h.next_eq a hmem]

/-- A call that arms a timer, or does nothing. -/
theorem Inv.rearm (h : s.Inv) {a now ms : ℕ} (hnow : s.Later now) (call : HandleCall)
    {res : Bool × TimerManager Cb} (hperform : call.perform s.manager a = some res)
    (hshort : ¬ s.manager.Shortcut a call)
    (hnext : (call.object s.manager a).next = (now + ms) % uint64Size) :
  (s.rearm a now ms res).Inv
  := by
  cases hcb : (s.manager.timer a).cb with
  | none =>
      rw [perform_of_null hshort hcb] at hperform
      obtain rfl := Option.some.inj hperform
      exact ⟨h.live, hnow.2, h.previouseTime_le.trans hnow.1, h.next_eq⟩
  | some cb =>
      have hsome : (s.manager.timer a).cb.isSome := by simp [hcb]
      obtain ⟨m', hperform', hchanges⟩ := h.live.perform hshort hsome
      rw [hperform'] at hperform
      obtain rfl := Option.some.inj hperform
      refine ⟨hchanges.live h.live (h.live.mem a hsome), hnow.2, ?_, ?_⟩
      · rw [Clocked.rearm, hchanges.previouseTime]
        apply h.previouseTime_le.trans hnow.1
      · intro b hb
        simp only [Clocked.rearm, if_true] at hb ⊢
        by_cases hba : b = a
        · rw [hba, hchanges.self, hnext, Function.update_self, Arming.deadline]
        · rw [(hchanges.others b hba).1, Function.update_of_ne hba]
          apply h.next_eq b ((hchanges.others b hba).2.mp hb)

theorem Inv.cancel (h : s.Inv) {a : ℕ} {res : Bool × TimerManager Cb}
    (hcancel : s.manager.cancel a = some res) :
  Inv { s with manager := res.2 }
  := by
  have hshort : ¬ s.manager.Shortcut a .cancel := id
  cases hcb : (s.manager.timer a).cb with
  | none =>
      have hperform := perform_of_null hshort hcb
      rw [HandleCall.perform, hcancel] at hperform
      obtain rfl := Option.some.inj hperform
      apply h
  | some cb =>
      have hsome : (s.manager.timer a).cb.isSome := by simp [hcb]
      obtain ⟨m', hperform, hchanges⟩ := h.live.perform hshort hsome
      rw [HandleCall.perform, hcancel] at hperform
      obtain rfl := Option.some.inj hperform
      refine ⟨hchanges.live h.live (h.live.mem a hsome), h.clock_lt, ?_, ?_⟩
      · rw [hchanges.previouseTime]
        apply h.previouseTime_le
      · intro b hb
        have hba : b ≠ a := by
          rintro rfl
          cases hchanges.mem_iff.mp hb
        rw [(hchanges.others b hba).1]
        apply h.next_eq b ((hchanges.others b hba).2.mp hb)

/-- With a clock that does not go back there is no rollover. -/
theorem Inv.no_rollover (h : s.Inv) {now : ℕ} (hnow : s.Later now) :
  (s.manager.detectClockRollover now).1 = false
  := by
  have hge : ¬ now < s.manager.previouseTime := by
    have := h.previouseTime_le.trans hnow.1
    omega
  simp [detectClockRollover, hge]

/-- The handles of the callbacks that are returned are those of the timers that are due. -/
theorem Inv.handles (h : s.Inv) {now : ℕ} (hnow : s.Later now) (probe : ℕ) :
  (s.manager.listExpiredCb now probe).1.map Prod.fst = s.manager.due now
  := by
  rw [(h.live.detached.listExpiredCb (h.no_rollover hnow) probe).cbs, List.map_map]
  apply List.map_id

theorem Inv.listExpiredCb (h : s.Inv) {now : ℕ} (hnow : s.Later now) (probe : ℕ) :
  Inv ⟨(s.manager.listExpiredCb now probe).2, now, fun a =>
    if a ∈ s.manager.due now ∧ (s.manager.timer a).recurring = true
    then ⟨now, (s.manager.timer a).ms⟩ else s.arming a⟩
  := by
  have hres := h.live.detached.listExpiredCb (h.no_rollover hnow) probe
  refine ⟨h.live.listExpiredCb now probe, hnow.2, ?_, ?_⟩
  · rcases s.manager.listExpiredCb_previouseTime now probe with heq | heq
    · rw [heq]
      apply h.previouseTime_le.trans hnow.1
    · apply heq.le
  · intro a ha
    obtain ⟨hmem, hor⟩ := (hres.mem_iff a).mp ha
    dsimp only
    by_cases hdue : a ∈ s.manager.due now
    · have hrec : (s.manager.timer a).recurring = true := by
        rcases hor with hlt | hrec
        · have := (mem_due.mp hdue).2
          omega
        · apply hrec
      rw [if_pos ⟨hdue, hrec⟩, hres.fired a hdue, if_pos hrec, Arming.deadline]
    · rw [if_neg (by simp [hdue]), hres.kept a hdue, h.next_eq a hmem]

/-- Every call keeps the invariant. -/
theorem Inv.step (h : s.Inv) {call : Call Cb} (hproper : s.Proper call)
    (hstep : s.step call = some s') :
  s'.Inv
  := by
  cases call with
  | addTimer ms cb recurring now addr =>
      obtain rfl := Option.some.inj hstep
      apply h.addTimer hproper.1 hproper.2
  | handle a call =>
      cases call with
      | cancel =>
          obtain ⟨res, hcancel, rfl⟩ := Option.map_eq_some_iff.mp hstep
          apply h.cancel hcancel
      | refresh now =>
          obtain rfl := Option.some.inj hstep
          apply h.rearm hproper (.refresh now) rfl id rfl
      | reset ms fromNow now =>
          obtain rfl := Option.some.inj hstep
          obtain ⟨hnow, rfl⟩ := hproper
          apply h.rearm hnow (.reset ms true now) rfl
          · rintro ⟨-, hfalse⟩
            cases hfalse
          · rfl
  | listExpiredCb now probe =>
      rw [step_listExpiredCb, h.handles hproper] at hstep
      obtain rfl := Option.some.inj hstep
      apply h.listExpiredCb hproper
  | getNextTimer now =>
      obtain rfl := Option.some.inj hstep
      rw [getNextTimer_keeps]
      exact ⟨⟨h.live.detached.of_eq rfl rfl, h.live.mem, h.live.known⟩, hproper.2,
        h.previouseTime_le.trans hproper.1, h.next_eq⟩

/-- A callback is not early exactly if the deadline of its timer has fitted. -/
theorem Inv.notEarly_iff (h : s.Inv) {call : Call Cb} (hproper : s.Proper call) :
  s.NotEarly call ↔ s.Fitted call
  := by
  cases call with
  | addTimer ms cb recurring now addr => apply Iff.rfl
  | handle a call => apply Iff.rfl
  | listExpiredCb now probe =>
      have hcbs := (h.live.detached.listExpiredCb (h.no_rollover hproper) probe).cbs
      simp only [NotEarly, Fitted, hcbs, List.forall_mem_map]
      apply forall₂_congr
      intro a ha
      obtain ⟨hmem, hle⟩ := mem_due.mp ha
      have hnext := h.next_eq a hmem
      have hnow := hproper.2
      constructor
      · intro hdeadline
        omega
      · intro hfits
        rw [Nat.mod_eq_of_lt hfits] at hnext
        omega
  | getNextTimer now => apply Iff.rfl

/-- In every run with a clock that does not go back, no callback is returned early exactly if the deadlines
of the timers that are due have fitted into a `uint64_t` when they were armed. -/
theorem run_early_iff {now : ℕ} (hnow : now < uint64Size) {calls : List (Call Cb)}
    (hproper : Guarded step Proper (start now) calls) :
  Guarded step NotEarly (start now) calls ↔ Guarded step Fitted (start now) calls
  := by
  have hcongr : Guarded step (fun s call => Proper s call ∧ NotEarly s call) (start now) calls ↔
      Guarded step (fun s call => Proper s call ∧ Fitted s call) (start now) calls :=
    guarded_congr Inv (fun s call h => and_congr_right fun hproper => h.notEarly_iff hproper)
      (fun s call s' h hcall hstep => h.step hcall.1 hstep) (start_inv hnow)
  constructor
  · intro hearly
    apply (hcongr.mp (hproper.and hearly)).mono
    exact fun s call hcall => hcall.2
  · intro hfits
    apply (hcongr.mpr (hproper.and hfits)).mono
    exact fun s call hcall => hcall.2

/-- A timer for the end of time, added at the time 5. -/
def endOfTime : List (Call Unit) :=
  [.addTimer (uint64Size - 1) (some ()) false 5 1, .listExpiredCb 6 0]

/-- It is returned at the time 6. -/
theorem endOfTime_early :
  Guarded step Proper (start 5) endOfTime ∧ ¬ Guarded step NotEarly (start 5) endOfTime
  := by
  decide

/-- A recurring timer that expires and is reset. -/
def recurringTimer : List (Call Unit) :=
  [.addTimer 10 (some ()) true 5 1, .listExpiredCb 15 0, .handle 0 (.reset 20 true 16),
    .listExpiredCb 36 0]

theorem recurringTimer_not_early :
  Guarded step NotEarly (start 5) recurringTimer
  := (run_early_iff (by decide) (by decide)).mpr (by decide)

end Clocked

end TimerManager

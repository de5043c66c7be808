import TinyWebserver.Base.TimerExpiry
import TinyWebserver.Lib.Transition

/-!
# What timer handles report

`cancel`, `refresh` and `reset` are called through handles that may be those of timers that have fired or
were cancelled, and on timers whose callback is null from the start. `Live` is the invariant of all runs:
a timer that has a callback is in the set. A call reports the truth, `perform_truthful_iff`, unless `reset`
takes its shortcut for a timer that is not pending, or the callback is null.
-/

universe u

namespace TimerManager

open OrderedSet Transition

variable {Cb : Type u} {m m' : TimerManager Cb} {a : ℕ}

/-! ### Calls -/

/-- A call of a member of `Timer`, with the time it reads. -/
inductive HandleCall where
  | cancel
  | refresh (now : ℕ)
  | reset (ms : ℕ) (fromNow : Bool) (now : ℕ)

/-- The call on the timer `h`, with the value it returns. -/
def HandleCall.perform (m : TimerManager Cb) (h : ℕ) : HandleCall → Option (Bool × TimerManager Cb)
  | .cancel => m.cancel h
  | .refresh now => some (m.refresh h now)
  | .reset ms fromNow now => some (m.reset h ms fromNow now)

/-- Any call of a member of `Timer` or `TimerManager`. -/
inductive Call (Cb : Type u) where
  | addTimer (ms : ℕ) (cb : Option Cb) (recurring : Bool) (now addr : ℕ)
  | handle (h : ℕ) (call : HandleCall)
  | listExpiredCb (now probe : ℕ)
  | getNextTimer (now : ℕ)

/-- One call. -/
def perform (m : TimerManager Cb) : Call Cb → Option (TimerManager Cb)
  | .addTimer ms cb recurring now addr => some (m.addTimerOf ms cb recurring now addr)
  | .handle h call => (call.perform m h).map Prod.snd
  | .listExpiredCb now probe => some (m.listExpiredCb now probe).2
  | .getNextTimer now => some (m.getNextTimer now).2

/-- A new timer is allocated where no pending timer is. -/
def Call.Legal (m : TimerManager Cb) : Call Cb → Prop
  | .addTimer _ _ _ _ addr => ∀ a ∈ m.timers, (m.timer a).addr ≠ addr
  | _ => True

instance Call.Legal.decidable (m : TimerManager Cb) : ∀ call : Call Cb, Decidable (call.Legal m)
  | .addTimer _ _ _ _ addr => inferInstanceAs (Decidable (∀ a ∈ m.timers, (m.timer a).addr ≠ addr))
  | .handle _ _ => inferInstanceAs (Decidable True)
  | .listExpiredCb _ _ => inferInstanceAs (Decidable True)
  | .getNextTimer _ => inferInstanceAs (Decidable True)

/-! ### The invariant -/

/-- The set is in order, it has the timers with a callback, and only timers that were made. -/
structure Live (m : TimerManager Cb) : Prop where
  detached : m.Detached []
  mem : ∀ a, (m.timer a).cb.isSome → a ∈ m.timers
  known : ∀ a ∈ m.timers, a < m.count

theorem new_live (now : ℕ) :
  (new now : TimerManager Cb).Live
  := ⟨(new_inv now).detached, by simp [new], by simp [new]⟩

/-- Taking one timer out of the set. -/
theorem Detached.takeOne {before after : List ℕ} (h : m.Detached [])
    (hsplit : m.timers = before ++ a :: after) :
  Detached { m with timers := erase (before, a, after) } [a] ∧
    ∀ b, b ∈ erase (before, a, after) ↔ b ∈ m.timers ∧ b ≠ a
  := by
  have hsorted := h.sorted
  rw [hsplit] at hsorted
  have hmem : ∀ b, b ∈ erase (before, a, after) ↔ b ∈ m.timers ∧ b ≠ a := by
    intro b
    rw [hsorted.mem_erase m.less_strictOrder, hsplit]
  refine ⟨⟨hsorted.erase, List.nodup_singleton a, ?_, ?_⟩, hmem⟩
  · intro b hb hb'
    obtain rfl := List.mem_singleton.mp hb
    exact ((hmem b).mp hb').2 rfl
  · have hall : ∀ b, b ∈ [a] ∨ b ∈ erase (before, a, after) → b ∈ m.timers := by
      rintro b (hb | hb)
      · obtain rfl := List.mem_singleton.mp hb
        simp [hsplit]
      · exact ((hmem b).mp hb).1
    intro b c hb hc
    apply h.addr_inj b c (Or.inr (hall b hb)) (Or.inr (hall c hc))

/-- The timer `a` has got the object `t` and is in the set, or is not in it and has no callback; the other
timers are as they were. -/
structure Changes (m m' : TimerManager Cb) (a : ℕ) (t : Timer Cb) (back : Bool) : Prop where
  detached : m'.Detached []
  count : m'.count = m.count
  previouseTime : m'.previouseTime = m.previouseTime
  others : ∀ b, b ≠ a → m'.timer b = m.timer b ∧ (b ∈ m'.timers ↔ b ∈ m.timers)
  self : m'.timer a = t
  mem_iff : a ∈ m'.timers ↔ back = true
  dead : back = false → t.cb = none

theorem Changes.live {t : Timer Cb} {back : Bool} (h : Changes m m' a t back) (hm : m.Live)
    (ha : a ∈ m.timers) :
  m'.Live
  := by
  refine ⟨h.detached, ?_, ?_⟩
  · intro b hb
    by_cases hba : b = a
    · subst hba
      cases back with
      | true => apply h.mem_iff.mpr rfl
      | false =>
          rw [h.self, h.dead rfl] at hb
          cases hb
    · rw [(h.others b hba).1] at hb
      exact (h.others b hba).2.mpr (hm.mem b hb)
  · intro b hb
    rw [h.count]
    by_cases hba : b = a
    · rw [hba]
      apply hm.known a ha
    · apply hm.known b ((h.others b hba).2.mp hb)

/-- A timer is taken out of the set, gets another object with the same address, and is put back unless
it has lost its callback. -/
theorem Detached.changes {before after : List ℕ} (h : m.Detached [])
    (hsplit : m.timers = before ++ a :: after) {t : Timer Cb} (haddr : t.addr = (m.timer a).addr)
    (back : Bool) (hdead : back = false → t.cb = none) (htimer : m'.timer = (m.setTimer a t).timer)
    (hcount : m'.count = m.count) (hprevious : m'.previouseTime = m.previouseTime)
    (htimers : m'.timers = if back then insert (m.setTimer a t).less a (erase (before, a, after))
      else erase (before, a, after)) :
  Changes m m' a t back
  := by
  obtain ⟨hout, hmem⟩ := h.takeOne hsplit
  have hput := (hout.put (t := t) haddr back).of_eq htimer htimers
  have hseparates := hout.separates (t := t) haddr
  refine ⟨hput, hcount, hprevious, ?_, by rw [htimer, setTimer_self], ?_, hdead⟩
  · intro b hb
    refine ⟨by rw [htimer, setTimer_of_ne m t hb], ?_⟩
    rw [htimers]
    cases back with
    | true =>
        have hinsert := hseparates.mem_insert b
        rw [if_pos rfl, ← (hmem b).trans (and_iff_left hb)]
        apply hinsert.trans (or_iff_right hb)
    | false =>
        rw [if_neg (by simp), hmem]
        apply and_iff_left hb
  · rw [htimers]
    cases back with
    | true =>
        have hinsert := hseparates.mem_insert a
        rw [if_pos rfl]
        exact ⟨fun _ => rfl, fun _ => hinsert.mpr (Or.inl rfl)⟩
    | false =>
        rw [if_neg (by simp), hmem]
        simp

/-! ### What the calls do -/

/-- `reset` returns before it looks whether the timer is pending. -/
def Shortcut (m : TimerManager Cb) (h : ℕ) : HandleCall → Prop
  | .reset ms fromNow _ => ms = (m.timer h).ms ∧ fromNow = false
  | _ => False

instance Shortcut.decidable (m : TimerManager Cb) (h : ℕ) :
    ∀ call : HandleCall, Decidable (m.Shortcut h call)
  | .reset ms fromNow _ => inferInstanceAs (Decidable (ms = (m.timer h).ms ∧ fromNow = false))
  | .cancel => inferInstanceAs (Decidable False)
  | .refresh _ => inferInstanceAs (Decidable False)

theorem perform_of_shortcut {call : HandleCall} (h : m.Shortcut a call) :
  call.perform m a = some (true, m)
  := by
  cases call with
  | reset ms fromNow now =>
      rw [Shortcut] at h
      rw [HandleCall.perform, reset, if_pos h]
  | cancel => cases h
  | refresh now => cases h

theorem perform_of_null {call : HandleCall} (h : ¬ m.Shortcut a call) (hcb : (m.timer a).cb = none) :
  call.perform m a = some (false, m)
  := by
  cases call with
  | reset ms fromNow now =>
      rw [Shortcut] at h
      rw [HandleCall.perform, reset, if_neg h, if_pos (by simp [hcb])]
  | cancel => rw [HandleCall.perform, cancel, if_neg (by simp [hcb])]
  | refresh now => rw [HandleCall.perform, refresh, if_pos (by simp [hcb])]

/-- The object that the call gives to the timer. -/
def HandleCall.object (m : TimerManager Cb) (a : ℕ) : HandleCall → Timer Cb
  | .cancel => { m.timer a with cb := none }
  | .refresh now => { m.timer a with next := (now + (m.timer a).ms) % uint64Size }
  | .reset ms fromNow now =>
      { m.timer a with
        ms := ms
        next := ((if fromNow then now
          else ((m.timer a).next + (uint64Size - (m.timer a).ms)) % uint64Size) + ms) % uint64Size }

/-- The timer is pending after the call. -/
def HandleCall.back : HandleCall → Bool
  | .cancel => false
  | _ => true

/-- A call on a timer with a callback changes this timer only. -/
theorem Live.perform (hm : m.Live) {call : HandleCall} (h : ¬ m.Shortcut a call)
    (hcb : (m.timer a).cb.isSome) :
  ∃ m', call.perform m a = some (true, m') ∧ Changes m m' a (call.object m a) call.back
  := by
  have hsome : ¬ (m.timer a).cb.isNone = true := by
    simpa [Option.isSome_iff_ne_none] using hcb
  obtain ⟨before, after, hsplit, hfind⟩ :=
    hm.detached.sorted.find_mem m.less_strictOrder (hm.mem a hcb)
  cases call with
  | cancel =>
      rw [HandleCall.perform, cancel, if_pos hcb]
      simp only [less_setTimer_cb, setTimer_timers, hfind]
      exact ⟨_, rfl, hm.detached.changes hsplit (t := HandleCall.cancel.object m a) rfl false
        (fun _ => rfl) rfl rfl rfl rfl⟩
  | refresh now =>
      rw [HandleCall.perform, refresh, if_neg hsome, hfind]
      exact ⟨_, rfl, hm.detached.changes hsplit (t := (HandleCall.refresh now).object m a)
        rfl true (by simp) rfl rfl rfl rfl⟩
  | reset ms fromNow now =>
      rw [Shortcut] at h
      rw [HandleCall.perform, reset, if_neg h, if_neg hsome, hfind]
      exact ⟨_, rfl, hm.detached.changes hsplit
        (t := (HandleCall.reset ms fromNow now).object m a) rfl true (by simp) rfl rfl rfl
        rfl⟩

/-- A call through a handle fails nowhere and keeps the invariant. -/
theorem Live.handle (hm : m.Live) (a : ℕ) (call : HandleCall) :
  ∃ r m', call.perform m a = some (r, m') ∧ m'.Live
  := by
  by_cases hshort : m.Shortcut a call
  · exact ⟨true, m, perform_of_shortcut hshort, hm⟩
  · cases hcb : (m.timer a).cb with
    | none => exact ⟨false, m, perform_of_null hshort hcb, hm⟩
    | some cb =>
        have hsome : (m.timer a).cb.isSome := by simp [hcb]
        obtain ⟨m', hperform, hchanges⟩ := hm.perform hshort hsome
        exact ⟨true, m', hperform, hchanges.live hm (hm.mem a hsome)⟩

theorem fire_count (now : ℕ) (m : TimerManager Cb) (a : ℕ) :
  (m.fire now a).count = m.count
  := by
  rw [TimerManager.fire]
  split <;> rfl

theorem fireAll_count (now : ℕ) (m : TimerManager Cb) (expired : List ℕ) :
  (fireAll now m expired).2.count = m.count
  := by
  induction expired generalizing m with
  | nil => rfl
  | cons a rest ih => rw [TimerManager.fireAll, ih, fire_count]

theorem Live.listExpiredCb (hm : m.Live) (now probe : ℕ) :
  (m.listExpiredCb now probe).2.Live
  := by
  obtain ⟨t, expired, left, hsplit, -, -, heq⟩ := m.listExpiredCb_eq now probe
  have hout : Detached { m with timers := left, previouseTime := t } expired :=
    (hm.detached.take hsplit).of_eq rfl rfl
  obtain ⟨-, hdetached, hmem⟩ := hout.fireAll now
  have hobject := fireAll_timer now { m with timers := left, previouseTime := t } hout.nodup
  have hcount := fireAll_count now { m with timers := left, previouseTime := t } expired
  have hall : ∀ b, b ∈ m.timers ↔ b ∈ expired ∨ b ∈ left := by
    intro b
    rw [hsplit, List.mem_append]
  rw [heq]
  refine ⟨hdetached, ?_, ?_⟩
  · intro b hb
    rw [hmem]
    rw [hobject] at hb
    split at hb
    · rename_i hexpired
      rw [fire_timer_self] at hb
      split at hb
      · rename_i hrec
        exact Or.inr ⟨hexpired, hrec⟩
      · cases hb
    · rename_i hexpired
      exact Or.inl (((hall b).mp (hm.mem b hb)).resolve_left hexpired)
  · intro b hb
    rw [hcount]
    apply hm.known b
    rw [hall]
    rcases (hmem b).mp hb with hb | hb
    · exact Or.inr hb
    · exact Or.inl hb.1

theorem Live.addTimerOf (hm : m.Live) (ms : ℕ) (cb : Option Cb) (recurring : Bool) (now : ℕ)
    {addr : ℕ} (haddr : ∀ a ∈ m.timers, (m.timer a).addr ≠ addr) :
  (m.addTimerOf ms cb recurring now addr).Live
  := by
  let t : Timer Cb :=
    { addr := addr, recurring := recurring, ms := ms, next := (now + ms) % uint64Size, cb := cb }
  have hnot : m.count ∉ m.timers := fun hmem => absurd (hm.known _ hmem) (lt_irrefl _)
  have hother : ∀ b ∈ m.timers, (m.setTimer m.count t).timer b = m.timer b :=
    fun b hb => setTimer_of_ne m t (ne_of_mem_of_not_mem hb hnot)
  have hout : (m.setTimer m.count t).Detached [m.count] := by
    refine ⟨sorted_setTimer_of_notMem hm.detached.sorted hnot t, List.nodup_singleton _, ?_, ?_⟩
    · intro b hb
      obtain rfl := List.mem_singleton.mp hb
      apply hnot
    · rintro b c (hb | hb) (hc | hc) heq
      · rw [List.mem_singleton.mp hb, List.mem_singleton.mp hc]
      · rw [List.mem_singleton.mp hb, hother c hc, setTimer_self] at heq
        exact absurd heq.symm (haddr c hc)
      · rw [List.mem_singleton.mp hc, hother b hb, setTimer_self] at heq
        exact absurd heq (haddr b hb)
      · rw [hother b hb, hother c hc] at heq
        apply hm.detached.addr_inj b c (Or.inr hb) (Or.inr hc) heq
  have hobject : (m.setTimer m.count t).setTimer m.count t = m.setTimer m.count t := by
    simp [setTimer]
  have hput := hout.put (t := t) (by rw [setTimer_self]) true
  have hmem := (hout.separates (t := t) (by rw [setTimer_self])).mem_insert
  rw [hobject] at hput hmem
  refine ⟨hput.of_eq rfl rfl, ?_, ?_⟩
  · intro b hb
    apply (hmem b).mpr
    by_cases hbc : b = m.count
    · exact Or.inl hbc
    · have hsame : (m.setTimer m.count t).timer b = m.timer b := setTimer_of_ne m t hbc
      right
      apply hm.mem b
      rw [← hsame]
      apply hb
  · intro b hb
    have hcount : (m.addTimerOf ms cb recurring now addr).count = m.count + 1 := rfl
    rw [hcount]
    rcases (hmem b).mp hb with rfl | hb
    · omega
    · have := hm.known b hb
      omega

/-- Every call keeps the invariant. -/
theorem Live.step (hm : m.Live) {call : Call Cb} (hlegal : call.Legal m)
    (hstep : m.perform call = some m') :
  m'.Live
  := by
  cases call with
  | addTimer ms cb recurring now addr =>
      obtain rfl := Option.some.inj hstep
      apply hm.addTimerOf ms cb recurring now hlegal
  | handle h call =>
      obtain ⟨⟨r, m₁⟩, hperform, rfl⟩ := Option.map_eq_some_iff.mp hstep
      obtain ⟨r', m₂, hperform', hlive⟩ := hm.handle h call
      rw [hperform] at hperform'
      cases hperform'
      apply hlive
  | listExpiredCb now probe =>
      obtain rfl := Option.some.inj hstep
      apply hm.listExpiredCb
  | getNextTimer now =>
      obtain rfl := Option.some.inj hstep
      rw [getNextTimer_keeps]
      exact ⟨hm.detached.of_eq rfl rfl, hm.mem, hm.known⟩

/-! ### The truth of the reports -/

/-- The result of a call on the timer `h`: true is returned exactly if the timer was pending, nothing is
changed if it is false, and the other timers are as they were. -/
def Truthful (m : TimerManager Cb) (h : ℕ) (res : Option (Bool × TimerManager Cb)) : Prop :=
  ∃ r m', res = some (r, m') ∧ (r = true ↔ h ∈ m.timers) ∧ (r = false → m' = m) ∧
    ∀ b, b ≠ h → m'.timer b = m.timer b ∧ (b ∈ m'.timers ↔ b ∈ m.timers)

/-- The timer is pending if the call is a shortcut; if it is none, a pending timer has a callback. -/
def Answerable (m : TimerManager Cb) (h : ℕ) (call : HandleCall) : Prop :=
  if m.Shortcut h call then h ∈ m.timers else h ∈ m.timers → (m.timer h).cb.isSome

/-- In every run, a call through a handle reports the truth exactly if it is no shortcut for a timer that
is not pending, and is not made for a pending timer with a null callback. -/
theorem perform_truthful_iff {now : ℕ} {calls : List (Call Cb)}
    (hlegal : Guarded TimerManager.perform (fun m call => call.Legal m) (new now) calls)
    (hrun : run TimerManager.perform (new now) calls = some m) (h : ℕ) (call : HandleCall) :
  Truthful m h (call.perform m h) ↔ Answerable m h call
  := by
  have hm : m.Live := run_guarded_invariant (fun _ _ _ h hop hstep => Live.step h hop hstep)
    (new_live now) hlegal hrun
  rw [Answerable]
  split
  · rename_i hshort
    rw [perform_of_shortcut hshort]
    constructor
    · rintro ⟨r, m', heq, hiff, -⟩
      cases heq
      apply hiff.mp rfl
    · intro hmem
      exact ⟨true, m, rfl, by simp [hmem], by simp, fun _ _ => ⟨rfl, Iff.rfl⟩⟩
  · rename_i hshort
    cases hcb : (m.timer h).cb with
    | none =>
        rw [perform_of_null hshort hcb]
        constructor
        · rintro ⟨r, m', heq, hiff, -⟩ hmem
          cases heq
          cases hiff.mpr hmem
        · intro hnot
          refine ⟨false, m, rfl, ⟨by simp, fun hmem => ?_⟩, fun _ => rfl, fun _ _ => ⟨rfl, Iff.rfl⟩⟩
          cases hnot hmem
    | some cb =>
        have hsome : (m.timer h).cb.isSome := by simp [hcb]
        obtain ⟨m', hperform, hchanges⟩ := hm.perform hshort hsome
        simp only [Option.isSome_some, implies_true, iff_true]
        exact ⟨true, m', hperform, by simp [hm.mem h hsome], by simp, hchanges.others⟩

/-- A timer that is cancelled. -/
def cancelled : List (Call Unit) := [.addTimer 10 (some ()) false 0 1, .handle 0 .cancel]

/-- A cancelled timer is reset with success, if its interval stays. -/
theorem cancelled_reset :
  ∃ m, run TimerManager.perform (new 0) cancelled = some m ∧
    ¬ Truthful m 0 ((HandleCall.reset 10 false 5).perform m 0)
  := by
  have hsome : (run TimerManager.perform (new 0) cancelled).isSome = true := by decide
  obtain ⟨m, hrun⟩ := Option.isSome_iff_exists.mp hsome
  have hstate : (run TimerManager.perform (new 0) cancelled).map
      (fun m => (m.timers, (m.timer 0).ms)) = some ([], 10) := by decide
  rw [hrun] at hstate
  obtain ⟨htimers, hms⟩ := Prod.mk.inj (Option.some.inj hstate)
  have hshort : m.Shortcut 0 (.reset 10 false 5) := ⟨hms.symm, rfl⟩
  refine ⟨m, hrun, ?_⟩
  rintro ⟨r, m', hperform, hiff, -⟩
  rw [perform_of_shortcut hshort] at hperform
  cases hperform
  rw [htimers] at hiff
  cases hiff.mp rfl

/-- A timer that was cancelled cannot be cancelled again. -/
theorem cancelled_cancel :
  ∃ m, run TimerManager.perform (new 0) cancelled = some m ∧
    Truthful m 0 (HandleCall.cancel.perform m 0)
  := by
  have hsome : (run TimerManager.perform (new 0) cancelled).isSome = true := by decide
  obtain ⟨m, hrun⟩ := Option.isSome_iff_exists.mp hsome
  have hstate : (run TimerManager.perform (new 0) cancelled).map (·.timers) = some [] := by decide
  rw [hrun] at hstate
  have htimers : m.timers = [] := Option.some.inj hstate
  refine ⟨m, hrun, (perform_truthful_iff (by decide) hrun 0 .cancel).mpr ?_⟩
  rw [Answerable, if_neg (by simp [Shortcut]), htimers]
  simp

end TimerManager

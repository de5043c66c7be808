import TinyWebserver.Base.TimerHandles
import TinyWebserver.Base.TimerRuns

/-!
# The notification of a new first timer

Whoever sleeps until the first timer is due asks `getNextTimer` how long that is, and relies on
`onTimerInsertedAtFront` to hear of timers that come to be due earlier. The flag `m_tickled` holds
back notifications after the first one, and `refresh` and `listExpiredCb` put timers back into the set
without one. `run_notified` says that none is missed: a timer is armed for its interval from a moment
that has passed, so these two calls only put deadlines off.
-/

universe u

/-- A timer is armed for its interval from a moment that is not later than `clock`. -/
structure Timer.Armed {Cb : Type u} (t : Timer Cb) (clock : ℕ) : Prop where
  ms_le : t.ms ≤ t.next
  le_clock : t.next ≤ clock + t.ms
  next_lt : t.next < uint64Size

theorem Timer.Armed.mono {Cb : Type u} {t : Timer Cb} {clock now : ℕ} (h : t.Armed clock)
    (hnow : clock ≤ now) :
  t.Armed now
  := ⟨h.ms_le, h.le_clock.trans (Nat.add_le_add_right hnow _), h.next_lt⟩

namespace TimerManager

open OrderedSet Transition

variable {Cb : Type u}

/-- The smallest deadline of a pending timer, or infinity if none is pending. -/
def earliest (m : TimerManager Cb) : WithTop ℕ :=
  m.timers.foldr (fun h n => min ((m.timer h).next : WithTop ℕ) n) ⊤

theorem le_earliest_iff (m : TimerManager Cb) (n : WithTop ℕ) :
  n ≤ m.earliest ↔ ∀ h ∈ m.timers, n ≤ (m.timer h).next
  := by
  rw [earliest]
  induction m.timers with
  | nil => simp
  | cons h hs ih => simp [ih]

theorem earliest_le {m : TimerManager Cb} {h : ℕ} (hmem : h ∈ m.timers) :
  m.earliest ≤ (m.timer h).next
  := (m.le_earliest_iff _).mp le_rfl h hmem

/-! ### What a call does -/

/-- A call has notified, or it has left the flag as it was and, if that was not set, no timer has come
to be due earlier. -/
inductive Heard (m m' : TimerManager Cb) : Prop where
  | told (htickled : m'.tickled = true) (hfront : m.insertedAtFront < m'.insertedAtFront)
  | quiet (htickled : m'.tickled = m.tickled) (hfront : m'.insertedAtFront = m.insertedAtFront)
      (hearliest : m.tickled = false → m.earliest ≤ m'.earliest)

/-- A timer is put into a set that has no timers that are due earlier than before. -/
theorem addTimerLocked_heard {m m₁ : TimerManager Cb} (a : ℕ) (htickled : m₁.tickled = m.tickled)
    (hfront : m₁.insertedAtFront = m.insertedAtFront) (hearliest : m.earliest ≤ m₁.earliest) :
  Heard m (m₁.addTimerLocked a)
  := by
  cases hflag : m₁.tickled with
  | true =>
      apply Heard.quiet
      · simp [addTimerLocked, hflag, ← htickled]
      · simp [addTimerLocked, hflag, hfront]
      · simp [← htickled, hflag]
  | false =>
      cases hbefore : (lowerBound (m₁.less · a) m₁.timers).1 with
      | nil =>
          apply Heard.told
          · simp [addTimerLocked, hbefore, hflag]
          · simp [addTimerLocked, hbefore, hflag, hfront]
      | cons b rest =>
          have hb : b ∈ m₁.timers.takeWhile (m₁.less · a) := by
            change b ∈ (lowerBound (m₁.less · a) m₁.timers).1
            rw [hbefore]
            apply List.mem_cons_self
          have hbelow := List.mem_takeWhile_imp hb
          have hless := (m₁.less_iff b a).mp hbelow
          apply Heard.quiet
          · simp [addTimerLocked, hbefore, hflag, ← htickled]
          · simp [addTimerLocked, hbefore, hfront]
          · intro _
            rw [le_earliest_iff]
            intro h hmem
            rcases mem_of_mem_insert hmem with rfl | hold
            · apply (hearliest.trans (earliest_le (List.takeWhile_subset _ hb))).trans
              norm_cast
              simp only [addTimerLocked]
              omega
            · apply hearliest.trans (earliest_le hold)

/-- Nobody was notified. -/
structure Silent (m m' : TimerManager Cb) : Prop where
  tickled : m'.tickled = m.tickled
  insertedAtFront : m'.insertedAtFront = m.insertedAtFront

/-- The pending timers were pending before, and each has kept its object, or is one of those in `p`
and has been armed again at the time `now`. -/
def Rearmed (p : ℕ → Prop) (now : ℕ) (m m' : TimerManager Cb) : Prop :=
  ∀ h ∈ m'.timers, h ∈ m.timers ∧
    (m'.timer h = m.timer h ∨
      p h ∧ (m'.timer h).ms = (m.timer h).ms ∧
        (m'.timer h).next = (now + (m.timer h).ms) % uint64Size)

/-- Arming timers again puts their deadlines off. -/
theorem Rearmed.later {p : ℕ → Prop} {clock now : ℕ} {m m' : TimerManager Cb}
    (h : Rearmed p now m m') (hnow : clock ≤ now)
    (harmed : ∀ a ∈ m.timers, (m.timer a).Armed clock)
    (hfits : ∀ a ∈ m.timers, p a → now + (m.timer a).ms < uint64Size) :
  m.earliest ≤ m'.earliest ∧ ∀ a ∈ m'.timers, (m'.timer a).Armed now
  := by
  constructor
  · rw [le_earliest_iff]
    intro a ha
    obtain ⟨hmem, hsame | ⟨hp, -, hnext⟩⟩ := h a ha
    · rw [hsame]
      apply earliest_le hmem
    · apply (earliest_le hmem).trans
      rw [hnext, Nat.mod_eq_of_lt (hfits a hmem hp)]
      norm_cast
      have := (harmed a hmem).le_clock
      omega
  · intro a ha
    obtain ⟨hmem, hsame | ⟨hp, hms, hnext⟩⟩ := h a ha
    · obtain ⟨hle, hclock, hlt⟩ := harmed a hmem
      rw [hsame]
      exact ⟨hle, by omega, hlt⟩
    · rw [Nat.mod_eq_of_lt (hfits a hmem hp)] at hnext
      have hlt := hfits a hmem hp
      exact ⟨by omega, by omega, by omega⟩

/-- A call that changes one timer arms it again, or takes it out of the set. -/
theorem Changes.rearmed {m m' : TimerManager Cb} {a : ℕ} {t : Timer Cb} {back : Bool}
    (h : Changes m m' a t back) (ha : a ∈ m.timers) {p : ℕ → Prop} {now : ℕ}
    (hback : back = true →
      p a ∧ t.ms = (m.timer a).ms ∧ t.next = (now + (m.timer a).ms) % uint64Size) :
  Rearmed p now m m'
  := by
  intro b hb
  by_cases hba : b = a
  · subst hba
    rw [h.self]
    exact ⟨ha, Or.inr (hback (h.mem_iff.mp hb))⟩
  · obtain ⟨hsame, hmem⟩ := h.others b hba
    exact ⟨hmem.mp hb, Or.inl hsame⟩

theorem Rearmed.refl (p : ℕ → Prop) (now : ℕ) (m : TimerManager Cb) :
  Rearmed p now m m
  := fun _ hb => ⟨hb, Or.inl rfl⟩

theorem cancel_silent {m m' : TimerManager Cb} {a : ℕ} {r : Bool} (hcancel : m.cancel a = some (r, m')) :
  Silent m m'
  := by
  rw [cancel] at hcancel
  split at hcancel
  · dsimp only at hcancel
    split at hcancel
    · simp at hcancel
    · obtain ⟨-, rfl⟩ := Prod.mk.inj (Option.some.inj hcancel)
      exact ⟨rfl, rfl⟩
  · obtain ⟨-, rfl⟩ := Prod.mk.inj (Option.some.inj hcancel)
    exact ⟨rfl, rfl⟩

theorem refresh_silent (m : TimerManager Cb) (a now : ℕ) :
  Silent m (m.refresh a now).2
  := by
  rw [refresh]
  split
  · exact ⟨rfl, rfl⟩
  · split
    · exact ⟨rfl, rfl⟩
    · exact ⟨rfl, rfl⟩

theorem Live.rearmed_cancel {m m' : TimerManager Cb} (h : m.Live) {a : ℕ} {r : Bool}
    (hcancel : m.cancel a = some (r, m')) (now : ℕ) :
  Rearmed (fun _ => False) now m m'
  := by
  cases hcb : (m.timer a).cb with
  | none =>
      have hnull : HandleCall.cancel.perform m a = some (false, m) := perform_of_null id hcb
      obtain ⟨-, rfl⟩ := Prod.mk.inj (Option.some.inj (hnull.symm.trans hcancel))
      apply Rearmed.refl
  | some cb =>
      have hsome : (m.timer a).cb.isSome := by simp [hcb]
      let call := HandleCall.cancel
      obtain ⟨m'', hperform, hchanges⟩ : ∃ m'', call.perform m a = some (true, m'') ∧
          Changes m m'' a (call.object m a) call.back := h.perform id hsome
      obtain ⟨-, rfl⟩ := Prod.mk.inj (Option.some.inj (hperform.symm.trans hcancel))
      apply hchanges.rearmed (h.mem a hsome)
      simp [HandleCall.back]

theorem Live.rearmed_refresh {m : TimerManager Cb} (h : m.Live) (a now : ℕ) :
  Rearmed (fun b => b = a ∧ (m.timer a).cb.isSome) now m (m.refresh a now).2
  := by
  cases hcb : (m.timer a).cb with
  | none =>
      have hnull : (HandleCall.refresh now).perform m a = some (false, m) := perform_of_null id hcb
      have hsame : m.refresh a now = (false, m) := Option.some.inj hnull
      rw [hsame]
      apply Rearmed.refl
  | some cb =>
      have hsome : (m.timer a).cb.isSome := by simp [hcb]
      let call := HandleCall.refresh now
      obtain ⟨m', hperform, hchanges⟩ : ∃ m', call.perform m a = some (true, m') ∧
          Changes m m' a (call.object m a) call.back := h.perform id hsome
      have hrefresh : m.refresh a now = (true, m') := Option.some.inj hperform
      rw [hrefresh]
      apply hchanges.rearmed (h.mem a hsome)
      exact fun _ => ⟨⟨rfl, rfl⟩, rfl, rfl⟩

theorem fire_silent (now : ℕ) (m : TimerManager Cb) (a : ℕ) :
  Silent m (m.fire now a)
  := by
  rw [fire]
  split
  · exact ⟨rfl, rfl⟩
  · exact ⟨rfl, rfl⟩

theorem fireAll_silent (now : ℕ) (m : TimerManager Cb) (expired : List ℕ) :
  Silent m (fireAll now m expired).2
  := by
  induction expired generalizing m with
  | nil => exact ⟨rfl, rfl⟩
  | cons a rest ih =>
      have hfire := fire_silent now m a
      have hrest := ih (m.fire now a)
      exact ⟨hrest.tickled.trans hfire.tickled, hrest.insertedAtFront.trans hfire.insertedAtFront⟩

theorem Live.rearmed_listExpiredCb {m : TimerManager Cb} (h : m.Live) {now : ℕ} (probe : ℕ)
    (hlt : m.previouseTime < uint64Size) (hover : ¬ m.RolledOver now) :
  Rearmed (fun a => (m.timer a).recurring ∧ (m.timer a).next ≤ now) now m
      (m.listExpiredCb now probe).2 ∧
    Silent m (m.listExpiredCb now probe).2
  := by
  obtain ⟨t, expired, left, hsplit, -, hexpires, heq⟩ := m.listExpiredCb_eq now probe
  have hout : Detached { m with timers := left, previouseTime := t } expired :=
    (h.detached.take hsplit).of_eq rfl rfl
  obtain ⟨-, -, hmem⟩ := hout.fireAll now
  have hsilent := fireAll_silent now { m with timers := left, previouseTime := t } expired
  rw [heq]
  refine ⟨?_, hsilent.tickled, hsilent.insertedAtFront⟩
  intro b hb
  have hobject := fireAll_timer now { m with timers := left, previouseTime := t } hout.nodup b
  rcases (hmem b).mp hb with hleft | ⟨hexpired, hrec⟩
  · rw [if_neg fun hexpired => hout.disjoint b hexpired hleft] at hobject
    exact ⟨by simp [hsplit, hleft], Or.inl hobject⟩
  · rw [if_pos hexpired, fire_timer_self, if_pos hrec] at hobject
    refine ⟨by simp [hsplit, hexpired], Or.inr ⟨⟨hrec, (hexpires hlt).due hover b hexpired⟩, ?_, ?_⟩⟩
    · rw [hobject]
    · rw [hobject]

/-- The timers of a set into which a timer was put are armed if that one is and the others are. -/
theorem addTimerLocked_armed {m₁ : TimerManager Cb} {a now : ℕ} (ha : (m₁.timer a).Armed now)
    (hothers : ∀ b ∈ m₁.timers, (m₁.timer b).Armed now) :
  ∀ b ∈ (m₁.addTimerLocked a).timers, ((m₁.addTimerLocked a).timer b).Armed now
  := by
  intro b hb
  rcases mem_of_mem_insert hb with rfl | hold
  · apply ha
  · apply hothers b hold

/-- A manager with fewer timers, which have kept their objects. -/
theorem earliest_le_of_subset {m m₁ : TimerManager Cb}
    (h : ∀ b ∈ m₁.timers, b ∈ m.timers ∧ m₁.timer b = m.timer b) :
  m.earliest ≤ m₁.earliest
  := by
  rw [le_earliest_iff]
  intro b hb
  obtain ⟨hmem, hsame⟩ := h b hb
  rw [hsame]
  apply earliest_le hmem

/-- A timer is put into the set, after some of the others may have been taken out of it. -/
theorem Heard.put {m m₁ : TimerManager Cb} {a clock now : ℕ} (hnow : clock ≤ now)
    (harmed : ∀ b ∈ m.timers, (m.timer b).Armed clock) (htickled : m₁.tickled = m.tickled)
    (hfront : m₁.insertedAtFront = m.insertedAtFront)
    (hobject : ∀ b ∈ m₁.timers, b ∈ m.timers ∧ m₁.timer b = m.timer b)
    (ha : (m₁.timer a).Armed now) :
  Heard m (m₁.addTimerLocked a) ∧
    ∀ b ∈ (m₁.addTimerLocked a).timers, ((m₁.addTimerLocked a).timer b).Armed now
  := by
  constructor
  · apply addTimerLocked_heard a htickled hfront
    apply earliest_le_of_subset hobject
  · apply addTimerLocked_armed ha
    intro b hb
    obtain ⟨hmem, hsame⟩ := hobject b hb
    rw [hsame]
    exact (harmed b hmem).mono hnow

/-- The moment from which `reset` arms a timer. -/
def resetStart (m : TimerManager Cb) (a : ℕ) (fromNow : Bool) (now : ℕ) : ℕ :=
  if fromNow then now else (m.timer a).next - (m.timer a).ms

/-- The subtraction of `reset` does not wrap around for a timer that is armed. -/
theorem resetStart_eq {m : TimerManager Cb} {a clock : ℕ} (harmed : (m.timer a).Armed clock)
    (fromNow : Bool) (now : ℕ) :
  (if fromNow then now else ((m.timer a).next + (uint64Size - (m.timer a).ms)) % uint64Size)
    = m.resetStart a fromNow now
  := by
  rw [resetStart]
  split
  · rfl
  · obtain ⟨hms, -, hlt⟩ := harmed
    rw [uint64Size] at hlt ⊢
    omega

theorem resetStart_le {m : TimerManager Cb} {a clock now : ℕ} (harmed : (m.timer a).Armed clock)
    (hnow : clock ≤ now) (fromNow : Bool) :
  m.resetStart a fromNow now ≤ now
  := by
  rw [resetStart]
  split
  · exact le_rfl
  · have := harmed.le_clock
    omega

theorem Live.heard_reset {m : TimerManager Cb} (h : m.Live) {clock now : ℕ} (hnow : clock ≤ now)
    (harmed : ∀ b ∈ m.timers, (m.timer b).Armed clock) (a ms : ℕ) (fromNow : Bool)
    (hfits : (m.timer a).cb.isSome → m.resetStart a fromNow now + ms < uint64Size) :
  Heard m (m.reset a ms fromNow now).2 ∧
    ∀ b ∈ (m.reset a ms fromNow now).2.timers, ((m.reset a ms fromNow now).2.timer b).Armed now
  := by
  have hsame : Heard m m ∧ ∀ b ∈ m.timers, (m.timer b).Armed now :=
    ⟨.quiet rfl rfl fun _ => le_rfl, fun b hb => (harmed b hb).mono hnow⟩
  rw [TimerManager.reset]
  split
  · apply hsame
  · split
    · apply hsame
    · rename_i hcb
      have hcb : (m.timer a).cb.isSome := by simpa [Option.isSome_iff_ne_none] using hcb
      obtain ⟨before, after, hsplit, hfind⟩ :=
        h.detached.sorted.find_mem m.less_strictOrder (h.mem a hcb)
      have hold := harmed a (by simp [hsplit])
      rw [hfind]
      dsimp only
      rw [resetStart_eq hold, Nat.mod_eq_of_lt (hfits hcb)]
      apply Heard.put hnow harmed
      · rfl
      · rfl
      · intro b hb
        obtain ⟨hmem, hne⟩ := ((h.detached.takeOne hsplit).2 b).mp hb
        exact ⟨hmem, setTimer_of_ne _ _ hne⟩
      · rw [setTimer_self]
        refine ⟨Nat.le_add_left _ _, ?_, hfits hcb⟩
        have hle := resetStart_le hold hnow fromNow
        simp only
        omega

theorem Live.heard_addTimerOf {m : TimerManager Cb} (h : m.Live) {clock now : ℕ}
    (hnow : clock ≤ now) (harmed : ∀ b ∈ m.timers, (m.timer b).Armed clock) (ms : ℕ) (cb : Option Cb)
    (recurring : Bool) (addr : ℕ) (hfits : now + ms < uint64Size) :
  Heard m (m.addTimerOf ms cb recurring now addr) ∧
    ∀ b ∈ (m.addTimerOf ms cb recurring now addr).timers,
      ((m.addTimerOf ms cb recurring now addr).timer b).Armed now
  := by
  have hnot : m.count ∉ m.timers := fun hmem => absurd (h.known _ hmem) (lt_irrefl _)
  rw [TimerManager.addTimerOf, Nat.mod_eq_of_lt hfits]
  apply Heard.put hnow harmed
  · rfl
  · rfl
  · intro b hb
    exact ⟨hb, setTimer_of_ne m _ (ne_of_mem_of_not_mem hb hnot)⟩
  · simp only [setTimer_self]
    exact ⟨Nat.le_add_left _ _, le_rfl, hfits⟩

/-! ### Runs -/

/-- A new timer is allocated where no pending timer is. -/
def Op.Fresh (m : TimerManager Cb) : Op Cb → Prop
  | .addTimer _ _ _ _ addr => ∀ a ∈ m.timers, (m.timer a).addr ≠ addr
  | _ => True

instance Op.Fresh.decidable (m : TimerManager Cb) : ∀ op : Op Cb, Decidable (op.Fresh m)
  | .addTimer _ _ _ _ addr => inferInstanceAs (Decidable (∀ a ∈ m.timers, (m.timer a).addr ≠ addr))
  | .cancel _ | .refresh _ _ | .reset _ _ _ _ | .listExpiredCb _ _ | .getNextTimer _ =>
      inferInstanceAs (Decidable True)

/-- The time that a call reads. -/
def Op.now : Op Cb → Option ℕ
  | .addTimer _ _ _ now _ => some now
  | .cancel _ => none
  | .refresh _ now => some now
  | .reset _ _ _ now => some now
  | .listExpiredCb now _ => some now
  | .getNextTimer now => some now

/-- No deadline that the call computes is above the range of `uint64_t`. -/
def Op.Fits (m : TimerManager Cb) : Op Cb → Prop
  | .addTimer ms _ _ now _ => now + ms < uint64Size
  | .cancel _ => True
  | .refresh h now => (m.timer h).cb.isSome → now + (m.timer h).ms < uint64Size
  | .reset h ms fromNow now =>
      (m.timer h).cb.isSome → m.resetStart h fromNow now + ms < uint64Size
  | .listExpiredCb now _ => ∀ h ∈ m.timers, (m.timer h).recurring ∧ (m.timer h).next ≤ now →
      now + (m.timer h).ms < uint64Size
  | .getNextTimer _ => True

instance Op.Fits.decidable (m : TimerManager Cb) : ∀ op : Op Cb, Decidable (op.Fits m)
  | .addTimer _ _ _ _ _ => inferInstanceAs (Decidable (_ < _))
  | .cancel _ => inferInstanceAs (Decidable True)
  | .refresh _ _ => inferInstanceAs (Decidable (_ → _ < _))
  | .reset _ _ _ _ => inferInstanceAs (Decidable (_ → _ < _))
  | .listExpiredCb now _ => inferInstanceAs (Decidable (∀ h ∈ m.timers,
      (m.timer h).recurring ∧ (m.timer h).next ≤ now → now + (m.timer h).ms < uint64Size))
  | .getNextTimer _ => inferInstanceAs (Decidable True)

/-- A call whose new timer lies apart from the pending ones succeeds and keeps the invariant. -/
theorem Live.call {s : State Cb} (h : s.manager.Live) {op : Op Cb} (hop : op.Fresh s.manager) :
  ∃ s', s.step op = some s' ∧ s'.manager.Live
  := by
  cases op with
  | addTimer ms cb recurring now addr => exact ⟨_, rfl, h.addTimerOf ms cb recurring now hop⟩
  | cancel a =>
      obtain ⟨r, m, hcancel, hlive⟩ := h.handle a .cancel
      rw [HandleCall.perform] at hcancel
      exact ⟨_, by rw [State.step, hcancel]; rfl, hlive⟩
  | refresh a now =>
      obtain ⟨r, m, hrefresh, hlive⟩ := h.handle a (.refresh now)
      have hsame : m = (s.manager.refresh a now).2 := (congrArg Prod.snd (Option.some.inj hrefresh)).symm
      exact ⟨_, rfl, hsame ▸ hlive⟩
  | reset a ms fromNow now =>
      obtain ⟨r, m, hreset, hlive⟩ := h.handle a (.reset ms fromNow now)
      have hsame : m = (s.manager.reset a ms fromNow now).2 :=
        (congrArg Prod.snd (Option.some.inj hreset)).symm
      exact ⟨_, rfl, hsame ▸ hlive⟩
  | listExpiredCb now probe => exact ⟨_, rfl, h.listExpiredCb now probe⟩
  | getNextTimer now =>
      refine ⟨_, rfl, ?_⟩
      simp only [getNextTimer_keeps]
      exact ⟨h.detached.of_eq rfl rfl, h.mem, h.known⟩

/-- A run so far, with the time that was read last, and what the last call of `getNextTimer` has seen:
the smallest deadline, and the number of notifications until then. -/
structure Watched (Cb : Type u) where
  state : State Cb
  clock : ℕ
  lastNext : WithTop ℕ
  notified : ℕ

namespace Watched

/-- The start of a run, at the time `now`. -/
def start (now : ℕ) : Watched Cb := ⟨⟨new now, []⟩, now, ⊤, 0⟩

/-- What is seen after a call. -/
def observe (s : Watched Cb) (op : Op Cb) (t : State Cb) : Watched Cb :=
  match op with
  | .getNextTimer now => ⟨t, now, s.state.manager.earliest, t.manager.insertedAtFront⟩
  | op => ⟨t, op.now.getD s.clock, s.lastNext, s.notified⟩

/-- One call. -/
def step (s : Watched Cb) (op : Op Cb) : Option (Watched Cb) := (s.state.step op).map (s.observe op)

/-- A new timer lies apart from the pending ones, the clock does not go back, and no deadline is above the
range. -/
def Ok (s : Watched Cb) (op : Op Cb) : Prop :=
  op.Fresh s.state.manager ∧ (∀ now ∈ op.now, s.clock ≤ now ∧ now < uint64Size) ∧
    op.Fits s.state.manager

instance Ok.decidable (s : Watched Cb) (op : Op Cb) : Decidable (s.Ok op) :=
  inferInstanceAs (Decidable (_ ∧ _ ∧ _))

/-- All pending timers were armed in the past. If the flag is set, there was a notification since the
last call of `getNextTimer`, and otherwise no timer is due earlier than the first one then. -/
structure Inv (s : Watched Cb) : Prop where
  live : s.state.manager.Live
  clock_lt : s.clock < uint64Size
  previouse_le : s.state.manager.previouseTime ≤ s.clock
  armed : ∀ h ∈ s.state.manager.timers, (s.state.manager.timer h).Armed s.clock
  le_front : s.notified ≤ s.state.manager.insertedAtFront
  tickled : s.state.manager.tickled = true → s.notified < s.state.manager.insertedAtFront
  quiet : s.state.manager.tickled = false → s.lastNext ≤ s.state.manager.earliest

theorem start_inv {now : ℕ} (h : now < uint64Size) :
  (start now : Watched Cb).Inv
  := by
  refine ⟨new_live now, h, le_rfl, ?_, le_rfl, ?_, ?_⟩
  · simp [start, new]
  · simp [start, new]
  · intro _
    rw [le_earliest_iff]
    simp [start, new]

/-- A call after which nothing was seen by `getNextTimer`. -/
theorem Inv.heard {s : Watched Cb} (h : s.Inv) {t : State Cb} (ht : t.manager.Live) {now : ℕ}
    (hlt : now < uint64Size) (hprevious : t.manager.previouseTime ≤ now)
    (hheard : Heard s.state.manager t.manager)
    (harmed : ∀ a ∈ t.manager.timers, (t.manager.timer a).Armed now) :
  Inv ⟨t, now, s.lastNext, s.notified⟩
  := by
  have hle := h.le_front
  cases hheard with
  | told htickled hfront =>
      refine ⟨ht, hlt, hprevious, harmed, hle.trans hfront.le, fun _ => hle.trans_lt hfront, ?_⟩
      simp [htickled]
  | quiet htickled hfront hearliest =>
      refine ⟨ht, hlt, hprevious, harmed, hle.trans hfront.ge, ?_, ?_⟩
      · intro hflag
        simp only [hfront]
        apply h.tickled
        rw [← htickled, hflag]
      · intro hflag
        have hold : s.state.manager.tickled = false := by rw [← htickled, hflag]
        exact (h.quiet hold).trans (hearliest hold)

/-- A call that notifies nobody and arms timers again, if any. -/
theorem Inv.rearmed {s : Watched Cb} (h : s.Inv) {t : State Cb} (ht : t.manager.Live) {now : ℕ}
    (hnow : s.clock ≤ now) (hlt : now < uint64Size) (hprevious : t.manager.previouseTime ≤ now)
    {p : ℕ → Prop} (hrearmed : Rearmed p now s.state.manager t.manager)
    (hsilent : Silent s.state.manager t.manager)
    (hfits : ∀ a ∈ s.state.manager.timers, p a →
      now + (s.state.manager.timer a).ms < uint64Size) :
  Inv ⟨t, now, s.lastNext, s.notified⟩
  := by
  obtain ⟨hearliest, harmed⟩ := hrearmed.later hnow h.armed hfits
  exact h.heard ht hlt hprevious (.quiet hsilent.tickled hsilent.insertedAtFront fun _ => hearliest)
    harmed

theorem Inv.step {s : Watched Cb} (h : s.Inv) {op : Op Cb} (hop : s.Ok op) :
  ∃ s', s.step op = some s' ∧ s'.Inv
  := by
  obtain ⟨hfresh, htime, hfits⟩ := hop
  obtain ⟨t, ht, hlive⟩ := h.live.call hfresh
  refine ⟨s.observe op t, by simp [Watched.step, ht], ?_⟩
  have hprevious : ¬ op.isListExpiredCb → t.manager.previouseTime ≤ s.clock := by
    intro hnot
    rw [step_previouseTime ht hnot]
    apply h.previouse_le
  cases op with
  | addTimer ms cb recurring now addr =>
      obtain ⟨hnow, hlt⟩ := htime now rfl
      obtain ⟨hheard, harmed⟩ :=
        h.live.heard_addTimerOf hnow h.armed ms cb recurring addr hfits
      obtain rfl := Option.some.inj ht
      apply h.heard hlive hlt ((hprevious (by simp [Op.isListExpiredCb])).trans hnow) hheard harmed
  | cancel a =>
      obtain ⟨⟨r, m⟩, hcancel, rfl⟩ := Option.map_eq_some_iff.mp ht
      have hrearmed := h.live.rearmed_cancel hcancel s.clock
      exact h.rearmed hlive le_rfl h.clock_lt (hprevious (by simp [Op.isListExpiredCb])) hrearmed
        (cancel_silent hcancel) (by simp)
  | refresh a now =>
      obtain ⟨hnow, hlt⟩ := htime now rfl
      have hrearmed := h.live.rearmed_refresh a now
      obtain rfl := Option.some.inj ht
      refine h.rearmed hlive hnow hlt ((hprevious (by simp [Op.isListExpiredCb])).trans hnow)
        hrearmed (refresh_silent _ a now) ?_
      rintro b hb ⟨rfl, hcb⟩
      apply hfits hcb
  | reset a ms fromNow now =>
      obtain ⟨hnow, hlt⟩ := htime now rfl
      obtain ⟨hheard, harmed⟩ := h.live.heard_reset hnow h.armed a ms fromNow hfits
      obtain rfl := Option.some.inj ht
      apply h.heard hlive hlt ((hprevious (by simp [Op.isListExpiredCb])).trans hnow) hheard harmed
  | listExpiredCb now probe =>
      obtain ⟨hnow, hlt⟩ := htime now rfl
      have hover : ¬ s.state.manager.RolledOver now := by
        rintro ⟨hback, -⟩
        have := h.previouse_le
        omega
      obtain ⟨hrearmed, hsilent⟩ := h.live.rearmed_listExpiredCb probe
        (h.previouse_le.trans_lt h.clock_lt) hover
      have hlast := s.state.manager.listExpiredCb_previouseTime now probe
      obtain rfl := Option.some.inj ht
      apply h.rearmed hlive hnow hlt _ hrearmed hsilent hfits
      cases hlast with
      | inl hsame => apply hsame.trans_le (h.previouse_le.trans hnow)
      | inr hnew => apply hnew.le
  | getNextTimer now =>
      obtain ⟨hnow, hlt⟩ := htime now rfl
      have heq : (s.state.manager.getNextTimer now).2 = { s.state.manager with tickled := false } := by
        rw [getNextTimer]
        split <;> rfl
      obtain rfl := Option.some.inj ht
      refine ⟨hlive, hlt, (hprevious (by simp [Op.isListExpiredCb])).trans hnow, ?_, le_rfl, ?_, ?_⟩
      · simp only [observe, heq]
        exact fun a ha => (h.armed a ha).mono hnow
      · simp [observe, heq]
      · simp [observe, heq, earliest]

/-- In every run of the calls, with a clock that does not go back and deadlines in the range of
`uint64_t`: if the smallest deadline of a pending timer is smaller than it was at the last call of
`getNextTimer`, then `onTimerInsertedAtFront` has been called since. -/
theorem run_notified {now : ℕ} (hnow : now < uint64Size) {ops : List (Op Cb)}
    (hops : Guarded step Ok (start now) ops) :
  ∃ s, run step (start now) ops = some s ∧
    (s.state.manager.earliest < s.lastNext → s.notified < s.state.manager.insertedAtFront)
  := by
  obtain ⟨s, hrun, hInv⟩ := run_total (fun _ _ hs hop => Inv.step hs hop) (start_inv hnow) hops
  refine ⟨s, hrun, ?_⟩
  intro hearlier
  apply hInv.tickled
  by_contra hflag
  exact absurd hearlier (not_lt.mpr (hInv.quiet (by simpa using hflag)))

/-- A recurring timer expires and is armed again, and a shorter one comes in front of it. -/
def shorterTimer : List (Op Unit) :=
  [.addTimer 50 (some ()) true 10 1, .getNextTimer 11, .listExpiredCb 60 3, .getNextTimer 61,
    .refresh 0 62, .addTimer 5 none false 63 2]

theorem run_notified_shorterTimer :
  ∃ s, run step (start 10) shorterTimer = some s ∧ s.state.manager.earliest < s.lastNext ∧
    s.notified < s.state.manager.insertedAtFront
  := by
  have hops : Guarded step Ok (start 10) shorterTimer := by decide
  obtain ⟨s, hrun, hnotified⟩ := run_notified (by decide) hops
  have hearlier : s.state.manager.earliest < s.lastNext := by
    obtain rfl := Option.some.inj hrun
    decide
  exact ⟨s, hrun, hearlier, hnotified hearlier⟩

end Watched

end TimerManager

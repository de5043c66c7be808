import TinyWebserver.Base.Timer

/-!
# The invariant of the timer manager

`Inv m out` is the invariant of a manager from whose set the timers in `out` have been taken out
for a moment: the set is sorted by the current deadlines and holds the timers that have a callback.
Before and after every call none are taken out. The calls are made of four moves: timers are
detached from the set, get another deadline, are attached again or lose their callback. `Keeps`
says what no call does to any timer.
-/

universe u

namespace TimerManager

open OrderedSet

variable {Cb : Type u}

/-! ### The comparator -/

theorem less_iff (m : TimerManager Cb) (a b : ℕ) :
  m.less a b = true ↔ (m.timer a).next < (m.timer b).next ∨
    (m.timer a).next = (m.timer b).next ∧ (m.timer a).addr < (m.timer b).addr
  := by
  simp only [less, Timer.comparator]
  grind

theorem less_strictOrder (m : TimerManager Cb) :
  StrictOrder m.less
  := by
  constructor
  · intro a
    by_contra h
    have := (m.less_iff a a).mp (by simpa using h)
    omega
  · intro a b c hab hbc
    rw [less_iff] at hab hbc ⊢
    omega

/-- The comparator reads only the deadlines and the addresses. -/
theorem less_congr {m m' : TimerManager Cb} {a b : ℕ}
    (ha : (m.timer a).next = (m'.timer a).next ∧ (m.timer a).addr = (m'.timer a).addr)
    (hb : (m.timer b).next = (m'.timer b).next ∧ (m.timer b).addr = (m'.timer b).addr) :
  m.less a b = m'.less a b
  := by
  simp only [less, Timer.comparator, ha.1, ha.2, hb.1, hb.2]

/-! ### The invariant -/

/-- The set is sorted and holds the timers with a callback, without those in `out`, and timers
with a callback have different addresses. -/
structure Inv (m : TimerManager Cb) (out : List ℕ) : Prop where
  sorted : Sorted m.less m.timers
  mem_iff : ∀ h, h ∈ m.timers ↔ (m.timer h).cb.isSome ∧ h ∉ out
  addr_inj : ∀ h h', (m.timer h).cb.isSome → (m.timer h').cb.isSome →
    (m.timer h).addr = (m.timer h').addr → h = h'
  fresh : ∀ h, m.count ≤ h → (m.timer h).cb = none

theorem Inv.of_eq {m m' : TimerManager Cb} {out : List ℕ} (h : m.Inv out)
    (htimer : m'.timer = m.timer) (hcount : m'.count = m.count)
    (htimers : m'.timers = m.timers) :
  m'.Inv out
  := by
  cases m
  cases m'
  obtain rfl := htimer
  obtain rfl := hcount
  obtain rfl := htimers
  exact ⟨h.sorted, h.mem_iff, h.addr_inj, h.fresh⟩

theorem new_inv (now : ℕ) :
  (new now : TimerManager Cb).Inv []
  := by
  constructor <;> simp [new, Sorted]

/-- Taking the first timers of the set out of it. -/
theorem Inv.detach {m : TimerManager Cb} {expired left : List ℕ} (h : m.Inv [])
    (hsplit : m.timers = expired ++ left) :
  Inv { m with timers := left } expired
  := by
  have hsorted := h.sorted
  rw [hsplit] at hsorted
  have hdisjoint := (List.nodup_append.mp (hsorted.nodup m.less_strictOrder)).2.2
  refine ⟨(List.pairwise_append.mp hsorted).2.1, ?_, h.addr_inj, h.fresh⟩
  intro a
  have ha := h.mem_iff a
  simp only [hsplit, List.mem_append, List.not_mem_nil, not_false_eq_true, and_true] at ha
  simp only [← ha]
  grind

/-- Taking one timer out of the set. -/
theorem Inv.detach_one {m : TimerManager Cb} {before after : List ℕ} {a : ℕ} (h : m.Inv [])
    (hsplit : m.timers = before ++ a :: after) :
  Inv { m with timers := erase (before, a, after) } [a]
  := by
  have hsorted := h.sorted
  rw [hsplit] at hsorted
  refine ⟨hsorted.erase, ?_, h.addr_inj, h.fresh⟩
  intro b
  simp only [hsorted.mem_erase m.less_strictOrder, ← hsplit, h.mem_iff]
  simp

/-- An assignment to the object of a timer that is not in the set leaves the set sorted. -/
theorem Inv.sorted_setTimer {m : TimerManager Cb} {out : List ℕ} {a : ℕ} (h : m.Inv out)
    (ha : a ∈ out) (t : Timer Cb) :
  Sorted (m.setTimer a t).less m.timers
  := by
  have hother : ∀ b ∈ m.timers, (m.setTimer a t).timer b = m.timer b := by
    intro b hb
    apply setTimer_of_ne
    rintro rfl
    exact ((h.mem_iff b).mp hb).2 ha
  apply h.sorted.congr
  intro b hb c hc
  apply less_congr
  · simp [hother b hb]
  · simp [hother c hc]

/-- A change of the deadline and the interval of a timer that is not in the set. -/
theorem Inv.rekey {m : TimerManager Cb} {out : List ℕ} {a : ℕ} (h : m.Inv out) (ha : a ∈ out)
    (ms next : ℕ) :
  (m.setTimer a { m.timer a with ms := ms, next := next }).Inv out
  := by
  have hkeep : ∀ b, ((m.setTimer a { m.timer a with ms := ms, next := next }).timer b).cb
        = (m.timer b).cb ∧
      ((m.setTimer a { m.timer a with ms := ms, next := next }).timer b).addr
        = (m.timer b).addr := by
    intro b
    by_cases hb : b = a
    · simp [hb]
    · simp [setTimer_of_ne _ _ hb]
  refine ⟨h.sorted_setTimer ha _, ?_, ?_, ?_⟩
  · intro b
    rw [(hkeep b).1]
    apply h.mem_iff
  · intro b c
    rw [(hkeep b).1, (hkeep c).1, (hkeep b).2, (hkeep c).2]
    apply h.addr_inj
  · intro b hb
    rw [(hkeep b).1]
    apply h.fresh b hb

/-- Putting a timer with a callback back into the set. -/
theorem Inv.attach {m : TimerManager Cb} {out : List ℕ} {a : ℕ} (h : m.Inv (a :: out))
    (ha : a ∉ out) (hcb : (m.timer a).cb.isSome) :
  Inv { m with timers := insert m.less a m.timers } out
  := by
  have hsep : Separates m.less a m.timers := by
    intro b hb
    obtain ⟨hbcb, hbout⟩ := (h.mem_iff b).mp hb
    have hne : (m.timer b).addr ≠ (m.timer a).addr := by
      intro heq
      have := h.addr_inj b a hbcb hcb heq
      simp [this] at hbout
    rw [less_iff, less_iff]
    omega
  refine ⟨h.sorted.insert m.less_strictOrder hsep, ?_, h.addr_inj, h.fresh⟩
  intro b
  have hb := h.mem_iff b
  simp only [List.mem_cons] at hb
  simp only [hsep.mem_insert]
  grind

/-- Taking the callback of a timer that is not in the set. -/
theorem Inv.kill {m : TimerManager Cb} {out : List ℕ} {a : ℕ} (h : m.Inv (a :: out)) :
  (m.setTimer a { m.timer a with cb := none }).Inv out
  := by
  have hnot : a ∉ m.timers := by
    rw [h.mem_iff]
    simp
  have hcb : ∀ b, ((m.setTimer a { m.timer a with cb := none }).timer b).cb.isSome ↔
      b ≠ a ∧ (m.timer b).cb.isSome := by
    intro b
    by_cases hb : b = a
    · simp [hb]
    · simp [setTimer_of_ne _ _ hb, hb]
  refine ⟨h.sorted_setTimer (List.mem_cons_self) _, ?_, ?_, ?_⟩
  · intro b
    have hb := h.mem_iff b
    simp only [List.mem_cons] at hb
    rw [hcb, setTimer_timers]
    grind
  · intro b c hb hc
    obtain ⟨hba, hb⟩ := (hcb b).mp hb
    obtain ⟨hca, hc⟩ := (hcb c).mp hc
    rw [setTimer_of_ne _ _ hba, setTimer_of_ne _ _ hca]
    apply h.addr_inj b c hb hc
  · intro b hb
    have hfresh := h.fresh b hb
    rw [← Option.not_isSome_iff_eq_none, hcb]
    simp [hfresh]

/-- A new timer is one that is not in the set yet. -/
theorem Inv.create {m : TimerManager Cb} (h : m.Inv []) {t : Timer Cb}
    (haddr : ∀ a ∈ m.timers, (m.timer a).addr ≠ t.addr) :
  Inv { m.setTimer m.count t with count := m.count + 1 } [m.count]
  := by
  have hother : ∀ b, b ≠ m.count → (m.setTimer m.count t).timer b = m.timer b :=
    fun b hb => setTimer_of_ne _ _ hb
  have hnot : m.count ∉ m.timers := by
    rw [h.mem_iff, h.fresh m.count le_rfl]
    simp
  have hmem : ∀ b, b ∈ m.timers ↔ (m.timer b).cb.isSome := by
    intro b
    simp [h.mem_iff b]
  constructor
  · apply h.sorted.congr
    intro b hb c hc
    apply less_congr
    · simp [hother b (ne_of_mem_of_not_mem hb hnot)]
    · simp [hother c (ne_of_mem_of_not_mem hc hnot)]
  · intro b
    by_cases hb : b = m.count
    · simpa [hb] using hnot
    · simp [hother b hb, hb, hmem b]
  · intro b c
    by_cases hb : b = m.count
    · by_cases hc : c = m.count
      · simp [hb, hc]
      · intro _ hccb heq
        simp only [hb, setTimer_self, hother c hc] at hccb heq
        apply absurd heq.symm (haddr c ((hmem c).mpr hccb))
    · by_cases hc : c = m.count
      · intro hbcb _ heq
        simp only [hc, setTimer_self, hother b hb] at hbcb heq
        apply absurd heq (haddr b ((hmem b).mpr hbcb))
      · simp only [hother b hb, hother c hc]
        apply h.addr_inj
  · intro b hb
    simp only at hb
    simp only [hother b (by omega)]
    apply h.fresh b (by omega)

/-! ### The calls keep the invariant -/

/-- No timer of `m` has another `m_recurring` in `m'`, and none without a callback has got one. -/
structure Keeps (m m' : TimerManager Cb) : Prop where
  count_le : m.count ≤ m'.count
  recurring_eq : ∀ h < m.count, (m'.timer h).recurring = (m.timer h).recurring
  cb_none : ∀ h < m.count, (m.timer h).cb = none → (m'.timer h).cb = none

theorem Keeps.refl (m : TimerManager Cb) :
  Keeps m m
  := ⟨le_rfl, fun _ _ => rfl, fun _ _ h => h⟩

theorem Keeps.trans {m m' m'' : TimerManager Cb} (h : Keeps m m') (h' : Keeps m' m'') :
  Keeps m m''
  := by
  use h.count_le.trans h'.count_le
  · intro a ha
    rw [h'.recurring_eq a (ha.trans_le h.count_le), h.recurring_eq a ha]
  · intro a ha hcb
    apply h'.cb_none a (ha.trans_le h.count_le) (h.cb_none a ha hcb)

/-- A change of one timer object that leaves `m_recurring` and gives the timer no callback. -/
theorem Keeps.of_timer_eq {m m' : TimerManager Cb} {a : ℕ} {t : Timer Cb}
    (htimer : m'.timer = (m.setTimer a t).timer) (hcount : m'.count = m.count)
    (hrec : t.recurring = (m.timer a).recurring) (hcb : (m.timer a).cb = none → t.cb = none) :
  Keeps m m'
  := by
  use hcount.ge
  · intro b _
    rw [htimer]
    by_cases hb : b = a
    · simp [hb, hrec]
    · simp [setTimer_of_ne _ _ hb]
  · intro b _
    rw [htimer]
    by_cases hb : b = a
    · simpa [hb] using hcb
    · simp [setTimer_of_ne _ _ hb]

/-- `find` locates every timer with a callback. -/
theorem Inv.find_eq {m : TimerManager Cb} (h : m.Inv []) {a : ℕ} (ha : (m.timer a).cb.isSome) :
  ∃ before after, m.timers = before ++ a :: after ∧
    find m.less a m.timers = some (before, a, after)
  := by
  apply h.sorted.find_mem m.less_strictOrder
  simp [h.mem_iff, ha]

/-- The order does not depend on the callbacks. -/
theorem less_setTimer_cb (m : TimerManager Cb) (a : ℕ) :
  (m.setTimer a { m.timer a with cb := none }).less = m.less
  := by
  funext b c
  apply less_congr
  · by_cases hb : b = a
    · simp [hb]
    · simp [setTimer_of_ne _ _ hb]
  · by_cases hc : c = a
    · simp [hc]
    · simp [setTimer_of_ne _ _ hc]

theorem Inv.cancel {m : TimerManager Cb} (h : m.Inv []) (a : ℕ) :
  ∃ r m', m.cancel a = some (r, m') ∧ m'.Inv [] ∧ Keeps m m' ∧
    (r = true → (m'.timer a).cb = none)
  := by
  rw [TimerManager.cancel]
  split
  · rename_i hcb
    obtain ⟨before, after, hsplit, hfind⟩ := h.find_eq hcb
    simp only [less_setTimer_cb, setTimer_timers, hfind]
    refine ⟨true, _, rfl, (h.detach_one hsplit).kill, ?_, ?_⟩
    · refine Keeps.of_timer_eq (t := { m.timer a with cb := none }) rfl rfl rfl ?_
      simp
    · simp
  · exact ⟨false, m, rfl, h, Keeps.refl m, by simp⟩

/-- A timer with a callback is taken out of the set, gets another interval and deadline, and is put
back: what `refresh` and `reset` do. -/
theorem Inv.rearm {m m' m'' : TimerManager Cb} (h : m.Inv []) {before after : List ℕ}
    {a ms next : ℕ} (hcb : (m.timer a).cb.isSome) (hsplit : m.timers = before ++ a :: after)
    (hm' : m' = { m with timers := erase (before, a, after) }.setTimer a
      { m.timer a with ms := ms, next := next })
    (htimer : m''.timer = m'.timer) (hcount : m''.count = m'.count)
    (htimers : m''.timers = insert m'.less a m'.timers) :
  m''.Inv [] ∧ Keeps m m''
  := by
  have hout : m'.Inv [a] := hm' ▸ (h.detach_one hsplit).rekey (List.mem_singleton_self a) ms next
  have hcb' : (m'.timer a).cb.isSome := by simpa [hm'] using hcb
  constructor
  · apply (hout.attach List.not_mem_nil hcb').of_eq htimer hcount htimers
  · apply Keeps.of_timer_eq (t := { m.timer a with ms := ms, next := next })
      (by rw [htimer, hm']; rfl) (by rw [hcount, hm']; rfl) rfl
    simp

theorem Inv.refresh {m : TimerManager Cb} (h : m.Inv []) (a now : ℕ) :
  (m.refresh a now).2.Inv [] ∧ Keeps m (m.refresh a now).2
  := by
  rw [TimerManager.refresh]
  split
  · exact ⟨h, Keeps.refl m⟩
  · rename_i hcb
    have hcb : (m.timer a).cb.isSome := by simpa [Option.isSome_iff_ne_none] using hcb
    obtain ⟨before, after, hsplit, hfind⟩ := h.find_eq hcb
    rw [hfind]
    exact h.rearm hcb hsplit rfl rfl rfl rfl

theorem Inv.reset {m : TimerManager Cb} (h : m.Inv []) (a ms : ℕ) (fromNow : Bool) (now : ℕ) :
  (m.reset a ms fromNow now).2.Inv [] ∧ Keeps m (m.reset a ms fromNow now).2
  := by
  rw [TimerManager.reset]
  split
  · exact ⟨h, Keeps.refl m⟩
  · split
    · exact ⟨h, Keeps.refl m⟩
    · rename_i hcb
      have hcb : (m.timer a).cb.isSome := by simpa [Option.isSome_iff_ne_none] using hcb
      obtain ⟨before, after, hsplit, hfind⟩ := h.find_eq hcb
      rw [hfind]
      exact h.rearm hcb hsplit rfl rfl rfl rfl

theorem Inv.addTimer {m : TimerManager Cb} (h : m.Inv []) (ms : ℕ) (cb : Cb) (recurring : Bool)
    (now : ℕ) {addr : ℕ} (haddr : ∀ a ∈ m.timers, (m.timer a).addr ≠ addr) :
  (m.addTimer ms cb recurring now addr).Inv [] ∧
    Keeps m (m.addTimer ms cb recurring now addr)
  := by
  let t : Timer Cb :=
    { addr := addr, recurring := recurring, ms := ms, next := (now + ms) % uint64Size,
      cb := some cb }
  have hout := h.create (t := t) haddr
  constructor
  · exact (hout.attach List.not_mem_nil (by simp [t])).of_eq rfl rfl rfl
  · use Nat.le_succ m.count
    · intro a ha
      apply congrArg Timer.recurring (setTimer_of_ne m _ ha.ne)
    · intro a ha hcb
      rw [← hcb]
      apply congrArg Timer.cb (setTimer_of_ne m _ ha.ne)

/-! ### Expiry -/

theorem fire_of_ne (m : TimerManager Cb) (now : ℕ) {a b : ℕ} (hb : b ≠ a) :
  (m.fire now a).timer b = m.timer b
  := by
  rw [fire]
  split
  · apply setTimer_of_ne m _ hb
  · apply setTimer_of_ne m _ hb

/-- The object of a fired timer. -/
theorem fire_timer_self (now : ℕ) (m : TimerManager Cb) (a : ℕ) :
  (m.fire now a).timer a
    = if (m.timer a).recurring then
        { m.timer a with next := (now + (m.timer a).ms) % uint64Size }
      else { m.timer a with cb := none }
  := by
  rw [fire]
  split
  · simp [setTimer]
  · simp

/-- Firing different timers changes their objects one by one. -/
theorem fireAll_timer (now : ℕ) (m : TimerManager Cb) {expired : List ℕ} (h : expired.Nodup)
    (b : ℕ) :
  (fireAll now m expired).2.timer b
    = if b ∈ expired then (m.fire now b).timer b else m.timer b
  := by
  induction expired generalizing m with
  | nil => simp [TimerManager.fireAll]
  | cons a rest ih =>
      obtain ⟨ha, hrest⟩ := List.nodup_cons.mp h
      rw [TimerManager.fireAll, ih _ hrest]
      by_cases hba : b = a
      · simp [hba, ha]
      · have hother : (m.fire now a).timer b = m.timer b := fire_of_ne m now hba
        simp [fire_timer_self, hother, hba]

theorem Inv.fire {m : TimerManager Cb} {out : List ℕ} {a : ℕ} (h : m.Inv (a :: out))
    (ha : a ∉ out) (hcb : (m.timer a).cb.isSome) (now : ℕ) :
  (m.fire now a).Inv out ∧ Keeps m (m.fire now a) ∧
    ((m.timer a).recurring = false → ((m.fire now a).timer a).cb = none)
  := by
  rw [TimerManager.fire]
  split
  · rename_i hrec
    have hout := h.rekey List.mem_cons_self (m.timer a).ms ((now + (m.timer a).ms) % uint64Size)
    refine ⟨hout.attach ha (by simpa using hcb), ?_, by simp [hrec]⟩
    exact Keeps.of_timer_eq rfl rfl rfl id
  · refine ⟨h.kill, ?_, by simp⟩
    apply Keeps.of_timer_eq (t := { m.timer a with cb := none }) rfl rfl rfl fun _ => rfl

/-- Firing timers that have been taken out of the set returns the callback of each, in order, and
leaves each in the set again or without a callback. -/
theorem Inv.fireAll {m : TimerManager Cb} (now : ℕ) {expired : List ℕ} (h : m.Inv expired)
    (hnodup : expired.Nodup) (hcb : ∀ a ∈ expired, (m.timer a).cb.isSome) :
  (fireAll now m expired).1 = expired.map (fun a => (a, (m.timer a).cb)) ∧
    (fireAll now m expired).2.Inv [] ∧ Keeps m (fireAll now m expired).2 ∧
    ∀ a ∈ expired, (m.timer a).recurring = false →
      ((fireAll now m expired).2.timer a).cb = none
  := by
  induction expired generalizing m with
  | nil => exact ⟨rfl, h, Keeps.refl m, by simp⟩
  | cons a rest ih =>
      obtain ⟨hnot, hnodup⟩ := List.nodup_cons.mp hnodup
      obtain ⟨hInv, hkeeps, hdead⟩ := h.fire hnot (hcb a List.mem_cons_self) now
      have hother : ∀ b ∈ rest, (m.fire now a).timer b = m.timer b :=
        fun b hb => fire_of_ne m now (ne_of_mem_of_not_mem hb hnot)
      obtain ⟨hmap, hInv', hkeeps', hdead'⟩ := ih hInv hnodup (fun b hb => by
        rw [hother b hb]
        apply hcb b (List.mem_cons_of_mem a hb))
      refine ⟨?_, hInv', hkeeps.trans hkeeps', ?_⟩
      · simp only [TimerManager.fireAll, hmap, List.map_cons, List.cons.injEq, true_and]
        apply List.map_congr_left
        intro b hb
        rw [hother b hb]
      · intro b hb hrec
        rcases List.mem_cons.mp hb with rfl | hb
        · have hlt : b < (m.fire now b).count := by
            apply lt_of_lt_of_le _ hkeeps.count_le
            by_contra hge
            have := h.fresh b (by omega)
            simp [this] at hcb
          apply hkeeps'.cb_none b hlt (hdead hrec)
        · apply hdead' b hb
          rw [hother b hb, hrec]

/-- The hour of `detectClockRollover`, in milliseconds. -/
def hour : ℕ := 60 * 60 * 1000

/-- A time is taken for one after a rollover: it lies before the last one, and that one lies within
the first hour, or the difference is above an hour. -/
def RolledOver (m : TimerManager Cb) (now : ℕ) : Prop :=
  now < m.previouseTime ∧ (m.previouseTime < hour ∨ now + hour < m.previouseTime)

theorem detectClockRollover_iff (m : TimerManager Cb) (now : ℕ) (h : m.previouseTime < uint64Size) :
  (m.detectClockRollover now).1 = true ↔ m.RolledOver now
  := by
  simp only [detectClockRollover, RolledOver, hour, Bool.and_eq_true, decide_eq_true_eq]
  rw [uint64Size] at h ⊢
  omega

theorem splitExpired_append (m : TimerManager Cb) (rollover : Bool) (now probe : ℕ) :
  (m.splitExpired rollover now probe).1 ++ (m.splitExpired rollover now probe).2 = m.timers
  := by
  cases rollover with
  | true => simp [splitExpired]
  | false => simp [splitExpired, lowerBound, List.append_assoc, List.takeWhile_append_dropWhile]

/-- Without a rollover only timers that are due are taken out. -/
theorem splitExpired_due (m : TimerManager Cb) (now probe : ℕ) :
  ∀ h ∈ (m.splitExpired false now probe).1, (m.timer h).next ≤ now
  := by
  intro h hmem
  simp only [splitExpired, lowerBound, Bool.false_eq_true, if_false, List.mem_append] at hmem
  cases hmem with
  | inl hbefore =>
      have hless := List.mem_takeWhile_imp hbefore
      simp only [Timer.comparator] at hless
      split_ifs at hless <;> omega
  | inr hequal =>
      have hnow := List.mem_takeWhile_imp hequal
      simp only [decide_eq_true_eq] at hnow
      omega

/-- The timers `expired` are those that a call of `listExpiredCb` with the time `now` may take out of
the set and `left` those it may leave: it takes all of them after a rollover, and none that is not
due otherwise. -/
structure Expires (m : TimerManager Cb) (now : ℕ) (expired left : List ℕ) : Prop where
  split : m.timers = expired ++ left
  all : m.RolledOver now → left = []
  due : ¬ m.RolledOver now → ∀ h ∈ expired, (m.timer h).next ≤ now

/-- `listExpiredCb` takes some timers, possibly none, out at the front of the set and fires
them. -/
theorem listExpiredCb_eq (m : TimerManager Cb) (now probe : ℕ) :
  ∃ (t : ℕ) (expired left : List ℕ), m.timers = expired ++ left ∧
    (t = m.previouseTime ∨ t = now) ∧
    (m.previouseTime < uint64Size → m.Expires now expired left) ∧
    m.listExpiredCb now probe
      = fireAll now { m with timers := left, previouseTime := t } expired
  := by
  rw [TimerManager.listExpiredCb]
  split
  · rename_i hempty
    exact ⟨m.previouseTime, [], m.timers, rfl, Or.inl rfl,
      fun _ => ⟨rfl, fun _ => hempty, by simp⟩, rfl⟩
  · rename_i first rest htimers
    generalize hclock : m.detectClockRollover now = clock
    obtain ⟨rollover, m'⟩ := clock
    obtain rfl : { m with previouseTime := now } = m' := congrArg Prod.snd hclock
    have hroll : m.previouseTime < uint64Size → (rollover = true ↔ m.RolledOver now) := by
      intro hlt
      rw [← m.detectClockRollover_iff now hlt, hclock]
    dsimp only
    split
    · rename_i hnone
      obtain ⟨hno, -⟩ : rollover = false ∧ now < (m.timer first).next := by simpa using hnone
      refine ⟨now, [], m.timers, rfl, Or.inr rfl, fun hlt => ⟨rfl, ?_, by simp⟩, rfl⟩
      intro hover
      rw [← hroll hlt, hno] at hover
      simp at hover
    · have hsplit := splitExpired_append { m with previouseTime := now } rollover now probe
      refine ⟨now, _, _, hsplit.symm, Or.inr rfl, fun hlt => ⟨hsplit.symm, ?_, ?_⟩, rfl⟩
      · intro hover
        rw [← hroll hlt] at hover
        simp [hover, splitExpired]
      · intro hover
        rw [← hroll hlt, Bool.not_eq_true] at hover
        rw [hover]
        apply splitExpired_due

theorem map_fst_fireAll (now : ℕ) (m : TimerManager Cb) (expired : List ℕ) :
  (fireAll now m expired).1.map Prod.fst = expired
  := by
  induction expired generalizing m with
  | nil => rfl
  | cons h hs ih => simp [TimerManager.fireAll, ih]

theorem fire_previouseTime (now : ℕ) (m : TimerManager Cb) (h : ℕ) :
  (m.fire now h).previouseTime = m.previouseTime
  := by
  rw [TimerManager.fire]
  split <;> rfl

theorem fireAll_previouseTime (now : ℕ) (m : TimerManager Cb) (expired : List ℕ) :
  (fireAll now m expired).2.previouseTime = m.previouseTime
  := by
  induction expired generalizing m with
  | nil => rfl
  | cons h hs ih => rw [TimerManager.fireAll, ih, fire_previouseTime]

theorem listExpiredCb_previouseTime (m : TimerManager Cb) (now probe : ℕ) :
  (m.listExpiredCb now probe).2.previouseTime = m.previouseTime ∨
    (m.listExpiredCb now probe).2.previouseTime = now
  := by
  obtain ⟨t, expired, left, -, ht, -, heq⟩ := m.listExpiredCb_eq now probe
  rw [heq, fireAll_previouseTime]
  exact ht

/-- `listExpiredCb` returns callbacks of different timers, each of which had one, and those that
are not recurring have none afterwards. -/
theorem Inv.listExpiredCb {m : TimerManager Cb} (h : m.Inv []) (now probe : ℕ) :
  ∃ expired : List ℕ,
    (m.listExpiredCb now probe).1 = expired.map (fun a => (a, (m.timer a).cb)) ∧
    expired.Nodup ∧ (∀ a ∈ expired, (m.timer a).cb.isSome) ∧
    (m.listExpiredCb now probe).2.Inv [] ∧ Keeps m (m.listExpiredCb now probe).2 ∧
    ∀ a ∈ expired, (m.timer a).recurring = false →
      ((m.listExpiredCb now probe).2.timer a).cb = none
  := by
  obtain ⟨t, expired, left, hsplit, -, -, heq⟩ := m.listExpiredCb_eq now probe
  rw [heq]
  have hsorted := h.sorted
  rw [hsplit] at hsorted
  have hnodup := (List.nodup_append.mp (hsorted.nodup m.less_strictOrder)).1
  have hcb : ∀ a ∈ expired, (m.timer a).cb.isSome := by
    intro a ha
    have hmem : a ∈ m.timers := by simp [hsplit, ha]
    exact ((h.mem_iff a).mp hmem).1
  have hout : Inv { m with timers := left, previouseTime := t } expired :=
    (h.detach hsplit).of_eq rfl rfl rfl
  obtain ⟨hmap, hInv, hkeeps, hdead⟩ := hout.fireAll now hnodup hcb
  exact ⟨expired, hmap, hnodup, hcb, hInv,
    ⟨hkeeps.count_le, hkeeps.recurring_eq, hkeeps.cb_none⟩, hdead⟩

end TimerManager

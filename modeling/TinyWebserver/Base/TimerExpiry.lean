import TinyWebserver.Base.TimerInvariant

/-!
# Which timers expire

`listExpiredCb` cuts the set at the lower bound of a probe timer and goes on over the timers for the
present time. `listExpiredCb_exact` says that these are the timers that are due, whatever the addresses
are, and what becomes of them; `getNextTimer_agrees` that `getNextTimer` tells how long there are none.
Nothing is assumed about the callbacks: they may be null.
-/

universe u

namespace TimerManager

open OrderedSet

variable {Cb : Type u} {m : TimerManager Cb} {now probe : ℕ}

/-! ### Sets from which timers are taken out -/

/-- The set is sorted, the timers in `out` are not in it, and the addresses of all of them are
different. -/
structure Detached (m : TimerManager Cb) (out : List ℕ) : Prop where
  sorted : Sorted m.less m.timers
  nodup : out.Nodup
  disjoint : ∀ a ∈ out, a ∉ m.timers
  addr_inj : ∀ a b, a ∈ out ∨ a ∈ m.timers → b ∈ out ∨ b ∈ m.timers →
    (m.timer a).addr = (m.timer b).addr → a = b

theorem Inv.detached (h : m.Inv []) :
  m.Detached []
  := by
  refine ⟨h.sorted, List.nodup_nil, by simp, ?_⟩
  have hcb : ∀ a, a ∈ [] ∨ a ∈ m.timers → (m.timer a).cb.isSome := by
    rintro a (ha | ha)
    · cases ha
    · exact ((h.mem_iff a).mp ha).1
  intro a b ha hb
  apply h.addr_inj a b (hcb a ha) (hcb b hb)

theorem Detached.of_eq {m' : TimerManager Cb} {out : List ℕ} (h : m.Detached out)
    (htimer : m'.timer = m.timer) (htimers : m'.timers = m.timers) :
  m'.Detached out
  := by
  cases m
  cases m'
  obtain rfl := htimer
  obtain rfl := htimers
  exact ⟨h.sorted, h.nodup, h.disjoint, h.addr_inj⟩

/-- Taking the first timers out of the set. -/
theorem Detached.take {expired left : List ℕ} (h : m.Detached [])
    (hsplit : m.timers = expired ++ left) :
  Detached { m with timers := left } expired
  := by
  have hsorted := h.sorted
  rw [hsplit] at hsorted
  have hnodup := List.nodup_append.mp (hsorted.nodup m.less_strictOrder)
  refine ⟨(List.pairwise_append.mp hsorted).2.1, hnodup.1, ?_, ?_⟩
  · intro a ha hleft
    apply hnodup.2.2 a ha a hleft rfl
  · have hmem : ∀ a, a ∈ expired ∨ a ∈ left → a ∈ m.timers := by
      intro a ha
      rw [hsplit, List.mem_append]
      apply ha
    intro a b ha hb
    apply h.addr_inj a b (Or.inr (hmem a ha)) (Or.inr (hmem b hb))

/-- An assignment to the object of a timer that is not in the set leaves the set sorted. -/
theorem sorted_setTimer_of_notMem {a : ℕ} (h : Sorted m.less m.timers) (ha : a ∉ m.timers)
    (t : Timer Cb) :
  Sorted (m.setTimer a t).less m.timers
  := by
  have hother : ∀ b ∈ m.timers, (m.setTimer a t).timer b = m.timer b :=
    fun b hb => setTimer_of_ne m t (ne_of_mem_of_not_mem hb ha)
  apply h.congr
  intro b hb c hc
  apply less_congr
  · simp [hother b hb]
  · simp [hother c hc]

theorem addr_setTimer {a : ℕ} {t : Timer Cb} (haddr : t.addr = (m.timer a).addr) (b : ℕ) :
  ((m.setTimer a t).timer b).addr = (m.timer b).addr
  := by
  by_cases hb : b = a
  · simp [hb, haddr]
  · rw [setTimer_of_ne m t hb]

/-- A timer that was taken out can be put into the set: it is equivalent to none there. -/
theorem Detached.separates {a : ℕ} {out : List ℕ} (h : m.Detached (a :: out)) {t : Timer Cb}
    (haddr : t.addr = (m.timer a).addr) :
  Separates (m.setTimer a t).less a m.timers
  := by
  intro b hb
  have hne : ((m.setTimer a t).timer b).addr ≠ ((m.setTimer a t).timer a).addr := by
    rw [addr_setTimer haddr, addr_setTimer haddr]
    intro heq
    have hba := h.addr_inj b a (Or.inr hb) (Or.inl List.mem_cons_self) heq
    apply h.disjoint a List.mem_cons_self (hba ▸ hb)
  rw [less_iff, less_iff]
  omega

/-- A timer that was taken out gets another object, with the same address, and is put back or not. -/
theorem Detached.put {a : ℕ} {out : List ℕ} (h : m.Detached (a :: out)) {t : Timer Cb}
    (haddr : t.addr = (m.timer a).addr) (back : Bool) :
  Detached { m.setTimer a t with
    timers := if back then insert (m.setTimer a t).less a m.timers else m.timers } out
  := by
  have hseparates := h.separates haddr
  have hsorted := sorted_setTimer_of_notMem h.sorted (h.disjoint a List.mem_cons_self) t
  obtain ⟨ha, hnodup⟩ := List.nodup_cons.mp h.nodup
  have hmem : ∀ b, b ∈ (if back then insert (m.setTimer a t).less a m.timers else m.timers) →
      b = a ∨ b ∈ m.timers := by
    intro b hb
    cases back with
    | true => apply (hseparates.mem_insert b).mp hb
    | false => exact Or.inr hb
  refine ⟨?_, hnodup, ?_, ?_⟩
  · cases back with
    | true => apply hsorted.insert (m.setTimer a t).less_strictOrder hseparates
    | false => apply hsorted
  · intro b hb hback
    rcases hmem b hback with rfl | hb'
    · apply ha hb
    · apply h.disjoint b (List.mem_cons_of_mem a hb) hb'
  · have hall : ∀ b, (b ∈ out ∨
        b ∈ (if back then insert (m.setTimer a t).less a m.timers else m.timers)) →
        b ∈ a :: out ∨ b ∈ m.timers := by
      rintro b (hb | hb)
      · exact Or.inl (List.mem_cons_of_mem a hb)
      · rcases hmem b hb with rfl | hb
        · exact Or.inl List.mem_cons_self
        · exact Or.inr hb
    intro b c hb hc heq
    apply h.addr_inj b c (hall b hb) (hall c hc)
    rw [← addr_setTimer haddr, ← addr_setTimer (m := m) haddr c]
    apply heq

/-- The timer is put back if it is recurring. -/
theorem Detached.fire {a : ℕ} {out : List ℕ} (h : m.Detached (a :: out)) (now : ℕ) :
  (m.fire now a).Detached out ∧
    ∀ b, b ∈ (m.fire now a).timers ↔ b ∈ m.timers ∨ b = a ∧ (m.timer a).recurring = true
  := by
  rw [TimerManager.fire]
  split
  · rename_i hrec
    refine ⟨(h.put (t := { m.timer a with next := (now + (m.timer a).ms) % uint64Size }) rfl
      true).of_eq rfl rfl, ?_⟩
    intro b
    have hmem := (h.separates (t := { m.timer a with next := (now + (m.timer a).ms) % uint64Size })
      rfl).mem_insert b
    have hiff : b ∈ m.timers ∨ b = a ∧ (m.timer a).recurring = true ↔ b = a ∨ b ∈ m.timers := by
      simp [hrec, or_comm]
    rw [hiff]
    apply hmem
  · rename_i hrec
    refine ⟨(h.put (t := { m.timer a with cb := none }) rfl false).of_eq rfl rfl, ?_⟩
    intro b
    simp [hrec]

/-- Firing timers that were taken out puts the recurring ones back. -/
theorem Detached.fireAll {expired : List ℕ} (h : m.Detached expired) (now : ℕ) :
  (fireAll now m expired).1 = expired.map (fun a => (a, (m.timer a).cb)) ∧
    (fireAll now m expired).2.Detached [] ∧
    ∀ b, b ∈ (fireAll now m expired).2.timers ↔
      b ∈ m.timers ∨ b ∈ expired ∧ (m.timer b).recurring = true
  := by
  induction expired generalizing m with
  | nil => exact ⟨rfl, h, by simp [TimerManager.fireAll]⟩
  | cons a rest ih =>
      obtain ⟨ha, -⟩ := List.nodup_cons.mp h.nodup
      have hother : ∀ b ∈ rest, (m.fire now a).timer b = m.timer b :=
        fun b hb => fire_of_ne m now (ne_of_mem_of_not_mem hb ha)
      obtain ⟨hfire, hmem⟩ := h.fire now
      obtain ⟨hmap, hdetached, hmem'⟩ := ih hfire
      refine ⟨?_, hdetached, ?_⟩
      · simp only [TimerManager.fireAll, hmap, List.map_cons, List.cons.injEq, true_and]
        apply List.map_congr_left
        intro b hb
        rw [hother b hb]
      · intro b
        rw [TimerManager.fireAll, hmem', hmem, List.mem_cons]
        by_cases hb : b ∈ rest
        · have hne : b ≠ a := ne_of_mem_of_not_mem hb ha
          simp [hb, hother b hb, hne]
        · constructor
          · rintro ((hb' | ⟨rfl, hrec⟩) | ⟨hb', -⟩)
            · exact Or.inl hb'
            · exact Or.inr ⟨Or.inl rfl, hrec⟩
            · exact absurd hb' hb
          · rintro (hb' | ⟨rfl | hb', hrec⟩)
            · exact Or.inl (Or.inl hb')
            · exact Or.inl (Or.inr ⟨rfl, hrec⟩)
            · exact absurd hb' hb

/-! ### The cut -/

/-- The timers that are due, in the order of the set. -/
def due (m : TimerManager Cb) (now : ℕ) : List ℕ := m.timers.filter fun a => (m.timer a).next ≤ now

theorem mem_due {a : ℕ} :
  a ∈ m.due now ↔ a ∈ m.timers ∧ (m.timer a).next ≤ now
  := by
  simp [due]

theorem next_pairwise (h : Sorted m.less m.timers) :
  m.timers.Pairwise fun a b => (m.timer a).next ≤ (m.timer b).next
  := by
  apply List.Pairwise.imp _ h
  intro a b hab
  rw [less_iff] at hab
  omega

/-- A set that is cut into timers that are due and timers that are not. -/
theorem due_of_append {expired left : List ℕ} (hsplit : m.timers = expired ++ left)
    (hexpired : ∀ a ∈ expired, (m.timer a).next ≤ now) (hleft : ∀ a ∈ left, now < (m.timer a).next) :
  m.due now = expired
  := by
  have hall : expired.filter (fun a => (m.timer a).next ≤ now) = expired := by
    rw [List.filter_eq_self]
    simpa using hexpired
  have hnone : left.filter (fun a => (m.timer a).next ≤ now) = [] := by
    rw [List.filter_eq_nil_iff]
    simpa using hleft
  rw [due, hsplit, List.filter_append, hall, hnone, List.append_nil]

/-- If the first timer of a list sorted by deadlines is not due, then none is. -/
theorem lt_of_head_lt {a : ℕ} {rest : List ℕ}
    (h : (a :: rest).Pairwise fun a b => (m.timer a).next ≤ (m.timer b).next)
    (ha : now < (m.timer a).next) :
  ∀ b ∈ a :: rest, now < (m.timer b).next
  := by
  intro b hb
  rcases List.mem_cons.mp hb with rfl | hb
  · apply ha
  · apply lt_of_lt_of_le ha ((List.pairwise_cons.mp h).1 b hb)

/-- What `listExpiredCb` leaves in the set is not due. -/
theorem splitExpired_left (h : Sorted m.less m.timers) (now probe : ℕ) :
  ∀ a ∈ (m.splitExpired false now probe).2, now < (m.timer a).next
  := by
  have hnext := next_pairwise h
  simp only [splitExpired, lowerBound, Bool.false_eq_true, if_false]
  generalize hit : m.timers.dropWhile _ = it
  have hsub : it.Sublist m.timers := by
    rw [← hit]
    apply List.dropWhile_sublist
  have hge : ∀ a ∈ it, now ≤ (m.timer a).next := by
    cases it with
    | nil => simp
    | cons b rest =>
        have hhead := List.head?_dropWhile_not
          (fun a => Timer.comparator (some (m.timer a)) (some { addr := probe, next := now })) m.timers
        rw [hit] at hhead
        have hb : now ≤ (m.timer b).next := by
          by_contra hlt
          simp [Timer.comparator, not_le.mp hlt] at hhead
        intro a ha
        rcases List.mem_cons.mp ha with rfl | ha
        · apply hb
        · apply hb.trans ((List.pairwise_cons.mp (hnext.sublist hsub)).1 a ha)
  generalize hleft : it.dropWhile _ = left
  cases left with
  | nil => simp
  | cons b rest =>
      have hhead := List.head?_dropWhile_not (fun a => decide ((m.timer a).next = now)) it
      rw [hleft] at hhead
      have hsub' : (b :: rest).Sublist it := by
        rw [← hleft]
        apply List.dropWhile_sublist
      have hne : (m.timer b).next ≠ now := by simpa using hhead
      have hge' := hge b (hsub'.mem List.mem_cons_self)
      apply lt_of_head_lt (hnext.sublist (hsub'.trans hsub)) (by omega)

/-- Without a rollover `listExpiredCb` takes the timers out that are due and fires them. -/
theorem listExpiredCb_of_sorted (h : Sorted m.less m.timers)
    (hno : (m.detectClockRollover now).1 = false) (probe : ℕ) :
  ∃ t left, m.timers = m.due now ++ left ∧ (∀ a ∈ left, now < (m.timer a).next) ∧
    m.listExpiredCb now probe
      = TimerManager.fireAll now { m with timers := left, previouseTime := t } (m.due now)
  := by
  rw [listExpiredCb]
  split
  · rename_i hempty
    have hdue : m.due now = [] := by simp [due, hempty]
    refine ⟨m.previouseTime, [], by simp [hdue, hempty], by simp, ?_⟩
    rw [hdue, TimerManager.fireAll, ← hempty]
  · rename_i first rest htimers
    generalize hclock : m.detectClockRollover now = clock at hno
    obtain ⟨rollover, m'⟩ := clock
    obtain rfl : { m with previouseTime := now } = m' := congrArg Prod.snd hclock
    obtain rfl : rollover = false := hno
    dsimp only
    split
    · rename_i hnone
      have hlt : now < (m.timer first).next := by simpa using hnone
      have hall : ∀ a ∈ m.timers, now < (m.timer a).next := by
        have hnext := next_pairwise h
        rw [htimers] at hnext ⊢
        apply lt_of_head_lt hnext hlt
      have hsplit : m.timers = [] ++ m.timers := rfl
      have hdue : m.due now = [] := due_of_append hsplit (by simp) hall
      refine ⟨now, m.timers, by rw [hdue, List.nil_append], hall, ?_⟩
      rw [hdue, TimerManager.fireAll]
    · have hsplit := m.splitExpired_append false now probe
      have hleft := splitExpired_left h now probe
      have hdue := due_of_append hsplit.symm (m.splitExpired_due now probe) hleft
      refine ⟨now, (m.splitExpired false now probe).2, ?_, hleft, ?_⟩
      · rw [hdue, hsplit]
      · rw [hdue]
        rfl

/-- The outcome of a call of `listExpiredCb` that fires the timers that are due. -/
structure Expired (m : TimerManager Cb) (now : ℕ) (res : List (ℕ × Option Cb) × TimerManager Cb) :
    Prop where
  cbs : res.1 = (m.due now).map fun a => (a, (m.timer a).cb)
  detached : res.2.Detached []
  mem_iff : ∀ a, a ∈ res.2.timers ↔
    a ∈ m.timers ∧ (now < (m.timer a).next ∨ (m.timer a).recurring = true)
  kept : ∀ a, a ∉ m.due now → res.2.timer a = m.timer a
  fired : ∀ a ∈ m.due now, res.2.timer a =
    if (m.timer a).recurring then { m.timer a with next := (now + (m.timer a).ms) % uint64Size }
    else { m.timer a with cb := none }

theorem Detached.listExpiredCb (h : m.Detached []) (hno : (m.detectClockRollover now).1 = false)
    (probe : ℕ) :
  Expired m now (m.listExpiredCb now probe)
  := by
  obtain ⟨t, left, hsplit, hleft, heq⟩ := listExpiredCb_of_sorted h.sorted hno probe
  have hdetached : Detached { m with timers := left, previouseTime := t } (m.due now) :=
    (h.take hsplit).of_eq rfl rfl
  obtain ⟨hcbs, hafter, hmem⟩ := hdetached.fireAll now
  have hobject := fireAll_timer now { m with timers := left, previouseTime := t } hdetached.nodup
  rw [heq]
  refine ⟨hcbs, hafter, ?_, ?_, ?_⟩
  · intro a
    rw [hmem, mem_due]
    have hall : a ∈ m.timers ↔ a ∈ m.due now ∨ a ∈ left := by rw [hsplit, List.mem_append]
    rw [mem_due] at hall
    constructor
    · rintro (ha | ⟨ha, hrec⟩)
      · exact ⟨hall.mpr (Or.inr ha), Or.inl (hleft a ha)⟩
      · exact ⟨ha.1, Or.inr hrec⟩
    · rintro ⟨ha, hlt | hrec⟩
      · rcases hall.mp ha with hdue | ha
        · omega
        · exact Or.inl ha
      · rcases hall.mp ha with hdue | ha
        · exact Or.inr ⟨hdue, hrec⟩
        · exact Or.inl ha
  · intro a ha
    rw [hobject, if_neg ha]
  · intro a ha
    rw [hobject, if_pos ha, fire_timer_self]

/-- Without a rollover `listExpiredCb` returns the callbacks of the timers that are due, each once and by
their deadlines. Then the timers that were not due are in the set, as they were, and the recurring ones
with a new deadline; the others have lost their callback. -/
theorem listExpiredCb_exact (h : m.Detached []) (hno : (m.detectClockRollover now).1 = false)
    (probe : ℕ) :
  ∃ expired : List ℕ, (∀ a, a ∈ expired ↔ a ∈ m.timers ∧ (m.timer a).next ≤ now) ∧ expired.Nodup ∧
    (expired.Pairwise fun a b => (m.timer a).next ≤ (m.timer b).next) ∧
    ∃ m', m.listExpiredCb now probe = (expired.map (fun a => (a, (m.timer a).cb)), m') ∧
      (∀ a, a ∈ m'.timers ↔
        a ∈ m.timers ∧ (now < (m.timer a).next ∨ (m.timer a).recurring = true)) ∧
      m'.timers.Nodup ∧
      (∀ a, a ∉ expired → m'.timer a = m.timer a) ∧
      (∀ a ∈ expired, (m.timer a).recurring = true →
        m'.timer a = { m.timer a with next := (now + (m.timer a).ms) % uint64Size }) ∧
      ∀ a ∈ expired, (m.timer a).recurring = false → m'.timer a = { m.timer a with cb := none }
  := by
  have hres := h.listExpiredCb hno probe
  have hnodup := h.sorted.nodup m.less_strictOrder
  refine ⟨m.due now, fun a => mem_due, hnodup.filter _,
    (next_pairwise h.sorted).sublist List.filter_sublist, (m.listExpiredCb now probe).2, ?_,
    hres.mem_iff, hres.detached.sorted.nodup (less_strictOrder _), hres.kept, ?_, ?_⟩
  · rw [← hres.cbs]
  · intro a ha hrec
    rw [hres.fired a ha, if_pos hrec]
  · intro a ha hrec
    rw [hres.fired a ha, if_neg (by simp [hrec])]

/-- Two timers for the same time, the second one recurring and at the lower address. -/
def tiedTimers : TimerManager Unit :=
  ((new 0).addTimer 10 () false 0 2).addTimer 10 () true 0 1

theorem tiedTimers_inv :
  tiedTimers.Inv []
  := by
  have hfirst : ((new 0 : TimerManager Unit).addTimer 10 () false 0 2).Inv [] :=
    ((new_inv 0).addTimer 10 () false 0 (by simp [new])).1
  apply (hfirst.addTimer 10 () true 0 (by decide)).1

/-- Both of them expire at their time, for a probe timer between them. -/
theorem listExpiredCb_exact_tied :
  ∃ expired : List ℕ, 0 ∈ expired ∧ 1 ∈ expired ∧ expired.Nodup ∧
    ∃ m', tiedTimers.listExpiredCb 10 2
      = (expired.map (fun a => (a, (tiedTimers.timer a).cb)), m') ∧ 1 ∈ m'.timers ∧ 0 ∉ m'.timers
  := by
  have hno : (tiedTimers.detectClockRollover 10).1 = false := by decide
  obtain ⟨expired, hmem, hnodup, -, m', heq, hmem', -⟩ :=
    listExpiredCb_exact tiedTimers_inv.detached hno 2
  exact ⟨expired, (hmem 0).mpr (by decide), (hmem 1).mpr (by decide), hnodup, m', heq,
    (hmem' 1).mpr (by decide), fun h => absurd ((hmem' 0).mp h) (by decide)⟩

/-! ### The time until the next timer -/

theorem getNextTimer_keeps (m : TimerManager Cb) (t : ℕ) :
  (m.getNextTimer t).2 = { m with tickled := false }
  := by
  rw [getNextTimer]
  dsimp only
  split <;> rfl

/-- The first timer of the set settles whether some timer is due. -/
theorem due_ne_nil_iff {first : ℕ} {rest : List ℕ} (h : Sorted m.less m.timers)
    (htimers : m.timers = first :: rest) :
  m.due now ≠ [] ↔ (m.timer first).next ≤ now
  := by
  constructor
  · intro hne
    obtain ⟨a, ha⟩ := List.exists_mem_of_ne_nil _ hne
    rw [mem_due, htimers] at ha
    by_contra hlt
    have hnext := next_pairwise h
    rw [htimers] at hnext
    have := lt_of_head_lt hnext (not_le.mp hlt) a ha.1
    omega
  · intro hle
    have hmem : first ∈ m.due now := by simp [mem_due, htimers, hle]
    apply List.ne_nil_of_mem hmem

/-- With a clock that does not go back, `getNextTimer` tells how long `listExpiredCb` returns nothing, and
`~0ull` only if there is no timer. -/
theorem getNextTimer_agrees {t : ℕ} (h : m.Detached []) (hprevious : m.previouseTime ≤ t)
    (hnext : ∀ a ∈ m.timers, (m.timer a).next < uint64Size - 1) :
  (m.timers ≠ [] → ∀ t' ≥ t, ∀ probe,
    ((m.getNextTimer t).2.listExpiredCb t' probe).1 ≠ [] ↔ t' ≥ t + (m.getNextTimer t).1) ∧
    ((m.getNextTimer t).1 = uint64Size - 1 ↔ m.timers = [])
  := by
  cases htimers : m.timers with
  | nil => simp [getNextTimer, htimers]
  | cons first rest =>
      have hfirst := hnext first (by simp [htimers])
      have hvalue : (m.getNextTimer t).1
          = if (m.timer first).next ≤ t then 0 else (m.timer first).next - t := by
        simp [getNextTimer, htimers]
      constructor
      · intro _ t' ht' probe
        have hno : (({ m with tickled := false } : TimerManager Cb).detectClockRollover t').1
            = false := by
          have hge : ¬ t' < m.previouseTime := by omega
          simp [detectClockRollover, hge]
        have hkeeps : Detached { m with tickled := false } [] := h.of_eq rfl rfl
        have hcbs := (hkeeps.listExpiredCb hno probe).cbs
        rw [getNextTimer_keeps, hcbs, hvalue, ne_eq, List.map_eq_nil_iff, ← ne_eq,
          due_ne_nil_iff hkeeps.sorted htimers]
        dsimp only
        split <;> omega
      · rw [hvalue]
        simp only [reduceCtorEq, iff_false]
        split
        · decide
        · omega

/-- The timers of `tiedTimers` are due at their time. -/
theorem getNextTimer_agrees_tied :
  ((tiedTimers.getNextTimer 3).2.listExpiredCb 10 2).1 ≠ [] ↔ 10 ≥ 3 + (tiedTimers.getNextTimer 3).1
  := (getNextTimer_agrees tiedTimers_inv.detached (by decide) (by decide)).1 (by decide) 10
    (by decide) 2

end TimerManager

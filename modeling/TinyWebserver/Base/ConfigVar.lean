import TinyWebserver.Lib.Transition

/-!
# Variables of the configuration

The class `ConfigVar` of `base/config.h`: a value with listeners. `SetValue` compares the new value with
the old one and calls the listeners with both, under the lock for reading, gives the lock back, and takes
it again for writing to assign the value. So the calls of several threads may all notify before one of them
assigns, and then what the listeners are told is not what happens to the value, `notified_and_lost`.

In every run in which no thread finds a different value while another is between its comparison and its
assignment, the notifications of each listener form a chain from the value at the start, or at its
registration, to the value at the end, `run_chained`.
-/

universe u v

namespace ConfigVar

open Transition

/-- Where a thread is in `SetValue`: it calls the listeners that are left, under the lock for reading, or
waits for the lock to assign the value. -/
inductive Phase (V : Type v) where
  | notifying (value : V) (keys : List ℕ)
  | assigning (value : V)

/-- The class `ConfigVar`, with the number of threads that hold the lock for reading, the calls of
`SetValue`, and for each listener the value at its registration and the notifications so far, each with the
old and the new value. -/
structure State (T : Type u) (V : Type v) where
  val : V
  cbs : List ℕ
  funId : ℕ
  readers : ℕ
  calls : T → Option (Phase V)
  since : ℕ → V
  log : ℕ → List (V × V)

/-- A step: a thread calls `SetValue` and compares, calls the next listener, unlocks, or assigns the value,
or a listener is added or deleted. -/
inductive Step (T : Type u) (V : Type v) where
  | setValue (thread : T) (value : V)
  | notify (thread : T)
  | unlock (thread : T)
  | assign (thread : T)
  | addListener
  | delListener (key : ℕ)

variable {T : Type u} {V : Type v} [DecidableEq T] [BEq V]

/-- One step, with `none` if it has to wait for the lock. -/
def step (s : State T V) : Step T V → Option (State T V)
  | .setValue thread value =>
      match s.calls thread with
      | none =>
          if value == s.val then some s
          else some { s with
            readers := s.readers + 1
            calls := Function.update s.calls thread (some (.notifying value s.cbs)) }
      | some _ => none
  | .notify thread =>
      match s.calls thread with
      | some (.notifying value (key :: keys)) =>
          some { s with
            calls := Function.update s.calls thread (some (.notifying value keys))
            log := Function.update s.log key (s.log key ++ [(s.val, value)]) }
      | _ => none
  | .unlock thread =>
      match s.calls thread with
      | some (.notifying value []) =>
          some { s with
            readers := s.readers - 1
            calls := Function.update s.calls thread (some (.assigning value)) }
      | _ => none
  | .assign thread =>
      match s.calls thread with
      | some (.assigning value) =>
          if s.readers = 0 then
            some { s with val := value, calls := Function.update s.calls thread none }
          else none
      | _ => none
  | .addListener =>
      if s.readers = 0 then
        some { s with
          funId := s.funId + 1
          cbs := s.cbs ++ [s.funId + 1]
          since := Function.update s.since (s.funId + 1) s.val
          log := Function.update s.log (s.funId + 1) [] }
      else none
  | .delListener key =>
      if s.readers = 0 then some { s with cbs := s.cbs.erase key } else none

/-- A variable with a value and a number of listeners. -/
def start (value : V) (n : ℕ) : State T V :=
  { val := value
    cbs := List.range' 1 n
    funId := n
    readers := 0
    calls := fun _ => none
    since := fun _ => value
    log := fun _ => [] }

/-! ### The steps, read backwards -/

variable {s s' : State T V}

theorem step_setValue {thread : T} {value : V} (h : step s (.setValue thread value) = some s') :
  ((value == s.val) = true ∧ s' = s) ∨
    (value == s.val) = false ∧ s.calls thread = none ∧ s' = { s with
      readers := s.readers + 1
      calls := Function.update s.calls thread (some (.notifying value s.cbs)) }
  := by
  rw [step] at h
  split at h
  · rename_i hnone
    split at h
    · rename_i hsame
      exact Or.inl ⟨hsame, (Option.some.inj h).symm⟩
    · rename_i hdiffers
      exact Or.inr ⟨by simpa using hdiffers, hnone, (Option.some.inj h).symm⟩
  · simp at h

theorem step_notify {thread : T} (h : step s (.notify thread) = some s') :
  ∃ value key keys, s.calls thread = some (.notifying value (key :: keys)) ∧ s' = { s with
    calls := Function.update s.calls thread (some (.notifying value keys))
    log := Function.update s.log key (s.log key ++ [(s.val, value)]) }
  := by
  rw [step] at h
  split at h
  · rename_i value key keys hcall
    exact ⟨value, key, keys, hcall, (Option.some.inj h).symm⟩
  · simp at h

theorem step_unlock {thread : T} (h : step s (.unlock thread) = some s') :
  ∃ value, s.calls thread = some (.notifying value []) ∧ s' = { s with
    readers := s.readers - 1
    calls := Function.update s.calls thread (some (.assigning value)) }
  := by
  rw [step] at h
  split at h
  · rename_i value hcall
    exact ⟨value, hcall, (Option.some.inj h).symm⟩
  · simp at h

theorem step_assign {thread : T} (h : step s (.assign thread) = some s') :
  ∃ value, s.calls thread = some (.assigning value) ∧
    s' = { s with val := value, calls := Function.update s.calls thread none }
  := by
  rw [step] at h
  split at h
  · rename_i value hcall
    split at h
    · exact ⟨value, hcall, (Option.some.inj h).symm⟩
    · simp at h
  · simp at h

theorem step_addListener (h : step s .addListener = some s') :
  s' = { s with
    funId := s.funId + 1
    cbs := s.cbs ++ [s.funId + 1]
    since := Function.update s.since (s.funId + 1) s.val
    log := Function.update s.log (s.funId + 1) [] }
  := by
  rw [step] at h
  split at h
  · exact (Option.some.inj h).symm
  · simp at h

theorem step_delListener {key : ℕ} (h : step s (.delListener key) = some s') :
  s.readers = 0 ∧ s' = { s with cbs := s.cbs.erase key }
  := by
  rw [step] at h
  split at h
  · rename_i hfree
    exact ⟨hfree, (Option.some.inj h).symm⟩
  · simp at h

/-! ### What the listeners are told -/

/-- Each old value of the notifications is the new value of the one before, from the first value to the
last. -/
def Chain : V → List (V × V) → V → Prop
  | first, [], last => first = last
  | first, (old, new) :: rest, last => old = first ∧ Chain new rest last

omit [BEq V] in
theorem Chain.concat {first last : V} {log : List (V × V)} (h : Chain first log last) (value : V) :
  Chain first (log ++ [(last, value)]) value
  := by
  induction log generalizing first with
  | nil =>
      obtain rfl : first = last := h
      exact ⟨rfl, rfl⟩
  | cons entry rest ih =>
      obtain ⟨hold, hrest⟩ := h
      exact ⟨hold, ih hrest⟩

/-- No thread is between its comparison and its assignment. -/
def Quiet (s : State T V) : Prop := ∀ thread, s.calls thread = none

instance Quiet.decidable [Fintype T] (s : State T V) : Decidable (Quiet s) :=
  inferInstanceAs (Decidable (∀ thread, s.calls thread = none))

/-- A thread finds a different value, or a listener is added, only while no other thread is between its
comparison and its assignment. -/
def Alone (s : State T V) : Step T V → Prop
  | .setValue _ value => (value == s.val) = false → Quiet s
  | .addListener => Quiet s
  | _ => True

instance Alone.decidable [Fintype T] (s : State T V) : ∀ l, Decidable (Alone s l)
  | .setValue _ value => inferInstanceAs (Decidable ((value == s.val) = false → Quiet s))
  | .addListener => inferInstanceAs (Decidable (Quiet s))
  | .notify _ | .unlock _ | .assign _ | .delListener _ => inferInstanceAs (Decidable True)

/-- The notifications of a listener lead to a value. -/
def Told (s : State T V) (key : ℕ) (value : V) : Prop := Chain (s.since key) (s.log key) value

/-- What the listeners know: all of them the value, or, while one thread is on its way, those that it has
called its new value. -/
inductive Known (s : State T V) : Prop
  | quiet (hquiet : Quiet s) (htold : ∀ key ∈ s.cbs, Told s key s.val)
  | notifying (thread : T) (value : V) (called keys : List ℕ)
      (hcall : s.calls thread = some (.notifying value keys))
      (hothers : ∀ thread' ≠ thread, s.calls thread' = none)
      (hcbs : s.cbs = called ++ keys) (hreaders : s.readers ≠ 0)
      (hcalled : ∀ key ∈ called, Told s key value) (hkeys : ∀ key ∈ keys, Told s key s.val)
  | assigning (thread : T) (value : V) (hcall : s.calls thread = some (.assigning value))
      (hothers : ∀ thread' ≠ thread, s.calls thread' = none)
      (htold : ∀ key ∈ s.cbs, Told s key value)

/-- The numbers of the listeners are different and not above the last one. -/
structure Inv (s : State T V) : Prop where
  nodup : s.cbs.Nodup
  le_funId : ∀ key ∈ s.cbs, key ≤ s.funId
  known : Known s

omit [DecidableEq T] [BEq V] in
/-- A thread that is on its way is the only one. -/
theorem eq_of_others {thread thread' : T} (hothers : ∀ t ≠ thread', s.calls t = none)
    {phase : Phase V} (hcall : s.calls thread = some phase) :
  thread = thread'
  := by
  by_contra hne
  rw [hothers thread hne] at hcall
  simp at hcall

omit [BEq V] in
theorem update_others {thread : T} (hothers : ∀ t ≠ thread, s.calls t = none) (call : Option (Phase V)) :
  ∀ t ≠ thread, Function.update s.calls thread call t = none
  := by
  intro t ht
  rw [Function.update_of_ne ht]
  apply hothers t ht

omit [DecidableEq T] [BEq V] in
/-- The next listener is told the new value, and the others are not told anything. -/
theorem told_notify (s s' : State T V) {value : V} {key : ℕ} (hsince : s'.since = s.since)
    (hlog : s'.log = Function.update s.log key (s.log key ++ [(s.val, value)])) :
  (Told s key s.val → Told s' key value) ∧
    ∀ key' ≠ key, ∀ value', Told s key' value' → Told s' key' value'
  := by
  constructor
  · intro htold
    rw [Told, hsince, hlog, Function.update_self]
    apply Chain.concat htold
  · intro key' hne value' htold
    rw [Told, hsince, hlog, Function.update_of_ne hne]
    apply htold

theorem Inv.setValue (h : Inv s) {thread : T} {value : V} (hl : Alone s (.setValue thread value))
    (hstep : step s (.setValue thread value) = some s') :
  Inv s'
  := by
  obtain ⟨-, rfl⟩ | ⟨hdiffers, -, rfl⟩ := step_setValue hstep
  · apply h
  have hquiet := hl hdiffers
  refine ⟨h.nodup, h.le_funId, ?_⟩
  cases h.known with
  | quiet _ htold =>
      refine Known.notifying thread value [] s.cbs ?_ ?_ rfl (Nat.succ_ne_zero _) (by simp) htold
      · apply Function.update_self
      · apply update_others fun t _ => hquiet t
  | notifying thread' value' called keys hcall => simp [hquiet thread'] at hcall
  | assigning thread' value' hcall => simp [hquiet thread'] at hcall

theorem Inv.notify (h : Inv s) {thread : T} (hstep : step s (.notify thread) = some s') :
  Inv s'
  := by
  obtain ⟨value, key, keys, hcall, rfl⟩ := step_notify hstep
  refine ⟨h.nodup, h.le_funId, ?_⟩
  cases h.known with
  | quiet hquiet => simp [hquiet thread] at hcall
  | notifying thread' value' called keys' hcall' hothers hcbs hreaders hcalled hkeys =>
      obtain rfl := eq_of_others hothers hcall
      obtain ⟨rfl, rfl⟩ : value' = value ∧ keys' = key :: keys := by
        simpa using hcall'.symm.trans hcall
      have hnodup := h.nodup
      rw [hcbs, List.nodup_middle, List.nodup_cons] at hnodup
      have hnot : key ∉ called ∧ key ∉ keys := by simpa using hnodup.1
      obtain ⟨htold, hsame⟩ := told_notify s
        { s with
          calls := Function.update s.calls thread (some (.notifying value' keys))
          log := Function.update s.log key (s.log key ++ [(s.val, value')]) } rfl rfl
      refine Known.notifying thread value' (called ++ [key]) keys ?_ ?_ (by simp [hcbs]) hreaders ?_ ?_
      · apply Function.update_self
      · apply update_others hothers
      · intro key' hkey'
        rcases List.mem_append.mp hkey' with hmem | hmem
        · apply hsame key' (by rintro rfl; exact hnot.1 hmem)
          apply hcalled key' hmem
        · obtain rfl := List.mem_singleton.mp hmem
          apply htold (hkeys _ List.mem_cons_self)
      · intro key' hmem
        apply hsame key' (by rintro rfl; exact hnot.2 hmem)
        apply hkeys key' (List.mem_cons_of_mem _ hmem)
  | assigning thread' value' hcall' hothers =>
      obtain rfl := eq_of_others hothers hcall
      simp [hcall'] at hcall

theorem Inv.unlock (h : Inv s) {thread : T} (hstep : step s (.unlock thread) = some s') :
  Inv s'
  := by
  obtain ⟨value, hcall, rfl⟩ := step_unlock hstep
  refine ⟨h.nodup, h.le_funId, ?_⟩
  cases h.known with
  | quiet hquiet => simp [hquiet thread] at hcall
  | notifying thread' value' called keys hcall' hothers hcbs hreaders hcalled hkeys =>
      obtain rfl := eq_of_others hothers hcall
      obtain ⟨rfl, rfl⟩ : value' = value ∧ keys = [] := by simpa using hcall'.symm.trans hcall
      apply Known.assigning thread value'
      · apply Function.update_self
      · apply update_others hothers
      · intro key hkey
        apply hcalled key
        simpa [hcbs] using hkey
  | assigning thread' value' hcall' hothers =>
      obtain rfl := eq_of_others hothers hcall
      simp [hcall'] at hcall

theorem Inv.assign (h : Inv s) {thread : T} (hstep : step s (.assign thread) = some s') :
  Inv s'
  := by
  obtain ⟨value, hcall, rfl⟩ := step_assign hstep
  refine ⟨h.nodup, h.le_funId, ?_⟩
  cases h.known with
  | quiet hquiet => simp [hquiet thread] at hcall
  | notifying thread' value' called keys hcall' hothers =>
      obtain rfl := eq_of_others hothers hcall
      simp [hcall'] at hcall
  | assigning thread' value' hcall' hothers htold =>
      obtain rfl := eq_of_others hothers hcall
      obtain rfl : value' = value := by simpa using hcall'.symm.trans hcall
      apply Known.quiet _ htold
      intro t
      by_cases ht : t = thread
      · simp [ht]
      · apply update_others hothers none t ht

theorem Inv.addListener (h : Inv s) (hl : Alone s .addListener)
    (hstep : step s .addListener = some s') :
  Inv s'
  := by
  obtain rfl := step_addListener hstep
  have hnew : s.funId + 1 ∉ s.cbs := fun hmem => absurd (h.le_funId _ hmem) (by omega)
  refine ⟨?_, ?_, ?_⟩
  · simpa [List.nodup_append] using ⟨h.nodup, fun key hkey => by rintro rfl; exact hnew hkey⟩
  · intro key hkey
    rcases List.mem_append.mp hkey with hmem | hmem
    · apply (h.le_funId key hmem).trans (Nat.le_succ _)
    · obtain rfl := List.mem_singleton.mp hmem
      apply le_rfl
  · cases h.known with
    | quiet hquiet htold =>
        refine Known.quiet hquiet ?_
        intro key hkey
        rw [Told]
        rcases List.mem_append.mp hkey with hmem | hmem
        · have hne : key ≠ s.funId + 1 := by
            rintro rfl
            apply hnew hmem
          simp only [Function.update_of_ne hne]
          apply htold key hmem
        · obtain rfl := List.mem_singleton.mp hmem
          simp [Chain]
    | notifying thread value called keys hcall => simp [hl thread] at hcall
    | assigning thread value hcall => simp [hl thread] at hcall

theorem Inv.delListener (h : Inv s) {key : ℕ} (hstep : step s (.delListener key) = some s') :
  Inv s'
  := by
  obtain ⟨hfree, rfl⟩ := step_delListener hstep
  refine ⟨h.nodup.erase key, fun key' hkey' => h.le_funId key' (List.mem_of_mem_erase hkey'), ?_⟩
  cases h.known with
  | quiet hquiet htold =>
      exact Known.quiet hquiet fun key' hkey' => htold key' (List.mem_of_mem_erase hkey')
  | notifying thread value called keys hcall hothers hcbs hreaders => exact absurd hfree hreaders
  | assigning thread value hcall hothers htold =>
      exact Known.assigning thread value hcall hothers fun key' hkey' =>
        htold key' (List.mem_of_mem_erase hkey')

theorem Inv.step (h : Inv s) {l : Step T V} (hl : Alone s l) (hstep : step s l = some s') :
  Inv s'
  := by
  cases l with
  | setValue thread value => apply h.setValue hl hstep
  | notify thread => apply h.notify hstep
  | unlock thread => apply h.unlock hstep
  | assign thread => apply h.assign hstep
  | addListener => apply h.addListener hl hstep
  | delListener key => apply h.delListener hstep

omit [DecidableEq T] [BEq V] in
theorem start_inv (value : V) (n : ℕ) :
  Inv (start value n : State T V)
  := by
  refine ⟨List.nodup_range', ?_, Known.quiet (fun _ => rfl) fun _ _ => rfl⟩
  intro key hkey
  have hlt := (List.mem_range'_1.mp hkey).2
  simp only [start]
  omega

omit [DecidableEq T] [BEq V] in
/-- What a listener was told is a chain, which leads to the value if no thread is on its way. -/
theorem Inv.told (h : Inv s) {key : ℕ} (hkey : key ∈ s.cbs) :
  (∃ last, Told s key last) ∧ (Quiet s → Told s key s.val)
  := by
  cases h.known with
  | quiet hquiet htold => exact ⟨⟨_, htold key hkey⟩, fun _ => htold key hkey⟩
  | notifying thread value called keys hcall hothers hcbs hreaders hcalled hkeys =>
      refine ⟨?_, fun hquiet => by simp [hquiet thread] at hcall⟩
      rw [hcbs] at hkey
      rcases List.mem_append.mp hkey with hmem | hmem
      · exact ⟨_, hcalled key hmem⟩
      · exact ⟨_, hkeys key hmem⟩
  | assigning thread value hcall hothers htold =>
      exact ⟨⟨_, htold key hkey⟩, fun hquiet => by simp [hquiet thread] at hcall⟩

/-- A listener that was there at the start was there at the value of the start. -/
theorem since_step {value : V} {n : ℕ}
    (h : n ≤ s.funId ∧ ∀ key ≤ n, s.since key = value) {l : Step T V} (hstep : step s l = some s') :
  n ≤ s'.funId ∧ ∀ key ≤ n, s'.since key = value
  := by
  cases l with
  | setValue thread value =>
      obtain ⟨-, rfl⟩ | ⟨-, -, rfl⟩ := step_setValue hstep
      · apply h
      · apply h
  | notify thread =>
      obtain ⟨value, key, keys, -, rfl⟩ := step_notify hstep
      apply h
  | unlock thread =>
      obtain ⟨value, -, rfl⟩ := step_unlock hstep
      apply h
  | assign thread =>
      obtain ⟨value, -, rfl⟩ := step_assign hstep
      apply h
  | addListener =>
      obtain rfl := step_addListener hstep
      refine ⟨h.1.trans (Nat.le_succ _), ?_⟩
      intro key hkey
      have hne : key ≠ s.funId + 1 := by omega
      simp only [Function.update_of_ne hne]
      apply h.2 key hkey
  | delListener key =>
      obtain ⟨-, rfl⟩ := step_delListener hstep
      apply h

/-- In every run in which a thread finds a different value only while no other one is between its comparison
and its assignment, the notifications of every listener form a chain, from the value at the start, or at its
registration, and to the value of the variable whenever no thread is between its comparison and its
assignment. -/
theorem run_chained {value : V} {n : ℕ} {ls : List (Step T V)}
    (halone : Guarded step Alone (start value n) ls)
    (h : run step (start value n) ls = some s) :
  ∀ key ∈ s.cbs, (key ≤ n → s.since key = value) ∧
    (∃ last, Chain (s.since key) (s.log key) last) ∧
      (Quiet s → Chain (s.since key) (s.log key) s.val)
  := by
  have hInv : Inv s :=
    run_guarded_invariant (fun _ _ _ hs hl hstep => hs.step hl hstep) (start_inv value n) halone h
  have hsince : n ≤ s.funId ∧ ∀ key ≤ n, s.since key = value :=
    run_invariant (fun _ _ _ hs hstep => since_step hs hstep) ⟨le_rfl, fun _ _ => rfl⟩ h
  intro key hkey
  exact ⟨hsince.2 key, hInv.told hkey⟩

/-- Two threads set the value one after the other, and a second listener comes in between. -/
def inTurn : List (Step Bool ℕ) :=
  [.setValue false 5, .notify false, .unlock false, .assign false, .addListener,
    .setValue true 7, .notify true, .notify true, .unlock true, .assign true]

theorem run_chained_inTurn :
  ∃ s : State Bool ℕ, run step (start 0 1) inTurn = some s ∧
    (s.val, s.log 1, s.log 2) = (7, [(0, 5), (5, 7)], [(5, 7)]) ∧
    ∀ key ∈ s.cbs, (key ≤ 1 → s.since key = 0) ∧
      (∃ last, Chain (s.since key) (s.log key) last) ∧
        (Quiet s → Chain (s.since key) (s.log key) s.val)
  := by
  have halone : Guarded step Alone (start 0 1) inTurn := by decide
  have hrun : (run step (start 0 1) inTurn).map (fun s => (s.val, s.log 1, s.log 2))
      = some (7, [(0, 5), (5, 7)], [(5, 7)]) := by decide
  obtain ⟨s, hs, hfields⟩ := Option.map_eq_some_iff.mp hrun
  exact ⟨s, hs, hfields, run_chained halone hs⟩

/-- Two threads set different values at the same time. -/
def atOnce : List (Step Bool ℕ) :=
  [.setValue false 5, .setValue true 7, .notify false, .notify true, .unlock false, .unlock true,
    .assign true, .assign false]

/-- The listener is told twice that the first value is replaced, and the last thing it is told is not the
value in the end. -/
theorem notified_and_lost :
  ∃ s : State Bool ℕ, run step (start 0 1) atOnce = some s ∧ Quiet s ∧ 1 ∈ s.cbs ∧ s.val = 5 ∧
    s.log 1 = [(0, 5), (0, 7)] ∧ (¬ ∃ last, Chain 0 (s.log 1) last)
  := by
  have hrun : (run step (start 0 1) atOnce).map (fun s => (decide (Quiet s), s.cbs, s.val, s.log 1))
      = some (true, [1], 5, [(0, 5), (0, 7)]) := by decide
  obtain ⟨s, hs, hfields⟩ := Option.map_eq_some_iff.mp hrun
  simp only [Prod.mk.injEq, decide_eq_true_eq] at hfields
  obtain ⟨hquiet, hcbs, hval, hlog⟩ := hfields
  refine ⟨s, hs, hquiet, by simp [hcbs], hval, hlog, ?_⟩
  rintro ⟨last, hchain⟩
  simp [hlog, Chain] at hchain

end ConfigVar

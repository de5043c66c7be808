import Mathlib.Tactic

/-!
# Runs of partial step functions

A system is given by a step function `step : σ → ℓ → Option σ`, where `step s l = none` means
that the step `l` is not possible in `s`, or that it ends in a failed assertion. `run` takes a
list of labels from a state, `Guarded` says that every label of a run meets a condition on the
state in which it is taken, and the rules `run_invariant`, `run_guarded_invariant` and
`run_total` derive facts about whole runs from facts about one step. Where a property of the run so
far survives a step exactly if the label meets the condition, `run_guarded_iff` says that it holds
at the end exactly if all labels did, and `run_legal_iff` the same of the runs with another condition on
their labels. `run_simulates` carries runs over to another system.
-/

namespace Transition

variable {σ ℓ : Type*} (step : σ → ℓ → Option σ)

/-- The state reached from `s` by the labels `ls`, in order. -/
def run : σ → List ℓ → Option σ
  | s, [] => some s
  | s, l :: ls => (step s l).bind fun s' => run s' ls

@[simp]
theorem run_nil (s : σ) :
  run step s [] = some s
  := rfl

@[simp]
theorem run_cons (s : σ) (l : ℓ) (ls : List ℓ) :
  run step s (l :: ls) = (step s l).bind fun s' => run step s' ls
  := rfl

/-- Every label of the run from `s` meets `ok` in the state in which it is taken. -/
def Guarded (ok : σ → ℓ → Prop) : σ → List ℓ → Prop
  | _, [] => True
  | s, l :: ls => ok s l ∧ ∀ s', step s l = some s' → Guarded ok s' ls

instance Guarded.decidable (ok : σ → ℓ → Prop) [∀ s l, Decidable (ok s l)] :
    ∀ s ls, Decidable (Guarded step ok s ls)
  | _, [] => inferInstanceAs (Decidable True)
  | s, l :: ls =>
      match h : step s l with
      | none => decidable_of_iff (ok s l) (by simp [Guarded, h])
      | some s' =>
          haveI := Guarded.decidable ok s' ls
          decidable_of_iff (ok s l ∧ Guarded step ok s' ls) (by simp [Guarded, h])

variable {step}

/-- A condition on the labels alone. -/
theorem guarded_of_forall {ok : ℓ → Prop} :
  ∀ {s : σ} {ls : List ℓ}, (∀ l ∈ ls, ok l) → Guarded step (fun _ => ok) s ls
  | _, [], _ => trivial
  | _, l :: _, h =>
      ⟨h l List.mem_cons_self, fun _ _ => guarded_of_forall fun l hl => h l (List.mem_cons_of_mem _ hl)⟩

/-- A condition that follows from another one. -/
theorem Guarded.mono {ok ok' : σ → ℓ → Prop} (h : ∀ s l, ok s l → ok' s l) :
  ∀ {s : σ} {ls : List ℓ}, Guarded step ok s ls → Guarded step ok' s ls
  | _, [], _ => trivial
  | _, _ :: _, ⟨hok, hrest⟩ => ⟨h _ _ hok, fun s' hstep => (hrest s' hstep).mono h⟩

/-- Two conditions on the labels of one run. -/
theorem Guarded.and {ok ok' : σ → ℓ → Prop} :
  ∀ {s : σ} {ls : List ℓ}, Guarded step ok s ls → Guarded step ok' s ls →
    Guarded step (fun s l => ok s l ∧ ok' s l) s ls
  | _, [], _, _ => trivial
  | _, _ :: _, ⟨hok, hrest⟩, ⟨hok', hrest'⟩ =>
      ⟨⟨hok, hok'⟩, fun s' hstep => (hrest s' hstep).and (hrest' s' hstep)⟩

/-- The last label of a run whose labels all meet `ok` meets it in the state reached before it. -/
theorem Guarded.last {ok : σ → ℓ → Prop} {l : ℓ} :
  ∀ {s t : σ} {ls : List ℓ}, Guarded step ok s (ls ++ [l]) → run step s ls = some t → ok t l
  | s, t, [], h, hrun => by
      obtain rfl : s = t := by simpa using hrun
      exact h.1
  | s, t, l' :: ls, h, hrun => by
      obtain ⟨u, hu, hrest⟩ := Option.bind_eq_some_iff.mp hrun
      apply Guarded.last (h.2 u hu) hrest

/-- A predicate kept by every step whose label meets `ok` holds at the end of every run whose
labels all meet `ok`. -/
theorem run_guarded_invariant {ok : σ → ℓ → Prop} {Inv : σ → Prop}
    (hstep : ∀ s l s', Inv s → ok s l → step s l = some s' → Inv s') :
  ∀ {s s' : σ} {ls : List ℓ}, Inv s → Guarded step ok s ls → run step s ls = some s' → Inv s'
  | s, s', [], hs, _, h => by
      obtain rfl : s = s' := by simpa using h
      apply hs
  | s, s', l :: ls, hs, ⟨hok, hrest⟩, h => by
      obtain ⟨t, ht, hrun⟩ := Option.bind_eq_some_iff.mp h
      apply run_guarded_invariant hstep (hstep s l t hs hok ht) (hrest t ht) hrun

/-- Where every label that meets `ok` also meets `ok'`, in the states with a predicate that the labels
which meet `ok` keep, a possible run whose labels all meet `ok` is one whose labels all meet `ok'`. -/
theorem Guarded.imp {ok ok' : σ → ℓ → Prop} (Inv : σ → Prop)
    (hstep : ∀ s l s', Inv s → ok s l → step s l = some s' → Inv s' ∧ ok' s l) :
  ∀ {s s' : σ} {ls : List ℓ}, Inv s → Guarded step ok s ls → run step s ls = some s' →
    Guarded step ok' s ls
  | _, _, [], _, _, _ => trivial
  | s, s', l :: ls, hs, ⟨hok, hrest⟩, h => by
      obtain ⟨t, ht, hrun⟩ := Option.bind_eq_some_iff.mp h
      obtain ⟨hInv, hok'⟩ := hstep s l t hs hok ht
      refine ⟨hok', ?_⟩
      intro u hu
      obtain rfl : t = u := Option.some.inj (ht.symm.trans hu)
      apply Guarded.imp Inv hstep hInv (hrest t ht) hrun

/-- Two conditions that agree in the states with a predicate which the labels that meet them keep. -/
theorem guarded_congr {ok ok' : σ → ℓ → Prop} (Inv : σ → Prop)
    (hok : ∀ s l, Inv s → (ok s l ↔ ok' s l))
    (hstep : ∀ s l s', Inv s → ok' s l → step s l = some s' → Inv s') :
  ∀ {s : σ} {ls : List ℓ}, Inv s → (Guarded step ok s ls ↔ Guarded step ok' s ls)
  | _, [], _ => Iff.rfl
  | s, l :: ls, hs => by
      simp only [Guarded]
      rw [hok s l hs]
      apply and_congr_right
      intro hl
      apply forall_congr'
      intro s'
      apply imp_congr_right
      intro h
      apply guarded_congr Inv hok hstep (hstep s l s' hs hl h)

/-- A predicate kept by every step holds at the end of every run. -/
theorem run_invariant {Inv : σ → Prop}
    (hstep : ∀ s l s', Inv s → step s l = some s' → Inv s') {s s' : σ} {ls : List ℓ}
    (hs : Inv s) (h : run step s ls = some s') :
  Inv s'
  := by
  have hguard : Guarded step (fun _ _ => True) s ls := guarded_of_forall fun _ _ => trivial
  apply run_guarded_invariant (fun s l s' hs _ => hstep s l s' hs) hs hguard h

theorem run_append (s : σ) (ls ls' : List ℓ) :
  run step s (ls ++ ls') = (run step s ls).bind fun s' => run step s' ls'
  := by
  induction ls generalizing s with
  | nil => rfl
  | cons l ls ih =>
      rw [List.cons_append, run_cons, run_cons, Option.bind_assoc]
      congr 1
      funext s'
      apply ih

/-- If every step is matched by a run of another system, then every run is. -/
theorem run_simulates {τ ℓ' : Type*} {step' : τ → ℓ' → Option τ} (f : σ → τ) {Inv : σ → Prop}
    (hInv : ∀ s l s', Inv s → step s l = some s' → Inv s')
    (hstep : ∀ s l s', Inv s → step s l = some s' → ∃ ls', run step' (f s) ls' = some (f s')) :
  ∀ {s s' : σ} {ls : List ℓ}, Inv s → run step s ls = some s' →
    ∃ ls', run step' (f s) ls' = some (f s')
  | s, s', [], _, h => by
      obtain rfl : s = s' := by simpa using h
      exact ⟨[], rfl⟩
  | s, s', l :: ls, hs, h => by
      obtain ⟨t, ht, hrun⟩ := Option.bind_eq_some_iff.mp h
      obtain ⟨first, hfirst⟩ := hstep s l t hs ht
      obtain ⟨rest, hrest⟩ := run_simulates f hInv hstep (hInv s l t hs ht) hrun
      use first ++ rest
      rw [run_append, hfirst]
      exact hrest

/-- If every step whose label meets `ok` is possible and keeps a predicate, then every run whose
labels all meet `ok` is possible and ends in a state with the predicate. -/
theorem run_total {ok : σ → ℓ → Prop} {Inv : σ → Prop}
    (hstep : ∀ s l, Inv s → ok s l → ∃ s', step s l = some s' ∧ Inv s') :
  ∀ {s : σ} {ls : List ℓ}, Inv s → Guarded step ok s ls → ∃ s', run step s ls = some s' ∧ Inv s'
  | s, [], hs, _ => ⟨s, rfl, hs⟩
  | s, l :: ls, hs, ⟨hok, hrest⟩ => by
      obtain ⟨t, ht, hInv⟩ := hstep s l hs hok
      obtain ⟨s', hrun, hs'⟩ := run_total hstep hInv (hrest t ht)
      use s'
      simp [ht, hrun, hs']

/-- If a property survives a step whose label meets `legal` exactly if the label meets `ok`, then it holds
at the end of a run whose labels all meet `legal` exactly if it held at the start and they all meet
`ok`. -/
theorem run_legal_iff {legal ok : σ → ℓ → Prop} {Inv P : σ → Prop}
    (hInv : ∀ s l s', Inv s → legal s l → step s l = some s' → Inv s')
    (hP : ∀ s l s', Inv s → legal s l → step s l = some s' → (P s' ↔ P s ∧ ok s l)) :
  ∀ {s s' : σ} {ls : List ℓ}, Inv s → Guarded step legal s ls → run step s ls = some s' →
    (P s' ↔ P s ∧ Guarded step ok s ls)
  | s, s', [], _, _, h => by
      obtain rfl : s = s' := by simpa using h
      simp [Guarded]
  | s, s', l :: ls, hs, ⟨hl, hrest⟩, h => by
      obtain ⟨t, ht, hrun⟩ := Option.bind_eq_some_iff.mp h
      rw [run_legal_iff hInv hP (hInv s l t hs hl ht) (hrest t ht) hrun, hP s l t hs hl ht, and_assoc]
      simp [Guarded, ht]

/-- If a property survives a step exactly if its label meets `ok`, then it holds at the end of a run
exactly if it held at the start and all labels of the run meet `ok`. -/
theorem run_guarded_iff {ok : σ → ℓ → Prop} {Inv P : σ → Prop}
    (hInv : ∀ s l s', Inv s → step s l = some s' → Inv s')
    (hP : ∀ s l s', Inv s → step s l = some s' → (P s' ↔ P s ∧ ok s l)) {s s' : σ} {ls : List ℓ}
    (hs : Inv s) (h : run step s ls = some s') :
  P s' ↔ P s ∧ Guarded step ok s ls
  := by
  have hguard : Guarded step (fun _ _ => True) s ls := guarded_of_forall fun _ _ => trivial
  apply run_legal_iff (fun s l s' hs _ => hInv s l s' hs) (fun s l s' hs _ => hP s l s' hs) hs hguard h

end Transition

import Mathlib.Tactic
import Mathlib.Computability.StateTransition

/-!
# Loops that end

A loop is a step function `f : σ → Option σ` without labels, with the runs `Reaches f` and the final states
`eval f` of `StateTransition`. `eval_dom_of_rank`: a loop ends if each step decreases a rank.
`always_iff`: a property holds all along a run exactly if an outlook on it, which no step changes, holds at
the beginning.
-/

namespace Halting

open StateTransition

variable {σ : Type*} {f : σ → Option σ}

/-- A loop whose steps decrease a rank ends. -/
theorem eval_dom_of_rank (rank : σ → ℕ) (hrank : ∀ s s', f s = some s' → rank s' < rank s) (s : σ) :
  (eval f s).Dom
  := by
  induction hn : rank s using Nat.strong_induction_on generalizing s with
  | _ n ih =>
      cases hstep : f s with
      | none => apply Part.dom_iff_mem.mpr ⟨s, mem_eval.mpr ⟨.refl, hstep⟩⟩
      | some s' =>
          have hreaches : Reaches f s s' := .single hstep
          rw [reaches_eval hreaches]
          apply ih (rank s') _ s' rfl
          rw [← hn]
          apply hrank s s' hstep

/-- What every step preserves holds all along a run. -/
theorem reaches_invariant {Inv : σ → Prop} (hstep : ∀ s s', Inv s → f s = some s' → Inv s') {s t : σ}
    (h : Reaches f s t) (hs : Inv s) :
  Inv t
  := by
  induction h with
  | refl => apply hs
  | tail _ hlast ih => apply hstep _ _ ih hlast

/-- What every step preserves and none brings about is the same all along a run. -/
theorem reaches_iff {Inv P : σ → Prop} (hInv : ∀ s s', Inv s → f s = some s' → Inv s')
    (hP : ∀ s s', Inv s → f s = some s' → (P s ↔ P s')) {s t : σ} (h : Reaches f s t) (hs : Inv s) :
  P s ↔ P t
  := by
  induction h with
  | refl => rfl
  | tail hinit hlast ih =>
      rw [ih]
      apply hP _ _ (reaches_invariant hInv hinit hs) hlast

/-- Where a loop ends, `Ok` holds all along its run exactly if the outlook `P` is good at the beginning: no
step changes `P`, it implies `Ok`, and at the end `Ok` implies it. -/
theorem always_iff {Inv P Ok : σ → Prop} (hInv : ∀ s s', Inv s → f s = some s' → Inv s')
    (hP : ∀ s s', Inv s → f s = some s' → (P s ↔ P s')) (hOk : ∀ s, P s → Ok s)
    (hend : ∀ s, Inv s → f s = none → Ok s → P s) {s : σ} (hdom : (eval f s).Dom) (hs : Inv s) :
  (∀ t, Reaches f s t → Ok t) ↔ P s
  := by
  constructor
  · intro h
    obtain ⟨t, ht⟩ := Part.dom_iff_mem.mp hdom
    obtain ⟨hreaches, hlast⟩ := mem_eval.mp ht
    rw [reaches_iff hInv hP hreaches hs]
    apply hend t (reaches_invariant hInv hreaches hs) hlast (h t hreaches)
  · intro h t hreaches
    apply hOk
    rwa [← reaches_iff hInv hP hreaches hs]

end Halting

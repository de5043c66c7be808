import Mathlib.Tactic
import Mathlib.Logic.Function.Basic

/-!
# Exclusive ownership

Every party owns at most one resource, given by `own : ι → Option ρ`, and `Exclusive own` says that no
resource has two owners. A party may come to own what nobody else owns, or nothing.
-/

variable {ι ρ : Type*}

/-- No resource has two owners. -/
def Exclusive (own : ι → Option ρ) : Prop :=
  ∀ i j r, own i = some r → own j = some r → i = j

namespace Exclusive

variable [DecidableEq ι] {own : ι → Option ρ} {i : ι}

/-- A party comes to own what nobody else owns, if anything. -/
theorem update (h : Exclusive own) {o : Option ρ}
    (ho : ∀ r, o = some r → ∀ j, j ≠ i → own j ≠ some r) :
  Exclusive (Function.update own i o)
  := by
  intro j k r hj hk
  by_cases hji : j = i
  · by_cases hki : k = i
    · rw [hji, hki]
    · rw [hji, Function.update_self] at hj
      rw [Function.update_of_ne hki] at hk
      exact absurd hk (ho r hj k hki)
  · by_cases hki : k = i
    · rw [hki, Function.update_self] at hk
      rw [Function.update_of_ne hji] at hj
      exact absurd hj (ho r hk j hji)
    · rw [Function.update_of_ne hji] at hj
      rw [Function.update_of_ne hki] at hk
      apply h j k r hj hk

end Exclusive

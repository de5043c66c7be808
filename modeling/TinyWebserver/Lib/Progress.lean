import Mathlib.Algebra.BigOperators.Fin
import Mathlib.Data.Fintype.BigOperators
import TinyWebserver.Lib.Transition

/-!
# Runs that get to a goal

A system with a step function as in `Transition` cannot get stuck short of a goal if from every state with
an invariant some labels lead on to a state with a smaller rank, `exists_run_to_goal`, and every run is short
if every step lowers the rank, `length_add_rank_le`. The rank may be a sum over the members of a family, of
which a step changes one, `sum_change`.
-/

namespace Progress

open Transition

variable {σ ℓ : Type*} {step : σ → ℓ → Option σ}

/-- If from every state with the invariant that is not at the goal some labels, which all meet `ok`, lead to
a state with the invariant and a smaller rank, then such labels lead to the goal. -/
theorem exists_run_to_goal {Inv Goal : σ → Prop} {ok : ℓ → Prop} (rank : σ → ℕ)
    (hprogress : ∀ s, Inv s → ¬ Goal s → ∃ ls s', (∀ l ∈ ls, ok l) ∧ run step s ls = some s' ∧ Inv s' ∧
      rank s' < rank s) (s : σ) (hs : Inv s) :
  ∃ ls s', (∀ l ∈ ls, ok l) ∧ run step s ls = some s' ∧ Inv s' ∧ Goal s'
  := by
  induction hn : rank s using Nat.strong_induction_on generalizing s with
  | _ n ih =>
      by_cases hgoal : Goal s
      · exact ⟨[], s, by simp, rfl, hs, hgoal⟩
      · obtain ⟨first, t, hfirst, hrun, ht, hrank⟩ := hprogress s hs hgoal
        obtain ⟨rest, s', hrest, hrun', hs', hgoal'⟩ := ih (rank t) (hn ▸ hrank) t ht rfl
        refine ⟨first ++ rest, s', ?_, ?_, hs', hgoal'⟩
        · intro l hl
          cases List.mem_append.mp hl with
          | inl hl => apply hfirst l hl
          | inr hl => apply hrest l hl
        · rw [run_append, hrun, Option.bind_some, hrun']

/-- If every step whose label meets `ok` from a state with the invariant keeps the invariant and lowers the
rank, then no run of such labels is longer than the rank at its start. -/
theorem length_add_rank_le {Inv : σ → Prop} {ok : ℓ → Prop} (rank : σ → ℕ)
    (hstep : ∀ s l s', Inv s → ok l → step s l = some s' → Inv s' ∧ rank s' < rank s) {s s' : σ} {ls : List ℓ}
    (hs : Inv s) (hls : ∀ l ∈ ls, ok l) (h : run step s ls = some s') :
  ls.length + rank s' ≤ rank s
  := by
  induction ls generalizing s with
  | nil =>
      obtain rfl : s = s' := by simpa using h
      simp
  | cons l ls ih =>
      obtain ⟨t, ht, hrun⟩ := Option.bind_eq_some_iff.mp h
      obtain ⟨hInv, hrank⟩ := hstep s l t hs (hls l List.mem_cons_self) ht
      have hrest := ih hInv (fun l hl => hls l (List.mem_cons_of_mem _ hl)) hrun
      rw [List.length_cons]
      omega

/-- One member of a family changes its rank. -/
theorem sum_change {ι : Type*} [Fintype ι] [DecidableEq ι] {g g' : ι → ℕ} {i : ι}
    (h : ∀ j, j ≠ i → g' j = g j) :
  ∑ j, g' j + g i = ∑ j, g j + g' i
  := by
  have hrest : ∑ j ∈ Finset.univ.erase i, g' j = ∑ j ∈ Finset.univ.erase i, g j := by
    apply Finset.sum_congr rfl
    intro j hj
    apply h j (Finset.ne_of_mem_erase hj)
  rw [← Finset.add_sum_erase _ g' (Finset.mem_univ i), ← Finset.add_sum_erase _ g (Finset.mem_univ i), hrest]
  omega

end Progress

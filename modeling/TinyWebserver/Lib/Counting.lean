import Mathlib.Tactic
import Mathlib.Data.Fintype.Card
import Mathlib.Data.Nat.Count
import Mathlib.Logic.Function.Basic

/-!
# Counting the members of a family

A finite family `f : ι → β` gives the state of every party, and `countWhere p f` is the number of
parties whose state has the property `p`. When one party changes its state, the count changes by
what that party contributes. Parties with numbers, of which there may come more, are counted by
`Nat.count`, and those in a list by `List.countP`.
-/

namespace Counting

variable {ι β : Type*} [Fintype ι]

/-- The number of members with the property `p`. -/
def countWhere (p : β → Prop) [DecidablePred p] (f : ι → β) : ℕ :=
  (Finset.univ.filter fun i => p (f i)).card

variable (p : β → Prop) [DecidablePred p]

theorem countWhere_eq_sum (f : ι → β) :
  countWhere p f = ∑ i, if p (f i) then 1 else 0
  := Finset.card_filter _ _

/-- A member with the property counts. -/
theorem countWhere_pos {f : ι → β} {i : ι} (h : p (f i)) :
  0 < countWhere p f
  := Finset.card_pos.mpr ⟨i, by simpa using h⟩

/-- A change of one member. -/
theorem countWhere_update [DecidableEq ι] (f : ι → β) (i : ι) (b : β) :
  countWhere p (Function.update f i b) + (if p (f i) then 1 else 0)
    = countWhere p f + (if p b then 1 else 0)
  := by
  have hrest : ∀ j ∈ Finset.univ.erase i,
      (if p (Function.update f i b j) then 1 else 0) = if p (f j) then 1 else 0 := by
    intro j hj
    rw [Function.update_of_ne (Finset.ne_of_mem_erase hj)]
  rw [countWhere_eq_sum, countWhere_eq_sum, ← Finset.add_sum_erase _ _ (Finset.mem_univ i),
    ← Finset.add_sum_erase _ (fun j => if p (f j) then 1 else 0) (Finset.mem_univ i),
    Finset.sum_congr rfl hrest, Function.update_self]
  omega

/-- A change of one member that has nothing to do with the property. -/
theorem countWhere_update_of_iff [DecidableEq ι] {f : ι → β} {i : ι} {b : β} (h : p b ↔ p (f i)) :
  countWhere p (Function.update f i b) = countWhere p f
  := by
  have hcount := countWhere_update p f i b
  simp only [h] at hcount
  omega

/-! ### Parties with numbers -/

section

variable {q r : ℕ → Prop} [DecidablePred q] [DecidablePred r] {n j : ℕ}

theorem count_congr (h : ∀ k < n, r k ↔ q k) :
  Nat.count r n = Nat.count q n
  := by
  apply le_antisymm
  · exact Nat.count_mono_left fun k hk => (h k hk).mp
  · exact Nat.count_mono_left fun k hk => (h k hk).mpr

/-- A property changes for one of the numbers. -/
theorem count_update (hj : j < n) (h : ∀ k < n, k ≠ j → (r k ↔ q k)) :
  Nat.count r n + (if q j then 1 else 0) = Nat.count q n + (if r j then 1 else 0)
  := by
  induction n with
  | zero => omega
  | succ n ih =>
      rw [Nat.count_succ, Nat.count_succ]
      by_cases hlast : j = n
      · subst hlast
        have hbelow : Nat.count r j = Nat.count q j :=
          count_congr fun k hk => h k (by omega) (by omega)
        omega
      · have hn : (if r n then 1 else 0) = if q n then 1 else 0 := by
          simp [h n (by omega) (Ne.symm hlast)]
        have hbelow := ih (by omega) fun k hk => h k (by omega)
        omega

end

/-! ### Parties in a list -/

/-- A party of a list changes what it contributes. -/
theorem sum_map_set (f : β → ℕ) {l : List β} {k : ℕ} {a b : β} (h : l[k]? = some a) :
  ((l.set k b).map f).sum + f a = (l.map f).sum + f b
  := by
  induction l generalizing k with
  | nil => simp at h
  | cons x l ih =>
      cases k with
      | zero =>
          obtain rfl : x = a := by simpa using h
          simp
          omega
      | succ k =>
          have hrest := ih (k := k) (by simpa using h)
          simp only [List.set_cons_succ, List.map_cons, List.sum_cons]
          omega

theorem countP_set {q : β → Bool} {l : List β} {k : ℕ} {a b : β} (h : l[k]? = some a) :
  (l.set k b).countP q + (if q a then 1 else 0) = l.countP q + (if q b then 1 else 0)
  := by
  obtain ⟨hk, rfl⟩ := List.getElem?_eq_some_iff.mp h
  rw [List.countP_set hk]
  by_cases hq : q l[k] = true
  · have hpos : 0 < l.countP q := List.countP_pos_iff.mpr ⟨_, List.getElem_mem hk, hq⟩
    simp only [hq, if_true]
    omega
  · simp [hq]

/-- At most one party has the property. -/
theorem eq_of_countP_le_one {q : β → Bool} {l : List β} (h : l.countP q ≤ 1) {a b : β} (ha : a ∈ l)
    (hb : b ∈ l) (hqa : q a = true) (hqb : q b = true) :
  a = b
  := by
  rw [List.countP_eq_length_filter] at h
  have hfa : a ∈ l.filter q := List.mem_filter.mpr ⟨ha, hqa⟩
  have hfb : b ∈ l.filter q := List.mem_filter.mpr ⟨hb, hqb⟩
  match hl : l.filter q with
  | [] => simp [hl] at hfa
  | [c] =>
      rw [hl, List.mem_singleton] at hfa hfb
      rw [hfa, hfb]
  | _ :: _ :: _ => simp [hl] at h

end Counting

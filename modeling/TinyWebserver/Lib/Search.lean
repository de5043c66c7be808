import Mathlib.Tactic
import Mathlib.Data.List.Infix

/-!
# Searching for a sequence

`search pat xs` is the offset of the first occurrence of `pat` in `xs`, or the length of `xs` if
there is none, in the manner of `std::search`.
-/

namespace Search

variable {α : Type*} [DecidableEq α]

/-- The offset of the first occurrence of `pat`, or the length if there is none. -/
def search (pat : List α) : List α → ℕ
  | [] => 0
  | x :: xs => if pat <+: x :: xs then 0 else search pat xs + 1

theorem search_le (pat xs : List α) :
  search pat xs ≤ xs.length
  := by
  induction xs with
  | nil => simp [search]
  | cons x xs ih =>
      rw [search]
      split
      · apply Nat.zero_le
      · simpa using ih

/-- If `pat` does not occur, the search ends at the end. -/
theorem search_of_not_infix {pat xs : List α} (h : ¬ pat <:+: xs) :
  search pat xs = xs.length
  := by
  induction xs with
  | nil => rfl
  | cons x xs ih =>
      have hprefix : ¬ pat <+: x :: xs := fun hp => h hp.isInfix
      have hrest : ¬ pat <:+: xs := fun hi => h (List.infix_cons hi)
      rw [search, if_neg hprefix, ih hrest, List.length_cons]

/-- If the search ends before the end, it has found `pat`. -/
theorem search_spec {pat xs : List α} (h : search pat xs < xs.length) :
  xs = xs.take (search pat xs) ++ pat ++ xs.drop (search pat xs + pat.length)
  := by
  induction xs with
  | nil => simp [search] at h
  | cons x xs ih =>
      rw [search] at h ⊢
      split
      · rename_i hprefix
        obtain ⟨rest, hrest⟩ := hprefix
        simp [← hrest]
      · rename_i hprefix
        rw [if_neg hprefix] at h
        have := ih (by simpa using h)
        simp only [List.take_succ_cons, List.cons_append, Nat.add_right_comm, List.drop_succ_cons,
          List.cons.injEq, true_and]
        apply this

/-- What comes before a first occurrence of `x :: pat` has no `x` in it, so the search ends
there. -/
theorem search_append {x : α} {pat xs : List α} (hx : x ∉ xs) (rest : List α) :
  search (x :: pat) (xs ++ (x :: pat) ++ rest) = xs.length
  := by
  induction xs with
  | nil => simp [search]
  | cons y ys ih =>
      simp only [List.mem_cons, not_or] at hx
      obtain ⟨hne, hys⟩ := hx
      have hprefix : ¬ (x :: pat) <+: y :: (ys ++ (x :: pat) ++ rest) := by
        rw [List.cons_prefix_cons]
        exact fun h => hne h.1
      simp only [List.cons_append, search, if_neg hprefix] at ih ⊢
      rw [ih hys, List.length_cons]

/-- The part in front of a first occurrence does not contain the sequence. -/
theorem not_infix_take_search {pat : List α} (hpat : pat ≠ []) (xs : List α) :
  ¬ pat <:+: xs.take (search pat xs)
  := by
  induction xs with
  | nil => simpa [search] using hpat
  | cons x xs ih =>
      rw [search]
      split
      · simpa using hpat
      · rename_i hprefix
        rw [List.take_succ_cons, List.infix_cons_iff]
        rintro (h | h)
        · apply hprefix
          apply h.trans
          rw [← List.take_succ_cons]
          apply List.take_prefix
        · apply ih h

omit [DecidableEq α] in
/-- What is in front of the first `x`, and what is behind it. -/
theorem append_cons_inj_of_notMem {x : α} {xs xs' ys ys' : List α} (hxs : x ∉ xs) (hxs' : x ∉ xs')
    (h : xs ++ x :: ys = xs' ++ x :: ys') :
  xs = xs' ∧ ys = ys'
  := by
  induction xs generalizing xs' with
  | nil =>
      cases xs' with
      | nil => simpa using h
      | cons z zs =>
          obtain ⟨rfl, -⟩ : x = z ∧ _ := by simpa using h
          simp at hxs'
  | cons z zs ih =>
      cases xs' with
      | nil =>
          obtain ⟨rfl, -⟩ : z = x ∧ _ := by simpa using h
          simp at hxs
      | cons z' zs' =>
          simp only [List.mem_cons, not_or, List.cons_append, List.cons.injEq] at hxs hxs' h
          obtain ⟨rfl, rfl⟩ := ih hxs.2 hxs'.2 h.2
          exact ⟨by rw [h.1], rfl⟩

omit [DecidableEq α] in
/-- One more part behind parts with a separator between them. -/
theorem intercalate_append_singleton (sep : List α) (parts : List (List α)) (part : List α) :
  sep.intercalate (parts ++ [part])
    = sep.intercalate parts ++ (if parts = [] then [] else sep) ++ part
  := by
  induction parts with
  | nil => simp
  | cons first parts ih => cases parts with
    | nil => simp
    | cons second parts =>
        simp only [List.cons_append, List.intercalate_cons_cons] at ih ⊢
        rw [ih]
        simp

end Search

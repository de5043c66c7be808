import Mathlib.Tactic

/-!
# Blocks of memory

A block of memory is a list of cells, addressed by offset. `slice m i j` is the part of `m` in
`[i, j)`, `overwrite m i xs` is `m` after `xs` has been copied to it from offset `i` on, and
`resize m n a` is `m` cut or extended to `n` cells, the new ones holding `a`.
-/

namespace Memory

variable {α : Type*}

/-- The cells of `m` from offset `i` up to, and without, offset `j`. -/
def slice (m : List α) (i j : ℕ) : List α := (m.take j).drop i

/-- The block `m` after `xs` has been copied to it from offset `i` on. -/
def overwrite (m : List α) (i : ℕ) (xs : List α) : List α :=
  m.take i ++ xs ++ m.drop (i + xs.length)

/-- The block `m` cut or extended to `n` cells, the new ones holding `a`. -/
def resize (m : List α) (n : ℕ) (a : α) : List α :=
  m.take n ++ List.replicate (n - m.length) a

@[simp]
theorem length_resize (m : List α) (n : ℕ) (a : α) :
  (resize m n a).length = n
  := by
  simp only [resize, List.length_append, List.length_take, List.length_replicate]
  omega

theorem length_overwrite {m : List α} {i : ℕ} {xs : List α} (h : i + xs.length ≤ m.length) :
  (overwrite m i xs).length = m.length
  := by
  simp only [overwrite, List.length_append, List.length_take, List.length_drop]
  omega

theorem length_le_overwrite (m : List α) (i : ℕ) (xs : List α) :
  m.length ≤ (overwrite m i xs).length
  := by
  simp only [overwrite, List.length_append, List.length_take, List.length_drop]
  omega

theorem length_slice (m : List α) {i j : ℕ} (hj : j ≤ m.length) :
  (slice m i j).length = j - i
  := by
  simp only [slice, List.length_drop, List.length_take]
  omega

@[simp]
theorem slice_self (m : List α) (i : ℕ) :
  slice m i i = []
  := by
  simp [slice]

/-- Dropping `n` cells of a slice moves its start by `n`. -/
theorem drop_slice (m : List α) (i j n : ℕ) :
  (slice m i j).drop n = slice m (i + n) j
  := by
  simp [slice, List.drop_drop]

/-- Extending a block does not change the slices it has. -/
theorem slice_resize {m : List α} {i j n : ℕ} {a : α} (hj : j ≤ m.length) (hn : j ≤ n) :
  slice (resize m n a) i j = slice m i j
  := by
  rw [slice, resize, List.take_append_of_le_length (by simp; omega), List.take_take,
    Nat.min_eq_left hn, slice]

/-- A block in which `xs` has been copied to the end of a slice has the slice followed by
`xs`. -/
theorem slice_overwrite {m : List α} {i j : ℕ} (xs : List α) (hij : i ≤ j) (hj : j ≤ m.length) :
  slice (overwrite m j xs) i (j + xs.length) = slice m i j ++ xs
  := by
  have hlen : (m.take j ++ xs).length = j + xs.length := by simp [hj]
  rw [slice, overwrite, List.take_append_of_le_length (Nat.le_of_eq hlen.symm), ← hlen, List.take_length,
    List.drop_append_of_le_length (by simp; omega), slice]

/-- A block whose start has been overwritten by `xs` has `xs` as its first slice. -/
theorem slice_overwrite_zero (m xs : List α) :
  slice (overwrite m 0 xs) 0 xs.length = xs
  := by
  simp [slice, overwrite]

end Memory

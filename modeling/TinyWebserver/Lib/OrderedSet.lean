import Mathlib.Tactic
import Mathlib.Data.List.TakeWhile

/-!
# Sets ordered by a comparator

A set with a comparator `lt`, in the manner of `std::set`, is the list of its elements in
increasing order. `lowerBound`, `find`, `insert` and `erase` search by the comparator alone: two
elements neither of which is less than the other are equivalent, and only one of them can be in the
set. The comparator may read a mutable store, so it is an argument of every operation; `Sorted`
says that the elements are strictly increasing for the comparator as it is now.
-/

namespace OrderedSet

variable {α : Type*}

/-- A comparator is a strict order. -/
structure StrictOrder (lt : α → α → Bool) : Prop where
  irrefl : ∀ a, lt a a = false
  trans : ∀ a b c, lt a b = true → lt b c = true → lt a c = true

/-- The elements are strictly increasing. -/
def Sorted (lt : α → α → Bool) (s : List α) : Prop := s.Pairwise fun a b => lt a b = true

instance Sorted.decidable (lt : α → α → Bool) (s : List α) : Decidable (Sorted lt s) :=
  inferInstanceAs (Decidable (s.Pairwise fun a b => lt a b = true))

/-- The elements `below` a key, and the others, the first of which `lower_bound` points to. -/
def lowerBound (below : α → Bool) (s : List α) : List α × List α :=
  (s.takeWhile below, s.dropWhile below)

/-- The element equivalent to `k`, with the elements before and after it, or `none` for the end
iterator. -/
def find (lt : α → α → Bool) (k : α) (s : List α) : Option (List α × α × List α) :=
  match lowerBound (lt · k) s with
  | (_, []) => none
  | (before, a :: after) => if lt k a then none else some (before, a, after)

/-- The set without the element an iterator points to. -/
def erase : List α × α × List α → List α
  | (before, _, after) => before ++ after

/-- The set with `k`, unless it has an element equivalent to `k`. -/
def insert (lt : α → α → Bool) (k : α) (s : List α) : List α :=
  match find lt k s with
  | some _ => s
  | none => (lowerBound (lt · k) s).1 ++ k :: (lowerBound (lt · k) s).2

variable {lt lt' : α → α → Bool} {s : List α} {k : α}

theorem Sorted.nodup (h : StrictOrder lt) (hs : Sorted lt s) :
  s.Nodup
  := by
  apply hs.imp
  rintro a _ hab rfl
  simp [h.irrefl a] at hab

/-- A set stays sorted when the comparator changes on no pair of its elements. -/
theorem Sorted.congr (hs : Sorted lt s) (heq : ∀ a ∈ s, ∀ b ∈ s, lt a b = lt' a b) :
  Sorted lt' s
  := by
  apply List.Pairwise.imp_of_mem _ hs
  intro a b ha hb hab
  rw [← heq a ha b hb, hab]

theorem mem_of_mem_insert {a : α} (ha : a ∈ insert lt k s) :
  a = k ∨ a ∈ s
  := by
  rw [insert] at ha
  split at ha
  · right
    exact ha
  · simp only [lowerBound, List.mem_append, List.mem_cons] at ha
    rcases ha with ha | ha | ha
    · right
      exact List.takeWhile_subset _ ha
    · left
      exact ha
    · right
      exact List.dropWhile_subset _ ha

/-- In a sorted set the elements less than those from some point on are the ones before it. -/
theorem Sorted.lowerBound_append (h : StrictOrder lt) {before after : List α}
    (hs : Sorted lt (before ++ k :: after)) :
  lowerBound (lt · k) (before ++ k :: after) = (before, k :: after)
  := by
  have hbefore : ∀ a ∈ before, lt a k = true := by
    intro a ha
    apply (List.pairwise_append.mp hs).2.2 a ha k
    simp
  rw [lowerBound, List.takeWhile_append_of_pos hbefore, List.dropWhile_append_of_pos hbefore]
  simp [h.irrefl k]

/-- `find` locates every element of a sorted set. -/
theorem Sorted.find_append (h : StrictOrder lt) {before after : List α}
    (hs : Sorted lt (before ++ k :: after)) :
  find lt k (before ++ k :: after) = some (before, k, after)
  := by
  rw [find, hs.lowerBound_append h]
  simp [h.irrefl k]

theorem Sorted.find_mem (h : StrictOrder lt) (hs : Sorted lt s) (hk : k ∈ s) :
  ∃ before after, s = before ++ k :: after ∧ find lt k s = some (before, k, after)
  := by
  obtain ⟨before, after, rfl⟩ := List.append_of_mem hk
  exact ⟨before, after, rfl, hs.find_append h⟩

/-- Erasing leaves a sorted set. -/
theorem Sorted.erase {before after : List α} (hs : Sorted lt (before ++ k :: after)) :
  Sorted lt (OrderedSet.erase (before, k, after))
  := by
  apply List.Pairwise.sublist _ hs
  simp [OrderedSet.erase]

theorem Sorted.mem_erase (h : StrictOrder lt) {before after : List α}
    (hs : Sorted lt (before ++ k :: after)) (a : α) :
  a ∈ OrderedSet.erase (before, k, after) ↔ a ∈ before ++ k :: after ∧ a ≠ k
  := by
  have hnodup := hs.nodup h
  have hk : k ∉ before ++ after := (List.nodup_middle.mp hnodup).notMem
  simp only [OrderedSet.erase, List.mem_append, List.mem_cons] at hk ⊢
  grind

/-- If no element is equivalent to `k`, every element is less or greater. -/
def Separates (lt : α → α → Bool) (k : α) (s : List α) : Prop :=
  ∀ a ∈ s, lt a k = true ∨ lt k a = true

/-- The first element not less than `k` is then greater than `k`. -/
theorem Separates.lt_of_dropWhile (hk : Separates lt k s) {a : α} {after : List α}
    (hdrop : s.dropWhile (fun a => lt a k) = a :: after) :
  lt k a = true
  := by
  have hmem : a ∈ s := by
    apply (List.dropWhile_sublist _).mem
    rw [hdrop]
    simp
  have hnot : lt a k = false := by
    have := List.head_dropWhile_not (fun a => lt a k) (l := s) (by simp [hdrop])
    simpa [hdrop] using this
  simpa [hnot] using hk a hmem

theorem Separates.find_eq_none (hk : Separates lt k s) :
  find lt k s = none
  := by
  rw [find, lowerBound]
  cases hdrop : s.dropWhile (fun a => lt a k) with
  | nil => rfl
  | cons a after => simp [hk.lt_of_dropWhile hdrop]

/-- Inserting an element that is equivalent to none puts it in the set. -/
theorem Separates.mem_insert (hk : Separates lt k s) (a : α) :
  a ∈ insert lt k s ↔ a = k ∨ a ∈ s
  := by
  rw [insert, hk.find_eq_none]
  conv_rhs => rw [← List.takeWhile_append_dropWhile (p := fun a => lt a k) (l := s)]
  simp only [lowerBound, List.mem_append, List.mem_cons]
  grind

/-- Inserting an element that is equivalent to none leaves a sorted set. -/
theorem Sorted.insert (h : StrictOrder lt) (hs : Sorted lt s) (hk : Separates lt k s) :
  Sorted lt (insert lt k s)
  := by
  rw [OrderedSet.insert, hk.find_eq_none]
  have hsplit := List.takeWhile_append_dropWhile (p := fun a => lt a k) (l := s)
  have hs' := hs
  rw [Sorted, ← hsplit, List.pairwise_append] at hs'
  obtain ⟨hbefore, hafter, hcross⟩ := hs'
  have hless : ∀ a ∈ s.takeWhile (fun a => lt a k), lt a k = true := by
    intro a ha
    simpa using List.mem_takeWhile_imp ha
  have hgreater : ∀ a ∈ s.dropWhile (fun a => lt a k), lt k a = true := by
    intro a ha
    cases hdrop : s.dropWhile (fun a => lt a k) with
    | nil => simp [hdrop] at ha
    | cons b after =>
        rw [hdrop] at ha hafter
        rcases List.mem_cons.mp ha with rfl | ha
        · apply hk.lt_of_dropWhile hdrop
        · apply h.trans k b a (hk.lt_of_dropWhile hdrop)
          apply (List.pairwise_cons.mp hafter).1 a ha
  simp only [lowerBound, Sorted, List.pairwise_append, List.pairwise_cons, List.mem_cons]
  refine ⟨hbefore, ⟨hgreater, hafter⟩, ?_⟩
  rintro a ha b (rfl | hb)
  · apply hless a ha
  · apply hcross a ha b hb

/-- An element greater than all others goes to the end. -/
theorem insert_last (hs : Sorted lt (s ++ [k])) :
  insert lt k s = s ++ [k]
  := by
  have hless : ∀ a ∈ s, lt a k = true := by
    intro a ha
    apply (List.pairwise_append.mp hs).2.2 a ha k
    simp
  have hseparates : Separates lt k s := fun a ha => Or.inl (hless a ha)
  rw [insert, hseparates.find_eq_none]
  simp only [lowerBound]
  rw [List.takeWhile_eq_self_iff.mpr hless, List.dropWhile_eq_nil_iff.mpr hless]

/-- Inserting the elements of a sorted set one by one gives it back. -/
theorem foldl_insert {t : List α} (hs : Sorted lt (s ++ t)) :
  t.foldl (fun s k => insert lt k s) s = s ++ t
  := by
  induction t generalizing s with
  | nil => simp
  | cons k t ih =>
      have hfirst : Sorted lt (s ++ [k]) := by
        apply List.Pairwise.sublist _ hs
        simp
      rw [List.foldl_cons, insert_last hfirst, ih]
      · simp
      · simpa using hs

end OrderedSet

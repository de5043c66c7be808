import Mathlib.Tactic
import Mathlib.Data.List.TakeWhile

/-!
# Regular expressions of one line

Patterns in the manner of ECMAScript that are a sequence of characters, optional characters and
captured runs of a class of characters, such as `([^:]*): ?(.*)`. `fullMatch` matches a whole
string by backtracking: an optional character is taken if the rest then matches, and a run is taken
as long as the rest allows. It returns the captured runs, and `Matches` says what they are runs of.
-/

namespace Regex

variable {α : Type*} [DecidableEq α]

/-- A part of a pattern: a character, an optional character, or a captured run of a class. -/
inductive Item (α : Type*) where
  | char (c : α)
  | opt (c : α)
  | group (p : α → Bool)

/-- The first result among `f n, f (n - 1), …, f 0`. -/
def firstDown {β : Type*} (f : ℕ → Option β) : ℕ → Option β
  | 0 => f 0
  | n + 1 => (f (n + 1)).or (firstDown f n)

/-- The runs captured when the whole of a string matches a pattern. -/
def fullMatch : List (Item α) → List α → Option (List (List α))
  | [], [] => some []
  | [], _ :: _ => none
  | .char _ :: _, [] => none
  | .char c :: ps, x :: xs => if x = c then fullMatch ps xs else none
  | .opt _ :: ps, [] => fullMatch ps []
  | .opt c :: ps, x :: xs => (if x = c then fullMatch ps xs else none).or (fullMatch ps (x :: xs))
  | .group p :: ps, xs =>
      firstDown (fun n => (fullMatch ps (xs.drop n)).map (xs.take n :: ·)) (xs.takeWhile p).length

theorem firstDown_eq {β : Type*} {f : ℕ → Option β} {n : ℕ} (h : ∀ i < n, f i = none) :
  firstDown f n = f n
  := by
  have hnone : ∀ {m : ℕ}, m < n → firstDown f m = none := by
    intro m hm
    induction m with
    | zero => apply h 0 hm
    | succ m ih => rw [firstDown, h (m + 1) hm, ih (by omega), Option.or_none]
  cases n with
  | zero => rfl
  | succ n => rw [firstDown, hnone (by omega), Option.or_none]

/-- A run that a character outside its class follows is the longest one. -/
theorem fullMatch_group_char {p : α → Bool} {c : α} (hc : p c = false) (ps : List (Item α))
    (xs : List α) :
  fullMatch (.group p :: .char c :: ps) xs
    = (fullMatch (.char c :: ps) (xs.dropWhile p)).map (xs.takeWhile p :: ·)
  := by
  have hxs : xs.takeWhile p ++ xs.dropWhile p = xs := List.takeWhile_append_dropWhile
  have hdrop : xs.drop (xs.takeWhile p).length = xs.dropWhile p := by
    nth_rewrite 2 [← hxs]
    apply List.drop_left
  have htake : xs.take (xs.takeWhile p).length = xs.takeWhile p := by
    nth_rewrite 2 [← hxs]
    apply List.take_left
  rw [fullMatch, firstDown_eq]
  · rw [hdrop, htake]
  · intro n hn
    -- A shorter run is followed by a character of the class.
    have hlt : n < xs.length := hn.trans_le (List.takeWhile_prefix p).length_le
    have hget : p xs[n] = true := by
      have hmem : (xs.takeWhile p)[n] ∈ xs.takeWhile p := List.getElem_mem hn
      rw [(List.takeWhile_prefix p).getElem hn] at hmem
      apply List.mem_takeWhile_imp hmem
    have hne : xs[n] ≠ c := by
      intro heq
      rw [heq, hc] at hget
      apply Bool.noConfusion hget
    rw [List.drop_eq_getElem_cons hlt, fullMatch, if_neg hne, Option.map_none]

/-- A run of a class that the character `c` outside of it follows is captured whole. -/
theorem fullMatch_group_append {p : α → Bool} {c : α} (hc : p c = false) {ys : List α}
    (hys : ∀ y ∈ ys, p y = true) (ps : List (Item α)) (xs : List α) :
  fullMatch (.group p :: .char c :: ps) (ys ++ c :: xs) = (fullMatch ps xs).map (ys :: ·)
  := by
  have htake : (c :: xs).takeWhile p = [] := List.takeWhile_cons_of_neg (by simp [hc])
  have hdrop : (c :: xs).dropWhile p = c :: xs := List.dropWhile_cons_of_neg (by simp [hc])
  rw [fullMatch_group_char hc, List.takeWhile_append_of_pos hys, List.dropWhile_append_of_pos hys,
    htake, hdrop, List.append_nil, fullMatch, if_pos rfl]

/-- Characters match themselves. -/
theorem fullMatch_chars (cs : List α) (ps : List (Item α)) (xs : List α) :
  fullMatch (cs.map .char ++ ps) (cs ++ xs) = fullMatch ps xs
  := by
  induction cs with
  | nil => rfl
  | cons c cs ih => simp [fullMatch, ih]

/-- A run at the end takes the whole of the string, if it is in the class. -/
theorem fullMatch_group_end (p : α → Bool) (xs : List α) :
  fullMatch [.group p] xs = if xs.all p then some [xs] else none
  := by
  have hlen := (List.takeWhile_prefix (l := xs) p).length_le
  have hshort : ∀ n < xs.length,
      (fullMatch ([] : List (Item α)) (xs.drop n)).map (xs.take n :: ·) = none := by
    intro n hn
    rw [List.drop_eq_getElem_cons hn, fullMatch, Option.map_none]
  rw [fullMatch, firstDown_eq fun n hn => hshort n (by omega)]
  split
  · rename_i hall
    rw [List.takeWhile_eq_self_iff.mpr (by simpa using hall)]
    simp [fullMatch]
  · rename_i hall
    apply hshort
    apply lt_of_le_of_ne hlen
    intro heq
    apply hall
    have := (List.takeWhile_prefix (l := xs) p).eq_of_length heq
    simpa using List.takeWhile_eq_self_iff.mp this

/-! ### What a match means -/

/-- A string is spelled by a pattern, with the captured runs. -/
inductive Matches : List (Item α) → List α → List (List α) → Prop where
  | nil : Matches [] [] []
  | char {c : α} {ps : List (Item α)} {xs : List α} {gs : List (List α)} (h : Matches ps xs gs) :
      Matches (.char c :: ps) (c :: xs) gs
  | skip {c : α} {ps : List (Item α)} {xs : List α} {gs : List (List α)} (h : Matches ps xs gs) :
      Matches (.opt c :: ps) xs gs
  | opt {c : α} {ps : List (Item α)} {xs : List α} {gs : List (List α)} (h : Matches ps xs gs) :
      Matches (.opt c :: ps) (c :: xs) gs
  | group {p : α → Bool} {ps : List (Item α)} {ys xs : List α} {gs : List (List α)}
      (hys : ∀ y ∈ ys, p y = true) (h : Matches ps xs gs) :
      Matches (.group p :: ps) (ys ++ xs) (ys :: gs)

theorem exists_of_firstDown {β : Type*} {f : ℕ → Option β} {n : ℕ} {y : β}
    (h : firstDown f n = some y) :
  ∃ i ≤ n, f i = some y
  := by
  induction n with
  | zero => exact ⟨0, le_refl 0, h⟩
  | succ n ih =>
      rw [firstDown, Option.or_eq_some_iff] at h
      rcases h with h | ⟨-, h⟩
      · exact ⟨n + 1, le_refl _, h⟩
      · obtain ⟨i, hi, hf⟩ := ih h
        exact ⟨i, by omega, hf⟩

theorem matches_of_fullMatch {ps : List (Item α)} {xs : List α} {gs : List (List α)}
    (h : fullMatch ps xs = some gs) :
  Matches ps xs gs
  := by
  induction ps generalizing xs gs with
  | nil =>
      cases xs with
      | nil =>
          obtain rfl : [] = gs := by simpa [fullMatch] using h
          exact .nil
      | cons x xs => simp [fullMatch] at h
  | cons item ps ih =>
      cases item with
      | char c =>
          cases xs with
          | nil => simp [fullMatch] at h
          | cons x xs =>
              rw [fullMatch, Option.ite_none_right_eq_some] at h
              obtain ⟨rfl, h⟩ := h
              exact .char (ih h)
      | opt c =>
          cases xs with
          | nil => exact .skip (ih h)
          | cons x xs =>
              rw [fullMatch, Option.or_eq_some_iff, Option.ite_none_right_eq_some] at h
              rcases h with ⟨rfl, h⟩ | ⟨-, h⟩
              · exact .opt (ih h)
              · exact .skip (ih h)
      | group p =>
          obtain ⟨n, hn, h⟩ := exists_of_firstDown (by rwa [fullMatch] at h)
          obtain ⟨gs', hrest, rfl⟩ := Option.map_eq_some_iff.mp h
          nth_rewrite 1 [← List.take_append_drop n xs]
          refine .group ?_ (ih hrest)
          intro y hy
          have hrun : xs.take n <+: xs.takeWhile p :=
            List.prefix_of_prefix_length_le (List.take_prefix n xs) (List.takeWhile_prefix p)
              ((List.length_take_le n xs).trans hn)
          apply List.mem_takeWhile_imp (hrun.subset hy)

omit [DecidableEq α] in
/-- A pattern that begins with characters is spelled by strings that begin with them. -/
theorem Matches.chars {cs : List α} {ps : List (Item α)} {xs : List α} {gs : List (List α)}
    (h : Matches (cs.map .char ++ ps) xs gs) :
  ∃ ys, xs = cs ++ ys ∧ Matches ps ys gs
  := by
  induction cs generalizing xs with
  | nil => exact ⟨xs, rfl, h⟩
  | cons c cs ih =>
      cases h with
      | char h =>
          obtain ⟨ys, rfl, hys⟩ := ih h
          exact ⟨ys, rfl, hys⟩

omit [DecidableEq α] in
/-- A pattern that is a run is spelled by what it captures. -/
theorem Matches.group_end {p : α → Bool} {xs ys : List α} (h : Matches [.group p] xs [ys]) :
  xs = ys ∧ ∀ y ∈ ys, p y = true
  := by
  cases h with
  | group hys hnil =>
      cases hnil
      exact ⟨List.append_nil ys, hys⟩

end Regex

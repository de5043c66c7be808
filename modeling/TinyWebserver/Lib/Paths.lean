import Mathlib.Tactic
import Mathlib.Data.List.Infix
import Mathlib.Data.List.TakeWhile

/-!
# Paths

The lexical resolution of paths, over any alphabet: a component stays in a directory, goes up or goes
down, and a path is a walk. A directory is the list of the names that lead to it from the root. What a
walk does is told by how far it climbs and by the names it then goes down, `walk_eq`, and so is whether
a path that continues a directory ends inside of it, `inside_append_iff`.
-/

namespace Paths

variable {ν : Type*}

/-- What a component of a path does. -/
inductive Move (ν : Type*) where
  | stay
  | up
  | down (name : ν)

/-- The directory after a move. The root is above itself. -/
def visit (dir : List ν) : Move ν → List ν
  | .stay => dir
  | .up => dir.dropLast
  | .down name => dir ++ [name]

/-- The directory after some moves. -/
def walk (dir : List ν) (moves : List (Move ν)) : List ν := moves.foldl visit dir

/-- Moves taken together: how many directories they leave, and the names they then go down. -/
structure Net (ν : Type*) where
  ups : ℕ
  names : List ν

/-- One move more. -/
def Net.visit (n : Net ν) : Move ν → Net ν
  | .stay => n
  | .up =>
      match n.names with
      | [] => ⟨n.ups + 1, []⟩
      | name :: names => ⟨n.ups, (name :: names).dropLast⟩
  | .down name => ⟨n.ups, n.names ++ [name]⟩

/-- What some moves do, taken together. -/
def net (moves : List (Move ν)) : Net ν := moves.foldl Net.visit ⟨0, []⟩

/-- The directory after moves that were taken together. -/
def Net.apply (n : Net ν) (dir : List ν) : List ν := dir.take (dir.length - n.ups) ++ n.names

theorem visit_apply (n : Net ν) (dir : List ν) (move : Move ν) :
  visit (n.apply dir) move = (n.visit move).apply dir
  := by
  obtain ⟨ups, names⟩ := n
  cases move with
  | stay => rfl
  | up =>
      cases names with
      | nil =>
          simp only [Paths.visit, Net.apply, Net.visit, List.append_nil, List.dropLast_eq_take,
            List.take_take, List.length_take]
          congr 1
          omega
      | cons name names =>
          simp only [Paths.visit, Net.apply, Net.visit]
          rw [List.dropLast_append_of_ne_nil (by simp)]
  | down name => simp only [Paths.visit, Net.apply, Net.visit, List.append_assoc]

/-- A walk leaves directories and then goes down. -/
theorem walk_eq (dir : List ν) (moves : List (Move ν)) :
  walk dir moves = (net moves).apply dir
  := by
  have hall : ∀ n : Net ν, walk (n.apply dir) moves = (moves.foldl Net.visit n).apply dir := by
    induction moves with
    | nil => exact fun _ => rfl
    | cons move moves ih =>
        intro n
        rw [walk, List.foldl_cons, ← walk, visit_apply, ih, List.foldl_cons]
  have hstart := hall ⟨0, []⟩
  rwa [Net.apply, Nat.sub_zero, List.take_length, List.append_nil] at hstart

/-- A walk that does not climb stays inside. -/
theorem isPrefix_walk {moves : List (Move ν)} (h : (net moves).ups = 0) (dir : List ν) :
  dir <+: walk dir moves
  := by
  rw [walk_eq, Net.apply, h, Nat.sub_zero, List.take_length]
  apply List.prefix_append

/-- Up to the length of a directory, one move changes nothing or cuts the last name off. -/
theorem take_visit_isPrefix (dir : List ν) (move : Move ν) {m : ℕ} (h : m ≤ dir.length) :
  (visit dir move).take m <+: dir.take m
  := by
  cases move with
  | stay => apply List.prefix_refl
  | up => apply List.IsPrefix.take dir.dropLast_prefix
  | down name =>
      rw [visit, List.take_append_of_le_length h]

/-- A walk ends inside the directory one move away from its start exactly if it goes down through the
names of that directory that it has left, or that it has not been to. -/
theorem isPrefix_walk_iff (dir : List ν) (move : Move ν) (moves : List (Move ν)) :
  visit dir move <+: walk dir moves ↔
    (visit dir move).drop (dir.length - (net moves).ups) <+: (net moves).names
  := by
  rw [walk_eq, Net.apply]
  generalize hm : dir.length - (net moves).ups = m
  have hle : m ≤ dir.length := by omega
  have htake := take_visit_isPrefix dir move hle
  generalize visit dir move = target at htake ⊢
  by_cases hlen : m ≤ target.length
  · have heq : target.take m = dir.take m := by
      apply htake.eq_of_length
      simp [hlen, hle]
    conv_lhs => rw [← List.take_append_drop m target, heq]
    apply List.prefix_append_right_inj
  · rw [List.take_of_length_le (by omega)] at htake
    rw [List.drop_eq_nil_of_le (by omega)]
    constructor
    · exact fun _ => List.nil_prefix
    · exact fun _ => htake.trans (List.prefix_append _ _)

/-! ### Texts of paths -/

variable {α : Type*} [DecidableEq α] (slash dot : α)

/-- What a component does. -/
def move (name : List α) : Move (List α) :=
  if name = [] ∨ name = [dot] then .stay
  else if name = [dot, dot] then .up
  else .down name

/-- The moves of a path, component by component. -/
def moves (path : List α) : List (Move (List α)) := (path.splitOn slash).map (move dot)

/-- The directory a path leads to, from the working directory or from the root. -/
def resolve (cwd : List (List α)) (path : List α) : List (List α) :=
  walk (if path.head? = some slash then [] else cwd) (moves slash dot path)

/-- A path leads into a directory. -/
def Inside (cwd : List (List α)) (dir path : List α) : Prop :=
  resolve slash dot cwd dir <+: resolve slash dot cwd path

instance (cwd : List (List α)) (dir path : List α) : Decidable (Inside slash dot cwd dir path) :=
  inferInstanceAs (Decidable (_ <+: _))

/-- The last component of a path. -/
def lastName (path : List α) : List α := (path.reverse.takeWhile (· ≠ slash)).reverse

/-- The part of a path in front of its last component, with the slash. -/
def parent (path : List α) : List α := (path.reverse.dropWhile (· ≠ slash)).reverse

variable {slash dot}

variable (slash) in
theorem parent_append_lastName (path : List α) :
  parent slash path ++ lastName slash path = path
  := by
  rw [parent, lastName, ← List.reverse_append, List.takeWhile_append_dropWhile,
    List.reverse_reverse]

variable (slash) in
theorem notMem_lastName (path : List α) :
  slash ∉ lastName slash path
  := by
  intro h
  rw [lastName, List.mem_reverse] at h
  simpa using List.mem_takeWhile_imp h

variable (slash) in
/-- What stands in front of the last component is empty or ends in a slash. -/
theorem parent_cases (path : List α) :
  parent slash path = [] ∨ ∃ front, parent slash path = front ++ [slash]
  := by
  rw [parent]
  cases hrest : path.reverse.dropWhile (· ≠ slash) with
  | nil => exact Or.inl rfl
  | cons a rest =>
      right
      have hhead := List.head?_dropWhile_not (fun b => decide (b ≠ slash)) path.reverse
      rw [hrest] at hhead
      obtain rfl : a = slash := by simpa using hhead
      exact ⟨rest.reverse, List.reverse_cons⟩

theorem moves_append_cons (xs ys : List α) :
  moves slash dot (xs ++ slash :: ys) = moves slash dot xs ++ moves slash dot ys
  := by
  rw [moves, List.splitOn_append_cons_self, List.map_append, ← moves, ← moves]

theorem moves_of_notMem {name : List α} (h : slash ∉ name) :
  moves slash dot name = [move dot name]
  := by
  rw [moves, List.splitOn_eq_singleton h, List.map_singleton]

/-- A path is resolved from where the part in front of its last component leads. -/
theorem resolve_append {path : List α} (h : path ≠ []) (cwd : List (List α)) (rest : List α) :
  resolve slash dot cwd (path ++ rest) =
    walk (resolve slash dot cwd (parent slash path)) (moves slash dot (lastName slash path ++ rest))
  := by
  have hpath := parent_append_lastName slash path
  rw [resolve, resolve]
  conv_lhs => rw [← hpath, List.append_assoc]
  rcases parent_cases slash path with hparent | ⟨front, hparent⟩
  · have hhead : (lastName slash path ++ rest).head? ≠ some slash := by
      rw [hparent, List.nil_append] at hpath
      rw [hpath, List.head?_append_of_ne_nil _ h]
      intro hhead
      apply notMem_lastName slash path
      rw [hpath]
      apply List.mem_of_mem_head? hhead
    rw [hparent, List.nil_append, if_neg hhead, moves_of_notMem (by simp : slash ∉ ([] : List α))]
    simp [walk, move, visit]
  · rw [hparent, List.append_assoc, List.singleton_append, moves_append_cons, moves_append_cons,
      moves_of_notMem (by simp : slash ∉ ([] : List α))]
    have hhead : (front ++ slash :: (lastName slash path ++ rest)).head?
        = (front ++ [slash]).head? := by
      cases front <;> rfl
    rw [hhead]
    simp [walk, move, visit]

/-- A path is one move away from the part in front of its last component. -/
theorem resolve_eq_visit {path : List α} (h : path ≠ []) (cwd : List (List α)) :
  resolve slash dot cwd path =
    visit (resolve slash dot cwd (parent slash path)) (move dot (lastName slash path))
  := by
  have heq : resolve slash dot cwd (path ++ []) = _ := resolve_append h cwd []
  rw [List.append_nil, List.append_nil, moves_of_notMem (notMem_lastName slash path)] at heq
  apply heq

variable (slash dot) in
/-- The last component of `dir` with `rest` behind it climbs and then goes down through those names of
the directory `dir` that are below the place it has climbed to. -/
def Returns (cwd : List (List α)) (dir rest : List α) : Prop :=
  let n := net (moves slash dot (lastName slash dir ++ rest))
  (resolve slash dot cwd dir).drop ((resolve slash dot cwd (parent slash dir)).length - n.ups) <+: n.names

instance (cwd : List (List α)) (dir rest : List α) : Decidable (Returns slash dot cwd dir rest) :=
  inferInstanceAs (Decidable (_ <+: _))

/-- What is written behind the text of a directory leads into it exactly if it returns. -/
theorem inside_append_iff {dir : List α} (h : dir ≠ []) (cwd : List (List α)) (rest : List α) :
  Inside slash dot cwd dir (dir ++ rest) ↔ Returns slash dot cwd dir rest
  := by
  rw [Inside, resolve_append h, Returns, resolve_eq_visit h, isPrefix_walk_iff]

/-- Behind a slash, what does not climb leads into the directory. -/
theorem inside_slash {dir rest : List α} (h : dir ≠ []) (hups : (net (moves slash dot rest)).ups = 0)
    (cwd : List (List α)) :
  Inside slash dot cwd dir (dir ++ slash :: rest)
  := by
  have hhead : (dir ++ slash :: rest).head? = dir.head? := List.head?_append_of_ne_nil _ h
  rw [Inside, resolve, resolve, moves_append_cons, hhead, walk, walk, List.foldl_append]
  apply isPrefix_walk hups

end Paths

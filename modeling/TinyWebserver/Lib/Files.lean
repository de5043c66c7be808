import Mathlib.Tactic
import Mathlib.Data.List.DropRight

/-!
# Files and directories

A file system gives for a path, without slashes at its end, what is there: nothing, a directory, or a file
with its content. A path is not followed further: paths that differ inside are taken as different, and those
with the name `..`, with a name that is too long or with a zero byte are beyond what is said here, and so are
symbolic links. `stat`, `mkdir` and `openAppend` are the calls of the system that look at a path, make a
directory, and open a file to write at its end; they change nothing but the entry of their own path, and no
entry that is there, `mkdir_of_some`, `openAppend_of_some`.
-/

/-- What is at a path. -/
inductive Entry where
  | directory (writable : Bool)
  | file (writable : Bool) (content : List UInt8)
deriving DecidableEq

/-- The entries of all paths. -/
abbrev Files := List UInt8 → Option Entry

namespace Files

/-- The byte `'/'`. -/
def slash : UInt8 := 47

/-- The path without the slashes at its end. -/
def key (path : List UInt8) : List UInt8 := path.rdropWhile (· == slash)

/-- The directory a path is in, `.` if it has no slash. -/
def parent (path : List UInt8) : List UInt8 :=
  match path.rdropWhile (· != slash) with
  | [] => [46]
  | c :: dir => key (c :: dir)

/-- The part of a path behind the last slash. -/
def baseName (path : List UInt8) : List UInt8 := path.rtakeWhile (· != slash)

/-- The path ends in a slash. -/
def asDirectory (path : List UInt8) : Bool := path.getLast? = some slash

/-- `stat`: a file is not found under a path that ends in a slash. -/
def stat (fs : Files) (path : List UInt8) : Option Entry :=
  if path = [] then none
  else
    match fs (key path) with
    | some (.file writable content) => if asDirectory path then none else some (.file writable content)
    | entry => entry

/-- `mkdir`, which does nothing if it fails. -/
def mkdir (fs : Files) (path : List UInt8) : Files :=
  if path ≠ [] ∧ fs (key path) = none ∧ fs (parent (key path)) = some (.directory true) then
    Function.update fs (key path) (some (.directory true))
  else fs

/-- `open` for writing at the end, which makes a file that is missing. -/
def openAppend (fs : Files) (path : List UInt8) : Option Files :=
  if path = [] ∨ asDirectory path then none
  else
    match fs (parent path), fs path with
    | some (.directory _), some (.file true _) => some fs
    | some (.directory true), none => some (Function.update fs path (some (.file true [])))
    | _, _ => none

/-- The bytes are written at the end of a file. -/
def append (fs : Files) (path bytes : List UInt8) : Files :=
  match fs path with
  | some (.file writable content) => Function.update fs path (some (.file writable (content ++ bytes)))
  | _ => fs

/-! ### Paths -/

theorem length_key_le (path : List UInt8) :
  (key path).length ≤ path.length
  := by
  apply List.IsPrefix.length_le
  apply List.rdropWhile_prefix

theorem key_append_slash (path : List UInt8) :
  key (path ++ [slash]) = key path
  := List.rdropWhile_concat_pos _ _ _ (by decide)

theorem key_eq_self {path : List UInt8} (h : asDirectory path = false) :
  key path = path
  := by
  rw [key, List.rdropWhile_eq_self_iff]
  intro hl hslash
  simp only [beq_iff_eq] at hslash
  simp [asDirectory, List.getLast?_eq_some_getLast hl, hslash] at h

/-- A name, which has no slash, is left alone. -/
theorem rdropWhile_append_name {name : List UInt8} (hname : ∀ c ∈ name, c ≠ slash) (dir : List UInt8) :
  (dir ++ name).rdropWhile (· != slash) = dir.rdropWhile (· != slash)
  := by
  induction name using List.reverseRecOn with
  | nil => simp
  | append_singleton name c ih =>
      rw [← List.append_assoc, List.rdropWhile_concat_pos]
      · apply ih
        intro c' hc'
        apply hname c' (List.mem_append_left _ hc')
      · simpa using hname c (by simp)

theorem rtakeWhile_append_name {name : List UInt8} (hname : ∀ c ∈ name, c ≠ slash) (dir : List UInt8) :
  (dir ++ name).rtakeWhile (· != slash) = dir.rtakeWhile (· != slash) ++ name
  := by
  induction name using List.reverseRecOn with
  | nil => simp
  | append_singleton name c ih =>
      have hrest := ih fun c' hc' => hname c' (List.mem_append_left _ hc')
      rw [← List.append_assoc, List.rtakeWhile_concat_pos, hrest, List.append_assoc]
      simpa using hname c (by simp)

/-- The directory of a name behind a slash. -/
theorem parent_slash_append {name : List UInt8} (hname : ∀ c ∈ name, c ≠ slash) (dir : List UInt8) :
  parent (dir ++ [slash] ++ name) = key dir
  := by
  have hdrop : (dir ++ [slash] ++ name).rdropWhile (· != slash) = dir ++ [slash] := by
    rw [rdropWhile_append_name hname]
    apply List.rdropWhile_concat_neg
    simp
  have hkey := key_append_slash dir
  rw [parent, hdrop]
  cases dir with
  | nil => apply hkey
  | cons c rest => apply hkey

theorem baseName_append {name : List UInt8} (hname : ∀ c ∈ name, c ≠ slash) (dir : List UInt8) :
  baseName (dir ++ name) = baseName dir ++ name
  := rtakeWhile_append_name hname dir

theorem baseName_eq_nil_iff (path : List UInt8) :
  baseName path = [] ↔ path = [] ∨ asDirectory path = true
  := by
  induction path using List.reverseRecOn with
  | nil => simp [baseName]
  | append_singleton path c _ =>
      by_cases hc : c = slash
      · simp [baseName, asDirectory, hc]
      · simp [baseName, asDirectory, hc]

/-! ### What the calls change -/

variable {fs fs' : Files} {path : List UInt8}

theorem mkdir_of_some (path : List UInt8) {k : List UInt8} {entry : Entry} (h : fs k = some entry) :
  mkdir fs path k = some entry
  := by
  rw [mkdir]
  split
  · rename_i hnew
    have hne : k ≠ key path := by
      rintro rfl
      simp [hnew.2.1] at h
    rw [Function.update_of_ne hne, h]
  · apply h

theorem mkdir_of_ne {k : List UInt8} (h : k ≠ key path) :
  mkdir fs path k = fs k
  := by
  rw [mkdir]
  split
  · apply Function.update_of_ne h
  · rfl

/-- There is a file that can be written, or there is none. -/
def Openable (fs : Files) (path : List UInt8) : Prop :=
  fs path = none ∨ ∃ content, fs path = some (.file true content)

/-- In a directory that can be written, a file is opened exactly if there is no directory, and no file that
cannot be written, at its path. -/
theorem openAppend_isSome_iff (hpath : path ≠ []) (hfile : asDirectory path = false)
    (hparent : fs (parent path) = some (.directory true)) :
  (openAppend fs path).isSome ↔ Openable fs path
  := by
  rw [openAppend, if_neg (by simp [hpath, hfile]), hparent, Openable]
  cases hentry : fs path with
  | none => simp
  | some entry =>
      cases entry with
      | directory writable => simp
      | file writable content => cases writable <;> simp

/-- What opening a file does: nothing to a file that is there, and a missing one is made. -/
theorem openAppend_cases (h : openAppend fs path = some fs') :
  (∃ writable content, fs (parent path) = some (.directory writable) ∧
      fs path = some (.file true content) ∧ fs' = fs) ∨
    fs (parent path) = some (.directory true) ∧ fs path = none ∧
      fs' = Function.update fs path (some (.file true []))
  := by
  rw [openAppend] at h
  split at h
  · simp at h
  · split at h
    · rename_i writable content hparent hentry
      exact Or.inl ⟨writable, content, hparent, hentry, (Option.some.inj h).symm⟩
    · rename_i hparent hentry
      exact Or.inr ⟨hparent, hentry, (Option.some.inj h).symm⟩
    · simp at h

/-- What a file that was opened is, and that the rest is as before. -/
theorem openAppend_spec (h : openAppend fs path = some fs') :
  (∃ content, fs' path = some (.file true content)) ∧
    (∃ writable, fs (parent path) = some (.directory writable)) ∧ ∀ k ≠ path, fs' k = fs k
  := by
  obtain ⟨writable, content, hparent, hentry, rfl⟩ | ⟨hparent, -, rfl⟩ := openAppend_cases h
  · exact ⟨⟨content, hentry⟩, ⟨writable, hparent⟩, fun _ _ => rfl⟩
  · refine ⟨⟨[], Function.update_self ..⟩, ⟨true, hparent⟩, ?_⟩
    intro k hk
    apply Function.update_of_ne hk

theorem openAppend_of_some (h : openAppend fs path = some fs') {k : List UInt8} {entry : Entry}
    (hentry : fs k = some entry) :
  fs' k = some entry
  := by
  obtain ⟨_, _, -, -, rfl⟩ | ⟨-, hnone, rfl⟩ := openAppend_cases h
  · apply hentry
  · have hne : k ≠ path := by
      rintro rfl
      simp [hnone] at hentry
    rw [Function.update_of_ne hne, hentry]

/-- A file that is there can be opened again. -/
theorem openAppend_of_file (hpath : path ≠ []) (hfile : asDirectory path = false) {writable : Bool}
    (hparent : fs (parent path) = some (.directory writable)) {content : List UInt8}
    (hentry : fs path = some (.file true content)) :
  openAppend fs path = some fs
  := by
  rw [openAppend, if_neg (by simp [hpath, hfile]), hparent, hentry]

/-- A directory is not opened for writing. -/
theorem openAppend_of_directory {writable : Bool} (h : fs (key path) = some (.directory writable)) :
  openAppend fs path = none
  := by
  rw [openAppend]
  split
  · rfl
  · rename_i hfile
    rw [key_eq_self (by simpa using (not_or.mp hfile).2)] at h
    simp [h]

/-- Nothing is opened in what is not a directory. -/
theorem openAppend_of_parent {writable : Bool} {content : List UInt8}
    (hparent : fs (parent path) = some (.file writable content)) :
  openAppend fs path = none
  := by
  rw [openAppend]
  split
  · rfl
  · simp [hparent]

theorem append_self {writable : Bool} {content : List UInt8}
    (h : fs path = some (.file writable content)) (bytes : List UInt8) :
  append fs path bytes path = some (.file writable (content ++ bytes))
  := by
  rw [append, h]
  apply Function.update_self

theorem append_of_ne {k : List UInt8} (h : k ≠ path) (bytes : List UInt8) :
  append fs path bytes k = fs k
  := by
  rw [append]
  cases fs path with
  | none => rfl
  | some entry =>
      cases entry with
      | directory writable => rfl
      | file writable content => apply Function.update_of_ne h

/-! ### The bytes in the files -/

/-- The bytes at a path, none if there is no file. -/
def content (fs : Files) (path : List UInt8) : List UInt8 :=
  match fs path with
  | some (.file _ content) => content
  | _ => []

theorem content_mkdir (fs : Files) (path k : List UInt8) :
  content (mkdir fs path) k = content fs k
  := by
  by_cases hk : k = key path
  · subst hk
    rw [mkdir]
    split
    · rename_i hnew
      simp [content, hnew.2.1]
    · rfl
  · simp only [content, mkdir_of_ne hk]

theorem content_openAppend (h : openAppend fs path = some fs') (k : List UInt8) :
  content fs' k = content fs k
  := by
  obtain ⟨_, _, -, -, rfl⟩ | ⟨-, hnone, rfl⟩ := openAppend_cases h
  · rfl
  · by_cases hk : k = path
    · simp [content, hk, hnone]
    · simp [content, Function.update_of_ne hk]

theorem content_append {writable : Bool} {old : List UInt8}
    (h : fs path = some (.file writable old)) (bytes k : List UInt8) :
  content (append fs path bytes) k = content fs k ++ if path = k then bytes else []
  := by
  by_cases hk : path = k
  · subst hk
    simp [content, append_self h, h]
  · simp [content, append_of_ne (Ne.symm hk), hk]

end Files

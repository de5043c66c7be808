import TinyWebserver.Base.Config
import TinyWebserver.Lib.Transition

/-!
# A directory of configuration files

`Config::LoadFromConfDir` of `base/config.cpp` loads the files that `FSUtil::ListAllFile` of `base/util.cpp`
finds under a path, but for those whose time of modification is the one recorded at the last call. The time
is recorded before the file is read, and a time that was never recorded reads as zero. So a file that
could not be read is not read again, `skipped_after_failure`.

`run_applied`: where every file that is tried can be read, and no file appears with the time that is
recorded for its path, each call in which all files can be read leaves all of them applied.
-/

namespace ConfDir

open Transition

/-- The byte `'/'`. -/
def separator : Byte := 47

/-- What `readdir` gives: a regular file, a directory, which may not open, or something else. -/
inductive DirEntry where
  | reg (name : Text)
  | dir (name : Text) (opened : Bool) (entries : List DirEntry)
  | other (name : Text)

/-- `ends with`, as `ListAllFile` compares. -/
def endsWith (filename subfix : Text) : Prop :=
  ¬ filename.length < subfix.length ∧ filename.drop (filename.length - subfix.length) = subfix

instance (filename subfix : Text) : Decidable (endsWith filename subfix) :=
  inferInstanceAs (Decidable (_ ∧ _))

mutual

/-- The loop of `ListAllFile` over the entries of a directory. -/
def listEntries (files : List Text) (path subfix : Text) : List DirEntry → List Text
  | [] => files
  | dp :: rest => listEntries (listEntry files path subfix dp) path subfix rest

/-- One turn of the loop. -/
def listEntry (files : List Text) (path subfix : Text) : DirEntry → List Text
  | .dir name opened entries =>
      if name = ascii "." ∨ name = ascii ".." then
        files
      else if opened = true then
        listEntries files (path ++ [separator] ++ name) subfix entries
      else
        files
  | .reg name =>
      if subfix = [] then
        files ++ [path ++ [separator] ++ name]
      else if endsWith name subfix then
        files ++ [path ++ [separator] ++ name]
      else
        files
  | .other _ => files

end

/-- A state of the directory: the tree under the path, and for each path the time of modification and the
tree of its text, `none` if the file cannot be read or is not YAML. -/
structure Dir where
  opened : Bool
  entries : List DirEntry
  mtime : Text → ℕ
  root : Text → Option YamlNode

/-- `ListAllFile`. -/
def listAllFile (d : Dir) (path subfix : Text) : List Text :=
  if d.opened = true then listEntries [] path subfix d.entries else []

variable {τ V : Type}

/-- The directory, `s_file2modifytime` and the configuration, and whether the version of a file that is
there has been applied since it appeared. -/
structure State (τ V : Type) where
  dir : Dir
  s_file2modifytime : Text → ℕ
  config : Config.State τ V
  applied : Text → Bool

variable (c : Config.Conversions τ V) (emit : YamlNode → Text) (path : Text)

/-- One turn of the loop of `LoadFromConfDir`. -/
def loadFile (force : Bool) (s : State τ V) (i : Text) : State τ V :=
  if force = false ∧ s.s_file2modifytime i = s.dir.mtime i then
    s
  else
    let s := { s with s_file2modifytime := Function.update s.s_file2modifytime i (s.dir.mtime i) }
    match s.dir.root i with
    | none => s
    | some root =>
        { s with
          config := Config.loadFromYaml c emit s.config root
          applied := Function.update s.applied i true }

/-- `LoadFromConfDir`. -/
def loadFromConfDir (s : State τ V) (force : Bool) : State τ V :=
  (listAllFile s.dir path (ascii ".yml")).foldl (loadFile c emit force) s

/-! ### Files that are there -/

mutual

/-- The configuration files under the entries of a directory. -/
def ymlFiles (path : Text) : List DirEntry → List Text
  | [] => []
  | dp :: rest => ymlFile path dp ++ ymlFiles path rest

/-- The configuration files under an entry. -/
def ymlFile (path : Text) : DirEntry → List Text
  | .dir name _ entries =>
      if name = ascii "." ∨ name = ascii ".." then [] else ymlFiles (path ++ [separator] ++ name) entries
  | .reg name => if endsWith name (ascii ".yml") then [path ++ [separator] ++ name] else []
  | .other _ => []

end

mutual

/-- All directories can be opened. -/
def allOpened : List DirEntry → Bool
  | [] => true
  | dp :: rest => entryOpened dp && allOpened rest

/-- An entry and all directories under it can be opened. -/
def entryOpened : DirEntry → Bool
  | .dir _ opened entries => opened && allOpened entries
  | _ => true

end

namespace Dir

/-- The configuration files that are there. -/
def files (d : Dir) (path : Text) : List Text := ymlFiles path d.entries

/-- The version of a file: its time of modification, if it is there. -/
def version (d : Dir) (path i : Text) : Option ℕ :=
  if (d.files path).contains i then some (d.mtime i) else none

/-- Every configuration file can be found, read and parsed. -/
def Readable (d : Dir) (path : Text) : Prop :=
  d.opened = true ∧ allOpened d.entries = true ∧ ∀ i ∈ d.files path, (d.root i).isSome = true

instance (d : Dir) (path : Text) : Decidable (d.Readable path) := inferInstanceAs (Decidable (_ ∧ _))

/-- A directory without files. -/
def empty : Dir := ⟨true, [], fun _ => 0, fun _ => none⟩

end Dir

/-- A step: the directory changes, or its files are loaded. -/
inductive Label where
  | change (d : Dir)
  | load

/-- One step. A version that is replaced has to be applied again. -/
def step (s : State τ V) : Label → Option (State τ V)
  | .change d =>
      some { s with
        dir := d
        applied := fun i => s.applied i && decide (s.dir.version path i = d.version path i) }
  | .load => some (loadFromConfDir c emit path s false)

/-- The start of the program, with a configuration, before any file is there. -/
def start (config : Config.State τ V) : State τ V := ⟨Dir.empty, fun _ => 0, config, fun _ => false⟩

/-- A step that does not reach the defect: no file appears with the time that is recorded for its path, and
no file fails that is tried. -/
def Sound (s : State τ V) : Label → Prop
  | .change d => ∀ i ∈ d.files path, s.dir.version path i ≠ d.version path i →
      s.s_file2modifytime i ≠ d.mtime i
  | .load => ∀ i ∈ listAllFile s.dir path (ascii ".yml"), s.s_file2modifytime i ≠ s.dir.mtime i →
      (s.dir.root i).isSome = true

instance (s : State τ V) : ∀ l, Decidable (Sound path s l)
  | .change d => inferInstanceAs (Decidable (∀ i ∈ d.files path, _))
  | .load => inferInstanceAs (Decidable (∀ i ∈ listAllFile s.dir path (ascii ".yml"), _))

/-- All files that are there have been applied. -/
def AllApplied (s : State τ V) : Prop := ∀ i ∈ s.dir.files path, s.applied i = true

/-! ### Listing -/

mutual

/-- Where all directories open, all files are listed. -/
theorem listEntries_eq (entries : List DirEntry) (h : allOpened entries = true) (files : List Text)
    (path : Text) :
  listEntries files path (ascii ".yml") entries = files ++ ymlFiles path entries
  := by
  match entries, h with
  | [], _ => simp [listEntries, ymlFiles]
  | dp :: rest, h =>
      simp only [allOpened, Bool.and_eq_true] at h
      rw [listEntries, listEntry_eq dp h.1, listEntries_eq rest h.2, ymlFiles, List.append_assoc]

theorem listEntry_eq (dp : DirEntry) (h : entryOpened dp = true) (files : List Text) (path : Text) :
  listEntry files path (ascii ".yml") dp = files ++ ymlFile path dp
  := by
  match dp, h with
  | .other name, _ => simp [listEntry, ymlFile]
  | .reg name, _ =>
      rw [listEntry, if_neg (by decide), ymlFile]
      split
      · rfl
      · rw [List.append_nil]
  | .dir name opened entries, h =>
      simp only [entryOpened, Bool.and_eq_true] at h
      rw [listEntry, ymlFile]
      split
      · rw [List.append_nil]
      · rw [if_pos h.1, listEntries_eq entries h.2]

end

theorem listAllFile_of_readable {d : Dir} {path : Text} (h : d.Readable path) :
  listAllFile d path (ascii ".yml") = d.files path
  := by
  rw [listAllFile, if_pos h.1, listEntries_eq d.entries h.2.1]
  rfl

/-! ### Loading -/

variable {c emit path}

/-- A turn for a file leaves the directory, and what is recorded for other files. -/
theorem loadFile_dir (s : State τ V) (i : Text) :
  (loadFile c emit false s i).dir = s.dir
  := by
  rw [loadFile]
  split
  · rfl
  · simp only
    split <;> rfl

/-- The file of a turn is recorded then. -/
theorem loadFile_time (s : State τ V) (i : Text) :
  (loadFile c emit false s i).s_file2modifytime
    = Function.update s.s_file2modifytime i (s.dir.mtime i)
  := by
  rw [loadFile]
  split
  · rename_i h
    rw [← h.2, Function.update_eq_self]
  · simp only
    split <;> rfl

/-- A file that is tried and can be read is applied, and others stay as they are. -/
theorem loadFile_applied (s : State τ V) (i : Text) :
  (loadFile c emit false s i).applied
    = if s.s_file2modifytime i ≠ s.dir.mtime i ∧ (s.dir.root i).isSome = true then
        Function.update s.applied i true
      else
        s.applied
  := by
  rw [loadFile]
  by_cases htime : s.s_file2modifytime i = s.dir.mtime i
  · rw [if_pos ⟨rfl, htime⟩, if_neg fun h => h.1 htime]
  · rw [if_neg fun h => htime h.2]
    cases hroot : s.dir.root i with
    | none => simp [hroot]
    | some root => simp [hroot, htime]

/-- The files that are there and have the recorded time are applied. -/
def Recorded (path : Text) (s : State τ V) : Prop :=
  ∀ i ∈ s.dir.files path, s.s_file2modifytime i = s.dir.mtime i → s.applied i = true

/-- A turn for a file that can be read if it is tried. -/
theorem recorded_loadFile {s : State τ V} (h : Recorded path s) {i : Text}
    (hroot : s.s_file2modifytime i ≠ s.dir.mtime i → (s.dir.root i).isSome = true) :
  Recorded path (loadFile c emit false s i)
  := by
  intro j hj htime
  rw [loadFile_dir] at hj htime
  rw [loadFile_time] at htime
  rw [loadFile_applied]
  rcases eq_or_ne j i with rfl | hne
  · split
    · rw [Function.update_self]
    · rename_i htried
      apply h j hj
      by_contra hdiffers
      apply htried ⟨hdiffers, hroot hdiffers⟩
  · rw [Function.update_of_ne hne] at htime
    split
    · rw [Function.update_of_ne hne]
      apply h j hj htime
    · apply h j hj htime

theorem foldl_dir (files : List Text) (s : State τ V) :
  (files.foldl (loadFile c emit false) s).dir = s.dir
  := by
  induction files generalizing s with
  | nil => rfl
  | cons j files ih => rw [List.foldl_cons, ih, loadFile_dir]

/-- The files of the turns are recorded then. -/
theorem foldl_time (files : List Text) (s : State τ V) (i : Text) :
  (files.foldl (loadFile c emit false) s).s_file2modifytime i
    = if i ∈ files then s.dir.mtime i else s.s_file2modifytime i
  := by
  induction files generalizing s with
  | nil => simp
  | cons j files ih =>
      rw [List.foldl_cons, ih, loadFile_dir, loadFile_time]
      rcases eq_or_ne i j with rfl | hne
      · simp
      · simp [hne]

/-- The turns for files that can be read if they are tried. -/
theorem recorded_foldl {files : List Text} {s : State τ V} (h : Recorded path s)
    (hroot : ∀ i ∈ files, s.s_file2modifytime i ≠ s.dir.mtime i → (s.dir.root i).isSome = true) :
  Recorded path (files.foldl (loadFile c emit false) s)
  := by
  induction files generalizing s with
  | nil => apply h
  | cons j files ih =>
      apply ih (recorded_loadFile h (hroot j List.mem_cons_self))
      intro i hi
      rw [loadFile_dir, loadFile_time]
      rcases eq_or_ne i j with rfl | hne
      · simp
      · rw [Function.update_of_ne hne]
        apply hroot i (List.mem_cons_of_mem j hi)

/-! ### Runs -/

theorem version_of_mem {d : Dir} {i : Text} (h : i ∈ d.files path) :
  d.version path i = some (d.mtime i)
  := if_pos (List.contains_iff_mem.mpr h)

theorem mem_of_version {d : Dir} {i : Text} {t : ℕ} (h : d.version path i = some t) :
  i ∈ d.files path ∧ d.mtime i = t
  := by
  rw [Dir.version] at h
  split at h
  · rename_i hmem
    exact ⟨List.contains_iff_mem.mp hmem, Option.some.inj h⟩
  · cases h

/-- A step that does not reach the defect. -/
theorem recorded_step (s : State τ V) (l : Label) (s' : State τ V) (h : Recorded path s)
    (hsound : Sound path s l) (hstep : step c emit path s l = some s') :
  Recorded path s'
  := by
  cases l with
  | load =>
      obtain rfl := Option.some.inj hstep
      apply recorded_foldl h hsound
  | change d =>
      obtain rfl := Option.some.inj hstep
      intro i hi htime
      have hsame : s.dir.version path i = d.version path i := by
        by_contra hne
        apply hsound i hi hne htime
      obtain ⟨hmem, hmtime⟩ := mem_of_version (hsame.trans (version_of_mem hi))
      rw [Bool.and_eq_true, decide_eq_true_eq]
      exact ⟨h i hmem (htime.trans hmtime.symm), hsame⟩

theorem recorded_start (config : Config.State τ V) :
  Recorded path (start config)
  := by
  intro i hi
  cases hi

/-- A call in which all files can be read. -/
theorem allApplied_load {s : State τ V} (h : Recorded path s)
    (hreadable : (loadFromConfDir c emit path s false).dir.Readable path) :
  AllApplied path (loadFromConfDir c emit path s false)
  := by
  rw [loadFromConfDir, foldl_dir] at hreadable
  have hlist := listAllFile_of_readable hreadable
  have hafter : Recorded path (loadFromConfDir c emit path s false) := by
    apply recorded_foldl h
    rw [hlist]
    intro i hi _
    apply hreadable.2.2 i hi
  intro i hi
  apply hafter i hi
  rw [loadFromConfDir, foldl_dir] at hi ⊢
  rw [foldl_time, hlist, if_pos hi]

/-- In a run that does not reach the defect, a call in which all files can be read leaves all of them
applied since they appeared. -/
theorem run_applied {config : Config.State τ V} {ls : List Label} {s : State τ V}
    (hrun : run (step c emit path) (start config) (ls ++ [.load]) = some s)
    (hsound : Guarded (step c emit path) (Sound path) (start config) ls)
    (hreadable : s.dir.Readable path) :
  AllApplied path s
  := by
  rw [run_append] at hrun
  obtain ⟨t, ht, hlast⟩ := Option.bind_eq_some_iff.mp hrun
  have hrecorded := run_guarded_invariant recorded_step (recorded_start config) hsound ht
  obtain ⟨u, hu, hend⟩ := Option.bind_eq_some_iff.mp hlast
  obtain rfl := Option.some.inj hu
  obtain rfl := Option.some.inj hend
  apply allApplied_load hrecorded hreadable

/-- A directory with one file. -/
def single (mtime : ℕ) (root : Option YamlNode) : Dir :=
  ⟨true, [.reg (ascii "a.yml")], fun _ => mtime, fun _ => root⟩

/-- Conversions of a program without variables. -/
def noVariables : Config.Conversions Unit Unit := ⟨fun _ _ => none, fun _ _ _ => true⟩

theorem run_applied_single :
  ∃ s, run (step noVariables (fun _ => []) (ascii "conf")) (start Config.empty)
      [.change (single 1 (some .null)), .load] = some s ∧ AllApplied (ascii "conf") s
  := by
  have hrun : run (step noVariables (fun _ => []) (ascii "conf")) (start Config.empty)
      ([.change (single 1 (some .null))] ++ [.load]) = some _ := rfl
  exact ⟨_, hrun, run_applied hrun (by decide) (by decide)⟩

/-- A file that could not be read at its first call is skipped when it can be read. -/
theorem skipped_after_failure :
  ¬ ∀ (ls : List Label) (s : State Unit Unit),
    run (step noVariables (fun _ => []) (ascii "conf")) (start Config.empty) (ls ++ [.load]) = some s →
      s.dir.Readable (ascii "conf") → AllApplied (ascii "conf") s
  := by
  intro h
  have happlied := h [.change (single 1 none), .load, .change (single 1 (some .null))] _ rfl
    (by decide) (ascii "conf/a.yml") (by decide)
  exact absurd happlied (by decide)

end ConfDir

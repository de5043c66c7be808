import TinyWebserver.Base.FileLogAppender
import TinyWebserver.Lib.Paths

/-!
# The directories and the files of the appenders

`MakeSurePathExist` makes all directories on a path, and one of the whole path too, `makeSurePathExist_made`,
for a path without the name `..`, which the file systems here do not follow.
`FileLogAppender::Log` calls it with the name of its file. While the file is there, nothing happens. But if
someone removes it, a directory is made in its place, and nothing is logged to any file until the next day,
`run_removed`.
-/

open Files

namespace Files

theorem parent_append_slash (dir : List UInt8) :
  parent (dir ++ [slash]) = key dir
  := by
  rw [← parent_slash_append (by simp : ∀ c ∈ ([] : List UInt8), c ≠ slash), List.append_nil]

theorem parent_append_of_ne (dir : List UInt8) {c : UInt8} (hc : c ≠ slash) :
  parent (dir ++ [c]) = parent dir
  := by
  rw [parent, parent, rdropWhile_append_name (by simpa using hc)]

theorem parent_of_asDirectory {dir : List UInt8} (h : asDirectory dir = true) :
  parent dir = key dir
  := by
  have hlast : dir.getLast? = some slash := by simpa [asDirectory] using h
  obtain ⟨dir', rfl⟩ := List.getLast?_eq_some_iff.mp hlast
  rw [parent_append_slash, key_append_slash]

end Files

namespace FSUtil

/-! ### The parts of a path -/

/-- The path ends in a separator. -/
def EndsInSeparator (path : List Byte) : Prop :=
  path.getLast? = some slash ∨ path.getLast? = some backslash

instance (path : List Byte) : Decidable (EndsInSeparator path) := inferInstanceAs (Decidable (_ ∨ _))

/-- A part of a path: up to a separator, or the whole of it. -/
def Part (path dir : List Byte) : Prop := dir ≠ [] ∧ dir <+: path ∧ (dir = path ∨ EndsInSeparator dir)

instance (path dir : List Byte) : Decidable (Part path dir) := inferInstanceAs (Decidable (_ ∧ _ ∧ _))

theorem part_of_mem_parents {path seen dir : List Byte} (h : dir ∈ parents seen path) :
  Part (seen ++ path) dir
  := by
  induction path generalizing seen with
  | nil =>
      rw [List.append_nil]
      rw [parents] at h
      split at h
      · cases h
      · rename_i hend
        obtain rfl := List.mem_singleton.mp h
        exact ⟨fun hnil => hend (Or.inl hnil), List.prefix_rfl, Or.inl rfl⟩
  | cons c rest ih =>
      have hrest : seen ++ c :: rest = seen ++ [c] ++ rest := by simp
      rw [hrest]
      rw [parents] at h
      split at h
      · rename_i hsep
        rcases List.mem_cons.mp h with rfl | h
        · refine ⟨by simp, List.prefix_append _ _, Or.inr ?_⟩
          rw [EndsInSeparator, List.getLast?_concat, Option.some.injEq, Option.some.injEq]
          apply hsep
        · apply ih h
      · apply ih h

theorem mem_parents_of_part (seen : List Byte) {path dir : List Byte} (hne : dir ≠ []) (hbegins : dir <+: path)
    (hend : dir = path ∨ EndsInSeparator (seen ++ dir)) :
  seen ++ dir ∈ parents seen path
  := by
  induction path generalizing seen dir with
  | nil => exact absurd (List.prefix_nil.mp hbegins) hne
  | cons c rest ih =>
      obtain ⟨d, t, rfl⟩ := List.exists_cons_of_ne_nil hne
      obtain ⟨rfl, ht⟩ := List.cons_prefix_cons.mp hbegins
      rw [parents]
      rcases eq_or_ne t [] with rfl | hne'
      · split
        · apply List.mem_cons_self
        · rename_i hsep
          have hlast : ¬ EndsInSeparator (seen ++ [d]) := by
            rw [EndsInSeparator, List.getLast?_concat, Option.some.injEq, Option.some.injEq]
            apply hsep
          obtain rfl : [] = rest := by simpa [hlast] using hend
          have hfirst : seen ++ [d] ≠ [] := by simp
          rw [parents, if_neg (not_or.mpr ⟨hfirst, hlast⟩ : ¬ (_ ∨ _ ∨ _))]
          apply List.mem_singleton_self
      · have happend : seen ++ d :: t = seen ++ [d] ++ t := by simp
        have hmem : seen ++ [d] ++ t ∈ parents (seen ++ [d]) rest := by
          apply ih _ hne' ht
          rw [← happend]
          simpa using hend
        rw [happend]
        split
        · apply List.mem_cons_of_mem _ hmem
        · apply hmem

/-- The loop looks at the parts of the path. -/
theorem mem_parents_iff {path dir : List Byte} :
  dir ∈ parents [] path ↔ Part path dir
  := by
  constructor
  · apply part_of_mem_parents
  · rintro ⟨hne, hbegins, hend⟩
    apply mem_parents_of_part [] hne hbegins hend

/-! ### The directories that are made -/

/-- One turn of the loop of `MakeSurePathExist`. -/
def makeDir (fs : Files) (dir : List Byte) : Files := if isExist fs dir then fs else mkdir fs dir

/-- A directory that can be written. -/
def IsDir (fs : Files) (k : List Byte) : Prop := fs k = some (.directory true)

variable {fs : Files}

theorem IsDir.makeDir {k : List Byte} (h : IsDir fs k) (dir : List Byte) :
  IsDir (makeDir fs dir) k
  := by
  rw [IsDir, FSUtil.makeDir]
  split
  · apply h
  · apply mkdir_of_some dir h

theorem makeDir_of_ne (fs : Files) {dir k : List Byte} (h : k ≠ key dir) :
  makeDir fs dir k = fs k
  := by
  rw [makeDir]
  split
  · rfl
  · apply mkdir_of_ne h

/-- A directory is made, where nothing is in its way and the one it is in is there. -/
theorem isDir_makeDir {dir : List Byte} (hdir : dir ≠ []) (hfree : fs (key dir) = none ∨ IsDir fs (key dir))
    (hparent : fs (key dir) = none → IsDir fs (parent (key dir))) :
  IsDir (makeDir fs dir) (key dir)
  := by
  rcases hfree with hnone | hthere
  · have hexist : isExist fs dir = false := by simp [isExist, stat, hdir, hnone]
    rw [IsDir, makeDir, hexist, if_neg (by simp), mkdir, if_pos ⟨hdir, hnone, hparent hnone⟩]
    apply Function.update_self
  · apply hthere.makeDir

/-- Nothing is in the way of the directories. -/
def Free (fs : Files) (dirs : List (List Byte)) : Prop :=
  ∀ dir ∈ dirs, fs (key dir) = none ∨ IsDir fs (key dir)

theorem Free.makeDir {dir : List Byte} {dirs : List (List Byte)} (h : Free fs (dir :: dirs))
    (hmade : IsDir (makeDir fs dir) (key dir)) :
  Free (makeDir fs dir) dirs
  := by
  intro d hd
  by_cases hkey : key d = key dir
  · right
    rwa [hkey]
  · rw [IsDir, makeDir_of_ne fs hkey]
    apply h d (List.mem_cons_of_mem _ hd)

theorem IsDir.foldl {k : List Byte} (h : IsDir fs k) (dirs : List (List Byte)) :
  IsDir (dirs.foldl FSUtil.makeDir fs) k
  := by
  induction dirs generalizing fs with
  | nil => apply h
  | cons dir rest ih => apply ih (h.makeDir dir)

/-- The first of some directories is made, and the rest after it. -/
theorem isDir_foldl_cons {dir : List Byte} {dirs : List (List Byte)}
    (hmade : IsDir (makeDir fs dir) (key dir))
    (hrest : ∀ d ∈ dirs, IsDir (dirs.foldl makeDir (makeDir fs dir)) (key d)) :
  ∀ d ∈ dir :: dirs, IsDir ((dir :: dirs).foldl makeDir fs) (key d)
  := by
  intro d hd
  rw [List.foldl_cons]
  rcases List.mem_cons.mp hd with rfl | hd
  · apply hmade.foldl
  · apply hrest d hd

/-- The directories on the rest of a path are made, where the one the path has come to is there. -/
theorem isDir_parents (path seen : List Byte) (hroot : IsDir fs []) (hparent : IsDir fs (parent seen))
    (hfree : Free fs (parents seen path)) :
  ∀ dir ∈ parents seen path, IsDir ((parents seen path).foldl makeDir fs) (key dir)
  := by
  induction path generalizing fs seen with
  | nil =>
      rw [parents] at hfree ⊢
      split
      · simp
      · rename_i hend
        rw [if_neg hend] at hfree
        obtain ⟨hne, hslash, -⟩ : seen ≠ [] ∧ seen.getLast? ≠ some slash ∧ _ := by simpa using hend
        apply isDir_foldl_cons _ (by simp)
        apply isDir_makeDir hne (hfree seen List.mem_cons_self)
        intro _
        rwa [key_eq_self (by simpa [asDirectory] using hslash)]
  | cons c rest ih =>
      rw [parents] at hfree ⊢
      by_cases hslash : c = slash
      · subst hslash
        rw [if_pos (Or.inl rfl)] at hfree ⊢
        have hmade : IsDir (makeDir fs (seen ++ [slash])) (key (seen ++ [slash])) := by
          apply isDir_makeDir (by simp) (hfree _ List.mem_cons_self)
          rw [key_append_slash]
          intro hnone
          by_cases hdir : asDirectory seen = true
          · rw [parent_of_asDirectory hdir, IsDir, hnone] at hparent
            simp at hparent
          · rwa [key_eq_self (by simpa using hdir)]
        apply isDir_foldl_cons hmade
        apply ih _ (hroot.makeDir _) _ (hfree.makeDir hmade)
        rw [parent_append_slash, ← key_append_slash]
        apply hmade
      · by_cases hback : c = backslash
        · subst hback
          rw [if_pos (Or.inr rfl)] at hfree ⊢
          have hpath : parent (seen ++ [backslash]) = parent seen := parent_append_of_ne seen hslash
          have hmade : IsDir (makeDir fs (seen ++ [backslash])) (key (seen ++ [backslash])) := by
            apply isDir_makeDir (by simp) (hfree _ List.mem_cons_self)
            intro _
            rwa [key_eq_self (by simp [asDirectory, slash, backslash]), hpath]
          apply isDir_foldl_cons hmade
          apply ih _ (hroot.makeDir _) _ (hfree.makeDir hmade)
          rw [hpath]
          apply hparent.makeDir
        · rw [if_neg (by simp [hslash, hback])] at hfree ⊢
          apply ih _ hroot _ hfree
          rwa [parent_append_of_ne seen hslash]

theorem foldl_makeDir_of_ne {k : List Byte} {dirs : List (List Byte)} (h : ∀ dir ∈ dirs, k ≠ key dir) :
  dirs.foldl makeDir fs k = fs k
  := by
  induction dirs generalizing fs with
  | nil => rfl
  | cons dir rest ih =>
      rw [List.foldl_cons, ih fun d hd => h d (List.mem_cons_of_mem _ hd)]
      apply makeDir_of_ne fs (h dir List.mem_cons_self)

/-- The names of a path are followed one by one: none of them is `..` or too long, and no byte is zero. -/
def Plain (path : List Byte) : Prop :=
  path.length < 4096 ∧ ∀ name ∈ path.splitOn slash, name ≠ [46, 46] ∧ name.length ≤ 255 ∧ 0 ∉ name

/-- The root and the working directory can be written, and at each part of the path there is nothing or a
directory that can be written. -/
structure Clear (fs : Files) (path : List Byte) : Prop where
  plain : Plain path
  root : IsDir fs []
  cwd : IsDir fs [46]
  free : ∀ dir, Part path dir → fs (key dir) = none ∨ IsDir fs (key dir)

/-- Where a path without slashes at its end leads, from a working directory. -/
def place (cwd : List (List Byte)) (k : List Byte) : List (List Byte) :=
  Paths.resolve slash 46 cwd (k ++ [slash])

/-- Where nothing is in the way, behind `MakeSurePathExist` there is a directory at each part of the path, and
at the whole path; and nothing has changed at the paths that lead elsewhere. -/
theorem makeSurePathExist_made {path : List Byte} (h : Clear fs path) :
  (∀ dir, Part path dir → IsDir (makeSurePathExist fs path) (key dir)) ∧
    ∀ cwd k, Plain k → (∀ dir, Part path dir → place cwd k ≠ place cwd (key dir)) →
      makeSurePathExist fs path k = fs k
  := by
  constructor
  · intro dir hdir
    apply isDir_parents path [] h.root h.cwd _ dir (mem_parents_iff.mpr hdir)
    intro d hd
    apply h.free d (mem_parents_iff.mp hd)
  · intro cwd k _ hplace
    apply foldl_makeDir_of_ne
    rintro dir hdir rfl
    apply hplace dir (mem_parents_iff.mp hdir) rfl

/-- There are only the root and the working directory. -/
def bare : Files := fun k => if k = [] ∨ k = [46] then some (.directory true) else none

theorem makeSurePathExist_made_bare :
  IsDir (makeSurePathExist bare (ascii "./logs//web\\log")) (ascii "./logs")
  := by
  have hclear : Clear bare (ascii "./logs//web\\log") := by
    refine ⟨by unfold Plain; decide +kernel, rfl, rfl, ?_⟩
    have hfree : ∀ dir ∈ parents [] (ascii "./logs//web\\log"),
        bare (key dir) = none ∨ IsDir bare (key dir) := by
      unfold IsDir
      decide +kernel
    intro dir hdir
    apply hfree dir (mem_parents_iff.mpr hdir)
  have hmade := (makeSurePathExist_made hclear).1 (ascii "./logs/") (by decide +kernel)
  have hkey : key (ascii "./logs/") = ascii "./logs" := by decide +kernel
  rwa [hkey] at hmade

theorem makeDir_free {k : List Byte} (h : fs k = none ∨ IsDir fs k) (dir : List Byte) :
  makeDir fs dir k = none ∨ IsDir (makeDir fs dir) k
  := by
  rcases h with hnone | hthere
  · by_cases hk : k = key dir
    · subst hk
      rw [makeDir]
      split
      · apply Or.inl hnone
      · rw [mkdir]
        split
        · right
          apply Function.update_self
        · apply Or.inl hnone
    · rw [makeDir_of_ne fs hk]
      apply Or.inl hnone
  · exact Or.inr (hthere.makeDir dir)

/-- One of the directories is made, where the one it is in is there. -/
theorem isDir_foldl_of_mem {dir : List Byte} {dirs : List (List Byte)} (hmem : dir ∈ dirs) (hdir : dir ≠ [])
    (hparent : IsDir fs (parent (key dir))) (hfree : fs (key dir) = none ∨ IsDir fs (key dir)) :
  IsDir (dirs.foldl makeDir fs) (key dir)
  := by
  induction dirs generalizing fs with
  | nil => simp at hmem
  | cons d rest ih =>
      rw [List.foldl_cons]
      rcases List.mem_cons.mp hmem with rfl | hmem
      · have hmade : IsDir (makeDir fs dir) (key dir) := isDir_makeDir hdir hfree fun _ => hparent
        apply hmade.foldl
      · apply ih hmem (hparent.makeDir d) (makeDir_free hfree d)

end FSUtil

open FSUtil

namespace FileLogAppender

open Transition

variable {localTime : ℕ → Tm} {path : List Byte} {day : ℤ}

/-- The file of the day is gone: there is nothing at its path, or a directory. -/
structure Gone (s : State) (path : List Byte) (day : ℤ) : Prop where
  filename : s.appender.filename = path
  filestream : s.appender.filestream = some path ∨ s.appender.filestream = none
  curData : s.appender.curData = day
  last : path.getLast? = some 103
  parent : IsDir s.fs (parent path)
  file : s.fs path = none ∨ IsDir s.fs path

/-- The path is made sure of: it is a directory now. -/
theorem Gone.makeSure {s : State} (h : Gone s path day) :
  Gone { s with fs := makeSurePathExist s.fs s.appender.filename } path day ∧
    IsDir (makeSurePathExist s.fs s.appender.filename) path
  := by
  obtain ⟨hne, -, hkey⟩ := path_of_last h.last
  obtain ⟨hkeep, -⟩ := makeSurePathExist_spec s.fs s.appender.filename
  have hparent := hkeep _ _ h.parent
  have hmem : path ∈ parents [] path := mem_parents_iff.mpr ⟨hne, List.prefix_rfl, Or.inl rfl⟩
  have hdir : IsDir (makeSurePathExist s.fs s.appender.filename) path := by
    rw [h.filename, ← hkey]
    apply isDir_foldl_of_mem (hkey.symm ▸ hmem) (hkey.symm ▸ hne)
    · rw [hkey]
      apply h.parent
    · rw [hkey]
      apply h.file
  exact ⟨⟨h.filename, h.filestream, h.curData, h.last, hparent, Or.inr hdir⟩, hdir⟩

/-- Opening the directory again fails. -/
theorem Gone.refresh {s : State} (h : Gone s path day) (hdir : IsDir s.fs path) (now : ℕ) :
  Gone (refresh s now) path day ∧ (refresh s now).fs = s.fs
  := by
  obtain ⟨-, -, hkey⟩ := path_of_last h.last
  have hopen : openAppend s.fs s.appender.filename = none := by
    rw [h.filename]
    apply openAppend_of_directory (hkey.symm ▸ hdir)
  rw [FileLogAppender.refresh]
  split
  · rw [reOpen, hopen]
    exact ⟨⟨h.filename, Or.inr rfl, h.curData, h.last, h.parent, h.file⟩, rfl⟩
  · exact ⟨h, rfl⟩

/-- Nothing is written to a directory. -/
theorem Gone.write {s : State} (h : Gone s path day) (hdir : IsDir s.fs path) (event : LogEvent) :
  Gone (write s event) path day ∧ (write s event).fs = s.fs
  := by
  rw [FileLogAppender.write]
  split
  · exact ⟨h, rfl⟩
  · rcases h.filestream with hstream | hstream
    · have hfs : append s.fs path event.text = s.fs := by
        rw [append, hdir]
      rw [hstream]
      dsimp only
      rw [hfs]
      exact ⟨⟨h.filename, h.filestream, h.curData, h.last, h.parent, h.file⟩, rfl⟩
    · rw [hstream]
      exact ⟨h, rfl⟩

/-- An event of the same day: a directory is made in the place of the file, and nothing is written. -/
theorem Gone.log {s : State} (h : Gone s path day) {event : LogEvent} (hday : (dayOf event.time : ℤ) = day) :
  ∃ s', log localTime s event = some s' ∧ Gone s' path day ∧ IsDir s'.fs path ∧
    ∀ k, content s'.fs k = content s.fs k
  := by
  obtain ⟨hsure, hdir⟩ := h.makeSure
  obtain ⟨hrefresh, hfs⟩ := hsure.refresh hdir event.time
  obtain ⟨hwrite, hfs'⟩ := hrefresh.write (by rw [hfs]; apply hdir) event
  have hrotate : rotate localTime { s with fs := makeSurePathExist s.fs s.appender.filename } event.time
      = some { s with fs := makeSurePathExist s.fs s.appender.filename } := by
    rw [rotate, if_neg]
    rw [hsure.curData, hday]
    simp
  have hlog : FileLogAppender.log localTime s event
      = some (FileLogAppender.write (FileLogAppender.refresh
          { s with fs := makeSurePathExist s.fs s.appender.filename } event.time) event) := by
    rw [FileLogAppender.log, hrotate, Option.map_some]
  refine ⟨_, hlog, hwrite, ?_, ?_⟩
  · rw [hfs', hfs]
    apply hdir
  · intro k
    rw [hfs', hfs]
    apply content_makeSurePathExist

/-- In a run of events of the same day nothing is written to any file. -/
theorem Gone.run {s : State} (h : Gone s path day) {events : List LogEvent}
    (hdays : ∀ event ∈ events, (dayOf event.time : ℤ) = day) :
  ∃ s', Transition.run (FileLogAppender.log localTime) s events = some s' ∧
    (∀ k, content s'.fs k = content s.fs k) ∧ (events ≠ [] ∨ IsDir s.fs path → IsDir s'.fs path)
  := by
  induction events generalizing s with
  | nil => exact ⟨s, rfl, fun _ => rfl, by simp⟩
  | cons event rest ih =>
      obtain ⟨s₁, hlog, hgone, hdir, hcontent⟩ := h.log (hdays event List.mem_cons_self)
      obtain ⟨s₂, hrun, hcontent', hdir'⟩ := ih hgone fun e he => hdays e (List.mem_cons_of_mem _ he)
      refine ⟨s₂, ?_, ?_, fun _ => hdir' (Or.inr hdir)⟩
      · rw [run_cons, hlog, Option.bind_some, hrun]
      · intro k
        rw [hcontent', hcontent]

/-! ### A file in use -/

theorem reOpen_isDir {s : State} {k : List Byte} (h : IsDir s.fs k) :
  IsDir (reOpen s).fs k
  := by
  rw [reOpen]
  split
  · rename_i hopen
    apply openAppend_of_some hopen h
  · apply h

theorem refresh_isDir {s : State} {k : List Byte} (h : IsDir s.fs k) (now : ℕ) :
  IsDir (refresh s now).fs k
  := by
  rw [refresh]
  split
  · apply reOpen_isDir h
  · apply h

theorem write_isDir {s : State} {k : List Byte} (h : IsDir s.fs k) (event : LogEvent) :
  IsDir (write s event).fs k
  := by
  rw [write]
  split
  · apply h
  · split
    · rename_i p _
      by_cases hp : k = p
      · subst hp
        have hsame : append s.fs k event.text = s.fs := by rw [append, h]
        simp only [hsame]
        apply h
      · have hsame : append s.fs p event.text k = s.fs k := append_of_ne hp event.text
        exact hsame.trans h
    · apply h

theorem rotate_isDir {s s' : State} {now : ℕ} {k : List Byte} (h : IsDir s.fs k)
    (hrotate : rotate localTime s now = some s') :
  IsDir s'.fs k
  := by
  rw [rotate] at hrotate
  split at hrotate
  · rw [createNewFile] at hrotate
    obtain ⟨fs', hopen, rfl⟩ := Option.map_eq_some_iff.mp hrotate
    apply openAppend_of_some hopen h
  · obtain rfl := Option.some.inj hrotate
    apply h

/-- `Log` leaves directories alone. -/
theorem log_isDir {s s' : State} {event : LogEvent} {k : List Byte} (h : IsDir s.fs k)
    (hlog : log localTime s event = some s') :
  IsDir s'.fs k
  := by
  have hsure : IsDir (makeSurePathExist s.fs s.appender.filename) k :=
    (makeSurePathExist_spec s.fs s.appender.filename).1 _ _ h
  rw [log] at hlog
  obtain ⟨s₁, hrotate, rfl⟩ := Option.map_eq_some_iff.mp hlog
  have hrotated : IsDir s₁.fs k := rotate_isDir hsure hrotate
  apply write_isDir (refresh_isDir hrotated event.time)

/-- The file stays in use in a run of events of its day. -/
theorem Settled.run {s s' : State} {openedAt : ℕ} (h : Settled s path openedAt) {events : List LogEvent}
    (hdays : ∀ event ∈ events, dayOf event.time = dayOf openedAt)
    (hrun : run (log localTime) s events = some s') :
  Settled s' path openedAt
  := by
  have hstep : ∀ s₁ event s₂, Settled s₁ path openedAt → dayOf event.time = dayOf openedAt →
      log localTime s₁ event = some s₂ → Settled s₂ path openedAt := by
    intro s₁ event s₂ hsettled hday hlog
    obtain ⟨s₃, hlog', hsettled', -⟩ := hsettled.log_sameDay localTime hday
    obtain rfl := Option.some.inj (hlog.symm.trans hlog')
    apply hsettled'
  apply run_guarded_invariant hstep h _ hrun
  apply guarded_of_forall hdays

/-- Someone removes the file of the day. -/
def remove (s : State) : State := { s with fs := Function.update s.fs s.appender.filename none }

/-- For every directory that can be written and all events of one day that are logged there: if the file is
removed then, no assertion fails for any more events of that day, but nothing is written to any file, and with
the first of them there is a directory in the place of the file. -/
theorem run_removed {file : List Byte} {curData : ℤ} {fs : Files} {event : LogEvent}
    {rest later : List LogEvent} (hne : file ≠ []) (hdir : fs (key file) = some (.directory true))
    (hone : OneDay localTime fs file curData (event :: rest))
    (hlater : ∀ e ∈ later, dayOf e.time = dayOf event.time) :
  ∃ s s', run (log localTime) (new file curData fs) (event :: rest) = some s ∧
    run (log localTime) (remove s) later = some s' ∧
    (∀ k, content s'.fs k = content (remove s).fs k) ∧
    (later ≠ [] → IsDir s'.fs (fileIn file (localTime event.time)))
  := by
  obtain ⟨hdays, hday, hnow, hback, hopen⟩ := hone
  rw [← openAppend_first_isSome_iff hne hdir hback] at hopen
  obtain ⟨s₁, hlog, hsettled, -⟩ := log_new_of_open localTime hdir hday hnow hopen
  rw [getFileName_of_ne hne hback] at hsettled
  obtain ⟨s, hrun, -⟩ := hsettled.run_sameDay localTime hdays
  have hall : run (log localTime) (new file curData fs) (event :: rest) = some s := by
    rw [run_cons, hlog, Option.bind_some, hrun]
  have hsettled' := hsettled.run hdays hrun
  have hparent : IsDir s.fs (key file) := by
    apply run_invariant (fun _ _ _ => log_isDir) _ hall
    rw [new_eq hdir]
    apply hdir
  obtain ⟨hpath, hfile, -⟩ := path_of_last hsettled'.last
  have hgone : Gone (remove s) (fileIn file (localTime event.time)) (dayOf event.time) := by
    have hother : parent (fileIn file (localTime event.time)) ≠ fileIn file (localTime event.time) := by
      intro heq
      obtain ⟨old, hold⟩ := hsettled'.file
      rw [← heq, (parent_fileIn file _).1, hparent] at hold
      simp at hold
    have hfs : (remove s).fs = Function.update s.fs (fileIn file (localTime event.time)) none := by
      rw [remove, hsettled'.filename]
    refine ⟨hsettled'.filename, Or.inl hsettled'.filestream, hsettled'.curData, hsettled'.last, ?_,
      Or.inl ?_⟩
    · rw [IsDir, hfs, Function.update_of_ne hother, (parent_fileIn file _).1]
      apply hparent
    · rw [hfs]
      apply Function.update_self
  have hlaterDays : ∀ e ∈ later, (dayOf e.time : ℤ) = dayOf event.time := by
    intro e he
    rw [hlater e he]
  obtain ⟨s', hrun', hcontent, hdir'⟩ : ∃ s', run (log localTime) (remove s) later = some s' ∧
      (∀ k, content s'.fs k = content (remove s).fs k) ∧ (later ≠ [] ∨ _ → _) := hgone.run hlaterDays
  exact ⟨s, s', hall, hrun', hcontent, fun hlater => hdir' (Or.inl hlater)⟩

/-- Two events are logged, the file is removed, and two more events of the day follow. -/
theorem run_removed_newYear :
  ∃ s s', run (log newYear) (new (ascii "logs") 0 logs)
      [⟨1704067200, ascii "a"⟩, ⟨1704067205, ascii "b"⟩] = some s ∧
    run (log newYear) (remove s) [⟨1704067209, ascii "c"⟩, ⟨1704067213, ascii "d"⟩] = some s' ∧
    ∀ k, content s'.fs k = content (remove s).fs k
  := by
  have hone : OneDay newYear logs (ascii "logs") 0
      [⟨1704067200, ascii "a"⟩, ⟨1704067205, ascii "b"⟩] := by
    refine ⟨by decide, by decide, by decide, by decide, Or.inl ?_⟩
    decide
  have hlater : ∀ e ∈ [(⟨1704067209, ascii "c"⟩ : LogEvent), ⟨1704067213, ascii "d"⟩],
      dayOf e.time = dayOf 1704067200 := by decide
  obtain ⟨s, s', hrun, hrun', hcontent, -⟩ := run_removed (by decide) (by decide) hone hlater
  exact ⟨s, s', hrun, hrun', hcontent⟩

end FileLogAppender

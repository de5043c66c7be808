import TinyWebserver.Base.Bytes
import TinyWebserver.Lib.Files
import TinyWebserver.Lib.Transition

/-!
# Appenders that write to files

The class `FileLogAppender` of `base/log.cpp`: it gets a directory and writes the events of each day to a
file of its own in it. Days are numbered in UTC, the name of the file is the local date. The time of an
event is the time at which it is written.

The name of the file of a day is derived from `m_filename`, where the directory is, but only until the first
file is opened: then the name of that file is there. So the file of the second day is looked for inside the
file of the first, and the assertion that it is open fails, `second_day`. All events get to the file of
their day exactly if there is only one day, and `m_curData`, which is not initialised, is another one,
`log_rotates_iff`. In every run the files have the texts of the events that were written, `run_written`.
-/

open Files

namespace FSUtil

/-- The byte `'\\'`. -/
def backslash : Byte := 92

/-- The paths that the loop of `MakeSurePathExist` looks at: the parts of a path up to each separator, and
the whole path if it does not end in one. -/
def parents (seen : List Byte) : List Byte → List (List Byte)
  | [] => if seen = [] ∨ seen.getLast? = some slash ∨ seen.getLast? = some backslash then [] else [seen]
  | c :: rest =>
      if c = slash ∨ c = backslash then (seen ++ [c]) :: parents (seen ++ [c]) rest
      else parents (seen ++ [c]) rest

/-- `IsExist`. -/
def isExist (fs : Files) (path : List Byte) : Bool := (stat fs path).isSome

/-- `MakeSurePathExist`. -/
def makeSurePathExist (fs : Files) (path : List Byte) : Files :=
  (parents [] path).foldl (fun fs dir => if isExist fs dir then fs else mkdir fs dir) fs

theorem length_of_mem_parents {path dir seen : List Byte} (h : dir ∈ parents seen path) :
  dir.length ≤ seen.length + path.length
  := by
  induction path generalizing seen with
  | nil =>
      rw [parents] at h
      split at h
      · simp at h
      · obtain rfl := List.mem_singleton.mp h
        simp
  | cons c rest ih =>
      have hrest : dir ∈ parents (seen ++ [c]) rest → dir.length ≤ seen.length + (c :: rest).length := by
        intro hmem
        have hle := ih hmem
        simp only [List.length_append, List.length_cons, List.length_nil] at hle ⊢
        omega
      rw [parents] at h
      split at h
      · rcases List.mem_cons.mp h with rfl | h
        · simp
        · apply hrest h
      · apply hrest h

/-- The entries that are there stay, and no path that is longer gets one. -/
theorem makeSurePathExist_spec (fs : Files) (path : List Byte) :
  (∀ k entry, fs k = some entry → makeSurePathExist fs path k = some entry) ∧
    ∀ k, path.length < k.length → makeSurePathExist fs path k = fs k
  := by
  have hfold : ∀ dirs : List (List Byte), (∀ dir ∈ dirs, dir.length ≤ path.length) → ∀ fs : Files,
      (∀ k entry, fs k = some entry →
        dirs.foldl (fun fs dir => if isExist fs dir then fs else mkdir fs dir) fs k = some entry) ∧
      ∀ k, path.length < k.length →
        dirs.foldl (fun fs dir => if isExist fs dir then fs else mkdir fs dir) fs k = fs k := by
    intro dirs hdirs
    induction dirs with
    | nil => exact fun fs => ⟨fun _ _ h => h, fun _ _ => rfl⟩
    | cons dir rest ih =>
        intro fs
        obtain ⟨hkeep, hlong⟩ := ih (fun d hd => hdirs d (List.mem_cons_of_mem _ hd))
          (if isExist fs dir then fs else mkdir fs dir)
        rw [List.foldl_cons]
        constructor
        · intro k entry hentry
          apply hkeep
          split
          · apply hentry
          · apply mkdir_of_some dir hentry
        · intro k hk
          rw [hlong k hk]
          split
          · rfl
          · apply mkdir_of_ne
            rintro rfl
            have hle := (length_key_le dir).trans (hdirs dir List.mem_cons_self)
            omega
  apply hfold
  intro dir hdir
  simpa using length_of_mem_parents hdir

end FSUtil

open FSUtil

/-- A `LogEvent`: its time in seconds, and the text that the formatter makes of it. -/
structure LogEvent where
  time : ℕ
  text : List Byte
deriving DecidableEq

/-- The fields of a `struct tm` that are used. -/
structure Tm where
  year : ℤ
  mon : ℤ
  mday : ℤ

/-- The class `FileLogAppender`, with the path of the file that its stream has open. -/
structure FileLogAppender where
  filename : List Byte
  filestream : Option (List Byte)
  lastTime : ℕ
  reopenError : Bool
  curData : ℤ

namespace FileLogAppender

open Transition

/-- The number of the day of a time. -/
def dayOf (time : ℕ) : ℕ := time / (24 * 60 * 60)

/-- The name of the file of a day. -/
def dateName (t : Tm) : List Byte :=
  decimal (t.year + 1900) ++ ascii "-" ++ decimal (t.mon + 1) ++ ascii "-" ++ decimal t.mday ++
    ascii ".log"

/-- `GetFileName`, for what is in `m_filename`. -/
def getFileName (filename : List Byte) (t : Tm) : List Byte :=
  let dir :=
    if filename = [] then []
    else if filename.getLast? ≠ some slash ∧ filename.getLast? ≠ some backslash then
      filename ++ [slash]
    else filename
  dir ++ dateName t

/-- An event that was written, with the path of the file and the time at which `CreateNewFile` has opened
it. -/
structure Record where
  event : LogEvent
  path : List Byte
  openedAt : ℕ

/-- The appender and the files, with the time at which `CreateNewFile` has opened the last file, and the
events that were written. -/
structure State where
  appender : FileLogAppender
  fs : Files
  openedAt : ℕ
  records : List Record

/-- `ReOpen`. -/
def reOpen (s : State) : State :=
  match openAppend s.fs s.appender.filename with
  | some fs =>
      { s with
        appender :=
          { s.appender with filestream := some s.appender.filename, reopenError := false }
        fs := fs }
  | none => { s with appender := { s.appender with filestream := none, reopenError := true } }

/-- The constructor. The field `m_curData` is not initialised. -/
def new (file : List Byte) (curData : ℤ) (fs : Files) : State :=
  reOpen
    { appender :=
        { filename := file, filestream := none, lastTime := 0, reopenError := false, curData := curData }
      fs := fs
      openedAt := 0
      records := [] }

variable (localTime : ℕ → Tm)

/-- `CreateNewFile`, with `none` if the assertion fails. -/
def createNewFile (s : State) (now : ℕ) : Option State :=
  let filename := getFileName s.appender.filename (localTime now)
  (openAppend s.fs filename).map fun fs =>
    { s with
      appender :=
        { s.appender with curData := dayOf now, filename := filename, filestream := some filename }
      fs := fs
      openedAt := now }

/-- The part of `Log` that opens the file of another day. -/
def rotate (s : State) (now : ℕ) : Option State :=
  if (dayOf now : ℤ) ≠ s.appender.curData then createNewFile localTime s now else some s

/-- The part of `Log` that opens the file again. -/
def refresh (s : State) (now : ℕ) : State :=
  if (s.appender.lastTime + 3) % 2 ^ 64 ≤ now then
    let s := reOpen s
    { s with appender := { s.appender with lastTime := now } }
  else s

/-- The part of `Log` that writes the event. -/
def write (s : State) (event : LogEvent) : State :=
  if s.appender.reopenError then s
  else
    match s.appender.filestream with
    | some path =>
        { s with
          fs := append s.fs path event.text
          records := s.records ++ [⟨event, path, s.openedAt⟩] }
    | none => s

/-- `Log`, with `none` if an assertion fails. -/
def log (s : State) (event : LogEvent) : Option State :=
  let s := { s with fs := makeSurePathExist s.fs s.appender.filename }
  (rotate localTime s event.time).map fun s => write (refresh s event.time) event

/-! ### Names of files -/

theorem dateName_ne {t : Tm} {c : Byte} (h : c ∈ dateName t) :
  c ≠ slash ∧ c ≠ backslash
  := by
  have hdecimal : ∀ n : ℤ, c ∈ decimal n → c ≠ slash ∧ c ≠ backslash := by
    intro n hc
    have hbyte := toNat_of_mem_decimal hc
    constructor
    · rintro rfl
      simp [slash] at hbyte
    · rintro rfl
      simp [backslash] at hbyte
  have htext : c ∈ ascii "-" ∨ c ∈ ascii ".log" → c ≠ slash ∧ c ≠ backslash := by
    have hall : ∀ c ∈ ascii "-" ++ ascii ".log", c ≠ slash ∧ c ≠ backslash := by decide +kernel
    intro hc
    apply hall c (List.mem_append.mpr hc)
  simp only [dateName, List.mem_append] at h
  rcases h with ((((hc | hc) | hc) | hc) | hc) | hc
  · apply hdecimal _ hc
  · apply htext (Or.inl hc)
  · apply hdecimal _ hc
  · apply htext (Or.inl hc)
  · apply hdecimal _ hc
  · apply htext (Or.inr hc)

theorem dateName_slash (t : Tm) :
  ∀ c ∈ dateName t, c ≠ slash
  := fun _ hc => (dateName_ne hc).1

/-- The names end in `.log`. -/
theorem getLast?_append_dateName (dir : List Byte) (t : Tm) :
  (dir ++ dateName t).getLast? = some 103
  := by
  rw [dateName, ← List.append_assoc, List.getLast?_append_of_ne_nil _ (by decide)]
  rfl

theorem dateName_length_pos (t : Tm) :
  0 < (dateName t).length
  := by
  simp [dateName, ascii]

/-- The file of a day in a directory. -/
def fileIn (dir : List Byte) (t : Tm) : List Byte :=
  (if asDirectory dir then dir else dir ++ [slash]) ++ dateName t

theorem fileIn_eq (dir : List Byte) (t : Tm) :
  ∃ dir', fileIn dir t = dir' ++ [slash] ++ dateName t ∧ key dir' = key dir
  := by
  rw [fileIn]
  split
  · rename_i hslash
    have hlast : dir.getLast? = some slash := by simpa [asDirectory] using hslash
    obtain ⟨dir', rfl⟩ := List.getLast?_eq_some_iff.mp hlast
    exact ⟨dir', rfl, (key_append_slash dir').symm⟩
  · exact ⟨dir, rfl, rfl⟩

/-- The file of a day is in its directory, under its name. -/
theorem parent_fileIn (dir : List Byte) (t : Tm) :
  parent (fileIn dir t) = key dir ∧ baseName (fileIn dir t) = dateName t
  := by
  obtain ⟨dir', heq, hkey⟩ := fileIn_eq dir t
  rw [heq, parent_slash_append (dateName_slash t), baseName_append (dateName_slash t)]
  refine ⟨hkey, ?_⟩
  have hnil : baseName (dir' ++ [slash]) = [] := by
    rw [baseName_eq_nil_iff]
    right
    simp [asDirectory]
  rw [hnil, List.nil_append]

theorem getFileName_of_ne {filename : List Byte} (hne : filename ≠ [])
    (hback : filename.getLast? ≠ some backslash) (t : Tm) :
  getFileName filename t = fileIn filename t
  := by
  rw [getFileName, fileIn, if_neg hne]
  by_cases hslash : filename.getLast? = some slash
  · simp [asDirectory, hslash]
  · simp [asDirectory, hslash, hback]

/-- Behind a backslash the date is put without a slash, and is not a name in the directory. -/
theorem baseName_getFileName_of_backslash {filename : List Byte}
    (hback : filename.getLast? = some backslash) (t : Tm) :
  baseName (getFileName filename t) ≠ dateName t
  := by
  have hne : filename ≠ [] := by
    rintro hnil
    simp [hnil] at hback
  rw [getFileName, if_neg hne, if_neg (by simp [hback])]
  rw [baseName_append (dateName_slash t)]
  intro heq
  have hnil : baseName filename = [] := by simpa using heq
  rw [baseName_eq_nil_iff] at hnil
  rcases hnil with hnil | hslash
  · apply hne hnil
  · simp [asDirectory, hback, slash, backslash] at hslash

theorem getFileName_last (filename : List Byte) (t : Tm) :
  (getFileName filename t).getLast? = some 103
  := getLast?_append_dateName _ t

theorem length_lt_getFileName (filename : List Byte) (t : Tm) :
  filename.length < (getFileName filename t).length
  := by
  have hpos := dateName_length_pos t
  rw [getFileName]
  split
  · simp_all
  · split
    · simp only [List.length_append, List.length_singleton]
      omega
    · simp only [List.length_append]
      omega

/-! ### Behind the first file -/

/-- The file that was opened at a time is open, and its name is in `m_filename`. -/
structure Settled (s : State) (path : List Byte) (openedAt : ℕ) : Prop where
  filename : s.appender.filename = path
  filestream : s.appender.filestream = some path
  reopenError : s.appender.reopenError = false
  curData : s.appender.curData = dayOf openedAt
  opened : s.openedAt = openedAt
  last : path.getLast? = some 103
  file : ∃ content, s.fs path = some (.file true content)
  dir : ∃ writable, s.fs (parent path) = some (.directory writable)

theorem path_of_last {path : List Byte} (h : path.getLast? = some 103) :
  path ≠ [] ∧ asDirectory path = false ∧ key path = path
  := by
  have hne : path ≠ [] := by
    rintro rfl
    simp at h
  have hfile : asDirectory path = false := by simp [asDirectory, h, slash]
  exact ⟨hne, hfile, key_eq_self hfile⟩

variable {s s' : State} {path : List Byte} {openedAt : ℕ}

/-- Opening the file again changes nothing. -/
theorem Settled.reOpen (h : Settled s path openedAt) :
  reOpen s = s
  := by
  obtain ⟨hne, hfile, -⟩ := path_of_last h.last
  obtain ⟨content, hcontent⟩ := h.file
  obtain ⟨writable, hdir⟩ := h.dir
  rw [FileLogAppender.reOpen, h.filename, openAppend_of_file hne hfile hdir hcontent]
  simp only [← h.filestream, ← h.reopenError]

theorem Settled.refresh (h : Settled s path openedAt) (now : ℕ) :
  Settled (refresh s now) path openedAt ∧ (refresh s now).records = s.records
  := by
  rw [FileLogAppender.refresh]
  split
  · rw [h.reOpen]
    exact ⟨⟨h.filename, h.filestream, h.reopenError, h.curData, h.opened, h.last, h.file, h.dir⟩, rfl⟩
  · exact ⟨h, rfl⟩

theorem Settled.write (h : Settled s path openedAt) (event : LogEvent) :
  Settled (write s event) path openedAt ∧
    (write s event).records = s.records ++ [⟨event, path, openedAt⟩]
  := by
  obtain ⟨content, hcontent⟩ := h.file
  obtain ⟨writable, hdir⟩ := h.dir
  have hne : parent path ≠ path := by
    intro heq
    rw [heq, hcontent] at hdir
    simp at hdir
  rw [FileLogAppender.write, if_neg (by simp [h.reopenError])]
  simp only [h.filestream, h.opened]
  refine ⟨⟨h.filename, h.filestream, h.reopenError, h.curData, rfl, h.last, ?_, ?_⟩, trivial⟩
  · exact ⟨_, append_self hcontent event.text⟩
  · exact ⟨writable, (append_of_ne hne _).trans hdir⟩

/-- The path is made sure of, and is there. -/
theorem Settled.makeSure (h : Settled s path openedAt) :
  Settled { s with fs := makeSurePathExist s.fs s.appender.filename } path openedAt
  := by
  obtain ⟨hkeep, -⟩ := makeSurePathExist_spec s.fs s.appender.filename
  obtain ⟨content, hcontent⟩ := h.file
  obtain ⟨writable, hdir⟩ := h.dir
  exact ⟨h.filename, h.filestream, h.reopenError, h.curData, h.opened, h.last,
    ⟨content, hkeep _ _ hcontent⟩, ⟨writable, hkeep _ _ hdir⟩⟩

/-- An event of the same day is written to the file. -/
theorem Settled.log_sameDay (h : Settled s path openedAt) {event : LogEvent}
    (hday : dayOf event.time = dayOf openedAt) :
  ∃ s', log localTime s event = some s' ∧ Settled s' path openedAt ∧
    s'.records = s.records ++ [⟨event, path, openedAt⟩]
  := by
  have hsure := h.makeSure
  have hrotate : rotate localTime { s with fs := makeSurePathExist s.fs s.appender.filename } event.time
      = some { s with fs := makeSurePathExist s.fs s.appender.filename } := by
    rw [rotate, if_neg]
    rw [hsure.curData, hday]
    simp
  obtain ⟨hrefresh, hrecords⟩ := hsure.refresh event.time
  obtain ⟨hwrite, hwritten⟩ := hrefresh.write event
  refine ⟨_, ?_, hwrite, ?_⟩
  · rw [log, hrotate, Option.map_some]
  · rw [hwritten, hrecords]

/-- On another day the file is looked for inside the old one, and the assertion fails. -/
theorem Settled.log_otherDay (h : Settled s path openedAt) {event : LogEvent}
    (hday : dayOf event.time ≠ dayOf openedAt) :
  log localTime s event = none
  := by
  have hsure := h.makeSure
  obtain ⟨hne, hfile, hkey⟩ := path_of_last h.last
  obtain ⟨content, hcontent⟩ := hsure.file
  have hback : s.appender.filename.getLast? ≠ some backslash := by
    rw [h.filename, h.last]
    decide
  have hcreate : createNewFile localTime
      { s with fs := makeSurePathExist s.fs s.appender.filename } event.time = none := by
    rw [createNewFile, Option.map_eq_none_iff]
    have hparent : makeSurePathExist s.fs s.appender.filename
        (parent (fileIn path (localTime event.time))) = some (.file true content) := by
      rw [(parent_fileIn path _).1, hkey]
      apply hcontent
    simp only
    rw [getFileName_of_ne (by rw [h.filename]; exact hne) hback]
    nth_rewrite 2 [h.filename]
    apply openAppend_of_parent hparent
  rw [log, rotate, if_pos, hcreate, Option.map_none]
  rw [hsure.curData]
  exact_mod_cast hday

/-- In a run, all events of the day of the file are written to it. -/
theorem Settled.run_sameDay (h : Settled s path openedAt) {events : List LogEvent}
    (hdays : ∀ event ∈ events, dayOf event.time = dayOf openedAt) :
  ∃ s', run (log localTime) s events = some s' ∧
    s'.records = s.records ++ events.map fun event => ⟨event, path, openedAt⟩
  := by
  induction events generalizing s with
  | nil => exact ⟨s, rfl, by simp⟩
  | cons event rest ih =>
      obtain ⟨s₁, hlog, hsettled, hrecords⟩ :=
        h.log_sameDay localTime (hdays event List.mem_cons_self)
      obtain ⟨s₂, hrun, hrest⟩ := ih hsettled fun e he => hdays e (List.mem_cons_of_mem _ he)
      refine ⟨s₂, ?_, ?_⟩
      · rw [run_cons, hlog, Option.bind_some, hrun]
      · rw [hrest, hrecords, List.map_cons, List.append_assoc, List.singleton_append]

/-- A run that gets to its end has events of one day only. -/
theorem Settled.day_of_run (h : Settled s path openedAt) {events : List LogEvent}
    (hrun : run (log localTime) s events = some s') :
  ∀ event ∈ events, dayOf event.time = dayOf openedAt
  := by
  induction events generalizing s with
  | nil => simp
  | cons event rest ih =>
      obtain ⟨s₁, hlog, hrest⟩ := Option.bind_eq_some_iff.mp hrun
      have hday : dayOf event.time = dayOf openedAt := by
        by_contra hother
        rw [h.log_otherDay localTime hother] at hlog
        simp at hlog
      obtain ⟨s₂, hlog', hsettled, -⟩ := h.log_sameDay localTime hday
      obtain rfl : s₁ = s₂ := Option.some.inj (hlog.symm.trans hlog')
      intro e he
      rcases List.mem_cons.mp he with rfl | he
      · apply hday
      · apply ih hsettled hrest e he

/-! ### The events that are written -/

theorem reOpen_records (s : State) :
  (reOpen s).records = s.records
  := by
  rw [reOpen]
  split <;> rfl

theorem refresh_records (s : State) (now : ℕ) :
  (refresh s now).records = s.records
  := by
  rw [refresh]
  split
  · apply reOpen_records
  · rfl

theorem write_records (s : State) (event : LogEvent) :
  ∃ more, (write s event).records = s.records ++ more ∧ more.length ≤ 1
  := by
  rw [write]
  split
  · exact ⟨[], by simp, by simp⟩
  · split
    · exact ⟨[_], rfl, le_rfl⟩
    · exact ⟨[], by simp, by simp⟩

theorem rotate_records {now : ℕ} (h : rotate localTime s now = some s') :
  s'.records = s.records
  := by
  rw [rotate] at h
  split at h
  · rw [createNewFile] at h
    obtain ⟨fs, -, rfl⟩ := Option.map_eq_some_iff.mp h
    rfl
  · obtain rfl := Option.some.inj h
    rfl

/-- A call writes at most one event. -/
theorem log_records {event : LogEvent} (h : log localTime s event = some s') :
  ∃ more, s'.records = s.records ++ more ∧ more.length ≤ 1
  := by
  rw [log] at h
  obtain ⟨s₁, hrotate, rfl⟩ := Option.map_eq_some_iff.mp h
  obtain ⟨more, hmore, hlength⟩ := write_records (refresh s₁ event.time) event
  refine ⟨more, ?_, hlength⟩
  rw [hmore, refresh_records, rotate_records localTime hrotate]

theorem run_records {events : List LogEvent} (h : run (log localTime) s events = some s') :
  ∃ more, s'.records = s.records ++ more ∧ more.length ≤ events.length
  := by
  induction events generalizing s with
  | nil =>
      obtain rfl : s = s' := by simpa using h
      exact ⟨[], by simp, by simp⟩
  | cons event rest ih =>
      obtain ⟨s₁, hlog, hrest⟩ := Option.bind_eq_some_iff.mp h
      obtain ⟨first, hfirst, hone⟩ := log_records localTime hlog
      obtain ⟨more, hmore, hlength⟩ := ih hrest
      refine ⟨first ++ more, ?_, ?_⟩
      · rw [hmore, hfirst, List.append_assoc]
      · simp only [List.length_append, List.length_cons]
        omega

/-! ### What is in the files -/

/-- The stream has a file open, and the files have the events that were written, behind what was there. -/
structure Written (fs : Files) (s : State) : Prop where
  file : ∀ path, s.appender.filestream = some path → ∃ content, s.fs path = some (.file true content)
  content : ∀ k, content s.fs k
    = content fs k ++ (s.records.filter fun r => r.path = k).flatMap fun r => r.event.text

variable {fs : Files}

/-- A file is opened. -/
theorem Written.opened (h : Written fs s) {path : List Byte} {fs' : Files}
    (hopen : openAppend s.fs path = some fs') {appender : FileLogAppender}
    (hstream : appender.filestream = some path) (openedAt : ℕ) :
  Written fs { s with appender := appender, fs := fs', openedAt := openedAt }
  := by
  obtain ⟨hfile, -, -⟩ := openAppend_spec hopen
  constructor
  · intro path' hpath
    obtain rfl := Option.some.inj (hstream.symm.trans hpath)
    apply hfile
  · intro k
    simp only [content_openAppend hopen]
    apply h.content

theorem Written.reOpen (h : Written fs s) :
  Written fs (reOpen s)
  := by
  rw [FileLogAppender.reOpen]
  split
  · rename_i fs' hopen
    apply h.opened hopen rfl
  · exact ⟨by simp, h.content⟩

theorem Written.refresh (h : Written fs s) (now : ℕ) :
  Written fs (refresh s now)
  := by
  rw [FileLogAppender.refresh]
  split
  · exact ⟨h.reOpen.file, h.reOpen.content⟩
  · apply h

theorem Written.rotate (h : Written fs s) {now : ℕ} (hrotate : rotate localTime s now = some s') :
  Written fs s'
  := by
  rw [FileLogAppender.rotate] at hrotate
  split at hrotate
  · rw [createNewFile] at hrotate
    obtain ⟨fs', hopen, rfl⟩ := Option.map_eq_some_iff.mp hrotate
    apply h.opened hopen rfl
  · obtain rfl := Option.some.inj hrotate
    apply h

theorem Written.write (h : Written fs s) (event : LogEvent) :
  Written fs (write s event)
  := by
  rw [FileLogAppender.write]
  split
  · apply h
  · split
    · rename_i path hpath
      obtain ⟨old, hold⟩ := h.file path hpath
      constructor
      · rintro path' hpath'
        obtain rfl : path = path' := Option.some.inj (hpath.symm.trans hpath')
        exact ⟨_, append_self hold event.text⟩
      · intro k
        simp only
        rw [content_append hold, h.content k, List.filter_append, List.flatMap_append,
          List.append_assoc]
        by_cases hk : path = k
        · simp [hk]
        · simp [hk]
    · apply h

theorem content_makeSurePathExist (fs : Files) (path k : List Byte) :
  content (makeSurePathExist fs path) k = content fs k
  := by
  rw [makeSurePathExist]
  generalize parents [] path = dirs
  induction dirs generalizing fs with
  | nil => rfl
  | cons dir rest ih =>
      rw [List.foldl_cons, ih]
      split
      · rfl
      · apply content_mkdir

theorem Written.log (h : Written fs s) {event : LogEvent} (hlog : log localTime s event = some s') :
  Written fs s'
  := by
  rw [FileLogAppender.log] at hlog
  obtain ⟨s₁, hrotate, rfl⟩ := Option.map_eq_some_iff.mp hlog
  have hsure : Written fs { s with fs := makeSurePathExist s.fs s.appender.filename } := by
    constructor
    · intro path hpath
      obtain ⟨old, hold⟩ := h.file path hpath
      exact ⟨old, (makeSurePathExist_spec s.fs s.appender.filename).1 _ _ hold⟩
    · intro k
      simp only [content_makeSurePathExist]
      apply h.content
  exact ((hsure.rotate localTime hrotate).refresh event.time).write event

/-- In every run the files have what was in them before, and the texts of the events that were written to
them. -/
theorem run_written {file : List Byte} {curData : ℤ} {events : List LogEvent}
    (h : run (log localTime) (new file curData fs) events = some s) :
  Written fs s
  := by
  apply run_invariant (fun _ _ _ hs hlog => hs.log localTime hlog) _ h
  apply Written.reOpen
  exact ⟨by simp, by simp⟩

/-! ### The first event -/

variable {file : List Byte} {curData : ℤ}

/-- The appender does not open the directory it was given. -/
theorem new_eq (hdir : fs (key file) = some (.directory true)) :
  new file curData fs =
    { appender :=
        { filename := file, filestream := none, lastTime := 0, reopenError := true, curData := curData }
      fs := fs
      openedAt := 0
      records := [] }
  := by
  rw [new, reOpen, openAppend_of_directory hdir]

/-- The appender behind `CreateNewFile` for the first event. -/
def created (path : List Byte) (fs : Files) (now : ℕ) : State :=
  { appender :=
      { filename := path, filestream := some path, lastTime := 0, reopenError := true,
        curData := dayOf now }
    fs := fs
    openedAt := now
    records := [] }

theorem created_write {now : ℕ} (hnow : 3 ≤ now) (hlast : path.getLast? = some 103)
    {fs' : Files} (hopen : openAppend fs path = some fs') (event : LogEvent) :
  Settled (write (refresh (created path fs' now) now) event) path now ∧
    (write (refresh (created path fs' now) now) event).records = [⟨event, path, now⟩]
  := by
  obtain ⟨hne, hfile, -⟩ := path_of_last hlast
  obtain ⟨⟨content, hcontent⟩, ⟨writable, hparent⟩, -⟩ := openAppend_spec hopen
  have hdir : fs' (parent path) = some (.directory writable) := openAppend_of_some hopen hparent
  have hreopen : openAppend fs' path = some fs' := openAppend_of_file hne hfile hdir hcontent
  have hsettled : Settled (refresh (created path fs' now) now) path now := by
    rw [refresh, if_pos (by simpa [created] using hnow)]
    simp only [reOpen, created, hreopen]
    exact ⟨rfl, rfl, rfl, rfl, rfl, hlast, ⟨content, hcontent⟩, ⟨writable, hdir⟩⟩
  obtain ⟨hwrite, hrecords⟩ := hsettled.write event
  refine ⟨hwrite, ?_⟩
  rw [hrecords, refresh_records]
  rfl

theorem write_of_reopenError (h : s.appender.reopenError = true) (event : LogEvent) :
  (write s event).records = s.records
  := by
  rw [write, if_pos h]

/-- What becomes of the first event, if the assertion holds: it is lost, or it is written to the first
file. -/
theorem log_new_cases (hdir : fs (key file) = some (.directory true)) {event : LogEvent}
    (h : log localTime (new file curData fs) event = some s') :
  s'.records = [] ∨
    (dayOf event.time : ℤ) ≠ curData ∧ 3 ≤ event.time ∧
      (openAppend (makeSurePathExist fs file) (getFileName file (localTime event.time))).isSome ∧
      Settled s' (getFileName file (localTime event.time)) event.time ∧
      s'.records = [⟨event, getFileName file (localTime event.time), event.time⟩]
  := by
  obtain ⟨hkeep, -⟩ := makeSurePathExist_spec fs file
  rw [new_eq hdir, log] at h
  obtain ⟨s₁, hrotate, rfl⟩ := Option.map_eq_some_iff.mp h
  rw [rotate] at hrotate
  split at hrotate
  · rename_i hday
    rw [createNewFile] at hrotate
    obtain ⟨fs', hopen, rfl⟩ := Option.map_eq_some_iff.mp hrotate
    by_cases hnow : 3 ≤ event.time
    · right
      obtain ⟨hsettled, hrecords⟩ := created_write hnow (getFileName_last file _) hopen event
      exact ⟨hday, hnow, by simp [hopen], hsettled, hrecords⟩
    · left
      rw [refresh, if_neg (by simpa using hnow), write_of_reopenError rfl]
  · left
    obtain rfl := Option.some.inj hrotate
    have hclosed : openAppend (makeSurePathExist fs file) file = none :=
      openAppend_of_directory (hkeep _ _ hdir)
    rw [refresh]
    split
    · rw [write_of_reopenError]
      · simp [reOpen, hclosed]
      · simp [reOpen, hclosed]
    · rw [write_of_reopenError rfl]

/-- The first event is written to the first file, if that is opened. -/
theorem log_new_of_open (hdir : fs (key file) = some (.directory true)) {event : LogEvent}
    (hday : (dayOf event.time : ℤ) ≠ curData) (hnow : 3 ≤ event.time)
    (hopen : (openAppend (makeSurePathExist fs file)
      (getFileName file (localTime event.time))).isSome) :
  ∃ s', log localTime (new file curData fs) event = some s' ∧
    Settled s' (getFileName file (localTime event.time)) event.time ∧
    s'.records = [⟨event, getFileName file (localTime event.time), event.time⟩]
  := by
  obtain ⟨fs', hopen⟩ := Option.isSome_iff_exists.mp hopen
  obtain ⟨hsettled, hrecords⟩ := created_write hnow (getFileName_last file _) hopen event
  refine ⟨_, ?_, hsettled, hrecords⟩
  rw [new_eq hdir, log, rotate, if_pos hday, createNewFile]
  simp only [hopen, Option.map_some]
  rfl

/-! ### The file of each day -/

/-- All events were written, each to a file in the directory with the date on which it was opened as name,
and on the day on which the file was opened. -/
structure Rotated (file : List Byte) (events : List LogEvent) (s : State) : Prop where
  all : s.records.map Record.event = events
  inDirectory : ∀ r ∈ s.records, parent r.path = key file
  named : ∀ r ∈ s.records, baseName r.path = dateName (localTime r.openedAt)
  sameDay : ∀ r ∈ s.records, dayOf r.openedAt = dayOf r.event.time

/-- There are no events, or all of them are of one day, which is not the one in `m_curData`, the first is
not in the first three seconds of all time, the directory does not end in a backslash, and the file can be
opened. -/
def OneDay (fs : Files) (file : List Byte) (curData : ℤ) : List LogEvent → Prop
  | [] => True
  | event :: rest =>
      (∀ event' ∈ rest, dayOf event'.time = dayOf event.time) ∧ (dayOf event.time : ℤ) ≠ curData ∧
        3 ≤ event.time ∧ file.getLast? ≠ some backslash ∧
        Openable fs (fileIn file (localTime event.time))

theorem openAppend_first_isSome_iff (hne : file ≠ []) (hdir : fs (key file) = some (.directory true))
    (hback : file.getLast? ≠ some backslash) (t : Tm) :
  (openAppend (makeSurePathExist fs file) (getFileName file t)).isSome ↔ Openable fs (fileIn file t)
  := by
  obtain ⟨hkeep, hlong⟩ := makeSurePathExist_spec fs file
  obtain ⟨hpath, hfile, -⟩ := path_of_last (getFileName_last file t)
  have hsame := hlong (getFileName file t) (length_lt_getFileName file t)
  have hparent : makeSurePathExist fs file (parent (getFileName file t)) = some (.directory true) := by
    rw [getFileName_of_ne hne hback, (parent_fileIn file t).1]
    apply hkeep _ _ hdir
  rw [openAppend_isSome_iff hpath hfile hparent, Openable, Openable, hsame,
    getFileName_of_ne hne hback]

/-- If the events are written as they should, there is only one day. -/
theorem oneDay_of_rotated (hne : file ≠ []) (hdir : fs (key file) = some (.directory true))
    {event : LogEvent} {rest : List LogEvent} {s : State}
    (hrun : run (log localTime) (new file curData fs) (event :: rest) = some s)
    (hrotated : Rotated localTime file (event :: rest) s) :
  OneDay localTime fs file curData (event :: rest)
  := by
  obtain ⟨s₁, hlog, hrest⟩ := Option.bind_eq_some_iff.mp hrun
  obtain ⟨more, hmore, hlength⟩ := run_records localTime hrest
  rcases log_new_cases localTime hdir hlog with hlost | ⟨hday, hnow, hopen, hsettled, hrecords⟩
  · have hcount := congrArg List.length hrotated.all
    rw [hmore, hlost] at hcount
    simp only [List.length_map, List.nil_append, List.length_cons] at hcount
    omega
  · have hback : file.getLast? ≠ some backslash := by
      intro hback
      apply baseName_getFileName_of_backslash hback (localTime event.time)
      apply hrotated.named ⟨event, getFileName file (localTime event.time), event.time⟩
      simp [hmore, hrecords]
    refine ⟨hsettled.day_of_run localTime hrest, hday, hnow, hback, ?_⟩
    rw [← openAppend_first_isSome_iff hne hdir hback]
    apply hopen

/-- If there is only one day, the events are written as they should. -/
theorem rotated_of_oneDay (hne : file ≠ []) (hdir : fs (key file) = some (.directory true))
    {event : LogEvent} {rest : List LogEvent} (h : OneDay localTime fs file curData (event :: rest)) :
  ∃ s, run (log localTime) (new file curData fs) (event :: rest) = some s ∧
    Rotated localTime file (event :: rest) s
  := by
  obtain ⟨hdays, hday, hnow, hback, hopen⟩ := h
  rw [← openAppend_first_isSome_iff hne hdir hback] at hopen
  obtain ⟨s₁, hlog, hsettled, hfirst⟩ := log_new_of_open localTime hdir hday hnow hopen
  obtain ⟨s, hrun, hrecords⟩ := hsettled.run_sameDay localTime hdays
  obtain ⟨hparent, hname⟩ := parent_fileIn file (localTime event.time)
  have hall : s.records = (event :: rest).map fun e =>
      ⟨e, fileIn file (localTime event.time), event.time⟩ := by
    rw [hrecords, hfirst, getFileName_of_ne hne hback]
    rfl
  refine ⟨s, ?_, ?_, ?_, ?_, ?_⟩
  · rw [run_cons, hlog, Option.bind_some, hrun]
  · rw [hall, List.map_map]
    apply List.map_id
  · rw [hall]
    simp [hparent]
  · rw [hall]
    simp [hname]
  · rw [hall]
    simpa using fun e he => (hdays e he).symm

/-- For every directory that can be written and all events: no assertion fails, and every event is written
to the file of its day in the directory, exactly if there is only one day, and the conditions on the first
file hold. -/
theorem log_rotates_iff (hne : file ≠ []) (hdir : fs (key file) = some (.directory true))
    (events : List LogEvent) :
  (∃ s, run (log localTime) (new file curData fs) events = some s ∧
      Rotated localTime file events s) ↔
    OneDay localTime fs file curData events
  := by
  cases events with
  | nil =>
      refine iff_of_true ⟨_, rfl, ?_⟩ trivial
      rw [new_eq hdir]
      exact ⟨rfl, by simp, by simp, by simp⟩
  | cons event rest =>
      constructor
      · rintro ⟨s, hrun, hrotated⟩
        apply oneDay_of_rotated localTime hne hdir hrun hrotated
      · intro hone
        apply rotated_of_oneDay localTime hne hdir hone

/-- The dates of the first two days of 2024, in UTC. -/
def newYear (time : ℕ) : Tm := if time < 1704153600 then ⟨124, 0, 1⟩ else ⟨124, 0, 2⟩

/-- There is nothing but a directory `logs`. -/
def logs : Files := fun path => if path = ascii "logs" then some (.directory true) else none

theorem log_rotates_iff_newYear :
  ∃ s, run (log newYear) (new (ascii "logs") 0 logs)
      [⟨1704067200, ascii "a"⟩, ⟨1704067205, ascii "b"⟩] = some s ∧
    Rotated newYear (ascii "logs") [⟨1704067200, ascii "a"⟩, ⟨1704067205, ascii "b"⟩] s
  := by
  rw [log_rotates_iff newYear (by decide) (by decide)]
  refine ⟨by decide, by decide, by decide, by decide, Or.inl ?_⟩
  decide

/-- On the second day the file is looked for in the file of the first day, and the assertion fails. -/
theorem second_day :
  logs (key (ascii "logs")) = some (.directory true) ∧
    ¬ ∃ s, run (log newYear) (new (ascii "logs") 0 logs)
        [⟨1704067200, ascii "a"⟩, ⟨1704153600, ascii "b"⟩] = some s ∧
      Rotated newYear (ascii "logs") [⟨1704067200, ascii "a"⟩, ⟨1704153600, ascii "b"⟩] s
  := by
  refine ⟨by decide, ?_⟩
  rintro ⟨s, hrun, -⟩
  have hnone : (run (log newYear) (new (ascii "logs") 0 logs)
      [⟨1704067200, ascii "a"⟩, ⟨1704153600, ascii "b"⟩]).isSome = false := by decide
  simp [hrun] at hnone

end FileLogAppender

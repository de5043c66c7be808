import TinyWebserver.Base.Bytes
import TinyWebserver.Lib.OrderedSet
import TinyWebserver.Lib.Traversal

/-!
# The configuration of the loggers

The variable `logs` of `base/log.cpp`, a set of `LogDefine` ordered by name, and its listener, which brings
the loggers in line with a new value. The log statement at the beginning of the listener is left out.
`LogDefine::operator==` compares the appenders of an element with themselves, so a change of nothing but
appenders is not seen, `appenders_not_seen`.

Starting from loggers that match the old value, they match the new one behind `SetValue` exactly if no
logger keeps its level and changes its appenders, and the types of all appenders are known,
`setValue_reconciled_iff`.
-/

/-- The enumeration `LogLevel::Level`. -/
inductive LogLevel where
  | fatal
  | alert
  | crit
  | error
  | warn
  | notice
  | info
  | debug
  | notset
deriving DecidableEq, Repr

/-- The structure `LogAppenderDefine`. The type is 1 for a file and 2 for the standard output. -/
structure LogAppenderDefine where
  type : ℤ
  pattern : List Byte
  file : List Byte
deriving DecidableEq, Repr

/-- The structure `LogDefine`. -/
structure LogDefine where
  name : List Byte
  level : LogLevel
  appenders : List LogAppenderDefine
deriving DecidableEq, Repr

namespace LogDefine

/-- `operator==`, which compares the appenders with themselves. -/
def eq (d d' : LogDefine) : Bool :=
  d.name = d'.name && d.level = d'.level && d.appenders = d.appenders

/-- `operator<`. -/
def lt (d d' : LogDefine) : Bool := d.name < d'.name

end LogDefine

/-- A `std::set<LogDefine>`. -/
structure LogDefines where
  elems : List LogDefine
  sorted : OrderedSet.Sorted LogDefine.lt elems

/-- Where an appender writes to. -/
inductive Target where
  | file (name : List Byte)
  | stdout
deriving DecidableEq, Repr

/-- A `LogAppender`, as far as it is configured: its target and the pattern of its formatter. -/
structure LogAppender where
  target : Target
  pattern : List Byte
deriving DecidableEq, Repr

/-- The class `Logger`, as far as it is configured. -/
structure Logger where
  level : LogLevel
  appenders : List LogAppender
deriving DecidableEq, Repr

namespace Logger

/-- The constructor. -/
def new : Logger := ⟨.info, []⟩

/-- `SetLevel`. -/
def setLevel (logger : Logger) (level : LogLevel) : Logger := { logger with level := level }

/-- `ClearAppenders`. -/
def clearAppenders (logger : Logger) : Logger := { logger with appenders := [] }

/-- `AddAppender`. -/
def addAppender (logger : Logger) (appender : LogAppender) : Logger :=
  { logger with appenders := logger.appenders ++ [appender] }

end Logger

/-- The loggers of the `LoggerManager`, by name. -/
abbrev Loggers := List Byte → Option Logger

/-- `GetLogger`, which makes a logger that is missing. -/
def Loggers.getLogger (loggers : Loggers) (name : List Byte) : Logger :=
  (loggers name).getD Logger.new

namespace LogConfig

/-- The default pattern of a `LogFormatter`. -/
def defaultPattern : List Byte := ascii "[%d\x7b%Y-%m-%d %H:%M:%S\x7d][%rms][%p][%c][%f:%l] %m%n"

/-- The appender for a definition. The pointer is null for a type that is not known, and it is an error to
set its formatter. -/
def newAppender (a : LogAppenderDefine) : Option LogAppender :=
  let pattern := if a.pattern = [] then defaultPattern else a.pattern
  if a.type = 1 then some ⟨.file a.file, pattern⟩
  else if a.type = 2 then some ⟨.stdout, pattern⟩
  else none

/-- The loop over the appenders of a definition. -/
def addAppenders : Logger → List LogAppenderDefine → Option Logger
  | logger, [] => some logger
  | logger, a :: rest => (newAppender a).bind fun ap => addAppenders (logger.addAppender ap) rest

/-- The logger is set up anew. -/
def configure (loggers : Loggers) (d : LogDefine) : Option Loggers :=
  (addAppenders ((loggers.getLogger d.name).setLevel d.level).clearAppenders d.appenders).map
    fun logger => Function.update loggers d.name (some logger)

/-- The turn of the first loop of the listener, over the new value: loggers that are new or that have
changed are set up. -/
def applyNew (old : LogDefines) (loggers : Loggers) (d : LogDefine) : Option Loggers :=
  match OrderedSet.find LogDefine.lt d old.elems with
  | none => configure loggers d
  | some (_, d', _) => if !d.eq d' then configure loggers d else some loggers

/-- The turn of the second loop, over the old value: loggers that are gone lose their appenders. -/
def applyOld (new : LogDefines) (loggers : Loggers) (d : LogDefine) : Loggers :=
  match OrderedSet.find LogDefine.lt d new.elems with
  | none =>
      Function.update loggers d.name
        (some ((loggers.getLogger d.name).setLevel .notset).clearAppenders)
  | some _ => loggers

/-- The listener, behind its log statement, which goes to the appenders of `root` and may fail there. -/
def onChange (old new : LogDefines) (loggers : Loggers) : Option Loggers :=
  (new.elems.foldlM (applyNew old) loggers).map fun loggers =>
    old.elems.foldl (applyOld new) loggers

/-- `operator==` of the sets. -/
def setEq (defines defines' : LogDefines) : Bool :=
  defines.elems.length = defines'.elems.length &&
    (defines.elems.zip defines'.elems).all fun p => p.1.eq p.2

/-- The variable and the loggers. -/
structure State where
  value : LogDefines
  loggers : Loggers

/-- `SetValue`, called by one thread at a time. -/
def setValue (s : State) (value : LogDefines) : Option State :=
  if setEq value s.value then some s
  else (onChange s.value value s.loggers).map fun loggers => ⟨value, loggers⟩

/-! ### Searching by name -/

theorem lt_strictOrder :
  OrderedSet.StrictOrder LogDefine.lt
  := by
  constructor
  · intro d
    simp only [LogDefine.lt, decide_eq_false_iff_not]
    apply List.lt_irrefl
  · intro d d' d'' h h'
    simp only [LogDefine.lt, decide_eq_true_eq] at h h' ⊢
    apply List.lt_trans h h'

theorem find_congr {d d' : LogDefine} (hname : d.name = d'.name) (defines : LogDefines) :
  OrderedSet.find LogDefine.lt d defines.elems = OrderedSet.find LogDefine.lt d' defines.elems
  := by
  have hbelow : (LogDefine.lt · d) = (LogDefine.lt · d') := by
    funext e
    simp [LogDefine.lt, hname]
  have habove : LogDefine.lt d = LogDefine.lt d' := by
    funext e
    simp [LogDefine.lt, hname]
  rw [OrderedSet.find, OrderedSet.find, hbelow, habove]

theorem find_of_mem {defines : LogDefines} {d d' : LogDefine} (hd' : d' ∈ defines.elems)
    (hname : d.name = d'.name) :
  ∃ before after, OrderedSet.find LogDefine.lt d defines.elems = some (before, d', after)
  := by
  obtain ⟨before, after, -, hfind⟩ := defines.sorted.find_mem lt_strictOrder hd'
  rw [find_congr hname]
  exact ⟨before, after, hfind⟩

/-- Names are ordered, so a name that is not in a set separates its elements. -/
theorem separates_of_not_mem {defines : LogDefines} {d : LogDefine}
    (hnot : ∀ d' ∈ defines.elems, d.name ≠ d'.name) :
  OrderedSet.Separates LogDefine.lt d defines.elems
  := by
  intro d' hd'
  simp only [LogDefine.lt, decide_eq_true_eq]
  by_contra hneither
  obtain ⟨hnlt, hngt⟩ := not_or.mp hneither
  apply hnot d' hd' (List.le_antisymm hnlt hngt)

theorem find_of_not_mem {defines : LogDefines} {d : LogDefine}
    (hnot : ∀ d' ∈ defines.elems, d.name ≠ d'.name) :
  OrderedSet.find LogDefine.lt d defines.elems = none
  := (separates_of_not_mem hnot).find_eq_none

/-- An element of a set is determined by its name. -/
theorem eq_of_name {defines : LogDefines} {d d' : LogDefine} (hd : d ∈ defines.elems)
    (hd' : d' ∈ defines.elems) (hname : d.name = d'.name) :
  d = d'
  := by
  obtain ⟨before, after, hfind⟩ := find_of_mem hd hname.symm
  obtain ⟨before', after', hfind'⟩ := find_of_mem hd' rfl
  rw [hfind'] at hfind
  have htriple := Option.some.inj hfind
  exact (Prod.mk.inj (Prod.mk.inj htriple).2).1.symm

/-! ### The loops of the listener -/

/-- The appenders for a list of definitions. -/
def appendersOf (l : List LogAppenderDefine) : Option (List LogAppender) := l.mapM newAppender

theorem addAppenders_eq (logger : Logger) (l : List LogAppenderDefine) :
  addAppenders logger l
    = (appendersOf l).map fun aps => { logger with appenders := logger.appenders ++ aps }
  := by
  induction l generalizing logger with
  | nil => simp [addAppenders, appendersOf]
  | cons a rest ih =>
      rw [addAppenders, appendersOf, List.mapM_cons]
      cases hap : newAppender a with
      | none => simp
      | some ap =>
          simp only [Option.bind_some, ih, Option.bind_eq_bind]
          cases haps : appendersOf rest with
          | none => simp [appendersOf] at haps; simp [haps]
          | some aps => simp [appendersOf] at haps; simp [haps, Logger.addAppender]

theorem configure_eq (loggers : Loggers) (d : LogDefine) :
  configure loggers d
    = (appendersOf d.appenders).map fun aps => Function.update loggers d.name (some ⟨d.level, aps⟩)
  := by
  rw [configure, addAppenders_eq, Option.map_map]
  rfl

/-- The old value has an element with the same name and the same level. -/
def Unchanged (old : LogDefines) (d : LogDefine) : Prop :=
  ∃ d' ∈ old.elems, d.name = d'.name ∧ d.level = d'.level

theorem applyNew_of_unchanged {old : LogDefines} {d : LogDefine} (h : Unchanged old d)
    (loggers : Loggers) :
  applyNew old loggers d = some loggers
  := by
  obtain ⟨d', hd', hname, hlevel⟩ := h
  obtain ⟨before, after, hfind⟩ := find_of_mem hd' hname
  rw [applyNew, hfind]
  simp [LogDefine.eq, hname, hlevel]

theorem applyNew_of_changed {old : LogDefines} {d : LogDefine} (h : ¬ Unchanged old d)
    (loggers : Loggers) :
  applyNew old loggers d = configure loggers d
  := by
  by_cases hmem : ∃ d' ∈ old.elems, d.name = d'.name
  · obtain ⟨d', hd', hname⟩ := hmem
    obtain ⟨before, after, hfind⟩ := find_of_mem hd' hname
    have hlevel : d.level ≠ d'.level := fun hlevel => h ⟨d', hd', hname, hlevel⟩
    rw [applyNew, hfind]
    simp [LogDefine.eq, hname, hlevel]
  · have hnot : ∀ d' ∈ old.elems, d.name ≠ d'.name := fun d' hd' hname => hmem ⟨d', hd', hname⟩
    rw [applyNew, find_of_not_mem hnot]

/-- What the loggers are behind the first loop: those that have changed match their definitions, and the
others are as before. -/
structure AppliedNew (old : LogDefines) (l : List LogDefine) (loggers loggers' : Loggers) : Prop where
  changed : ∀ d ∈ l, ¬ Unchanged old d →
    ∃ aps, appendersOf d.appenders = some aps ∧ loggers' d.name = some ⟨d.level, aps⟩
  same : ∀ name, (∀ d ∈ l, d.name = name → Unchanged old d) → loggers' name = loggers name

theorem appliedNew_of_foldlM {old : LogDefines} {l : List LogDefine}
    (hnames : l.Pairwise fun d d' => d.name ≠ d'.name) {loggers loggers' : Loggers}
    (h : l.foldlM (applyNew old) loggers = some loggers') :
  AppliedNew old l loggers loggers'
  := by
  induction l generalizing loggers with
  | nil =>
      obtain rfl : loggers = loggers' := by simpa using h
      exact ⟨by simp, fun _ _ => rfl⟩
  | cons d rest ih =>
      obtain ⟨hd, hrest⟩ := List.pairwise_cons.mp hnames
      rw [List.foldlM_cons] at h
      obtain ⟨middle, hmiddle, hfold⟩ := Option.bind_eq_some_iff.mp h
      have happlied := ih hrest hfold
      have hkeep : loggers' d.name = middle d.name := by
        apply happlied.same
        intro d' hd' hname
        exact absurd hname.symm (hd d' hd')
      by_cases hunchanged : Unchanged old d
      · obtain rfl : loggers = middle := by simpa [applyNew_of_unchanged hunchanged] using hmiddle
        constructor
        · intro d' hd' hchanged
          rcases List.mem_cons.mp hd' with rfl | hd'
          · exact absurd hunchanged hchanged
          · apply happlied.changed d' hd' hchanged
        · intro name hname
          apply happlied.same
          intro d' hd'
          apply hname d' (List.mem_cons_of_mem _ hd')
      · rw [applyNew_of_changed hunchanged, configure_eq] at hmiddle
        obtain ⟨aps, haps, rfl⟩ := Option.map_eq_some_iff.mp hmiddle
        constructor
        · intro d' hd' hchanged
          rcases List.mem_cons.mp hd' with rfl | hd'
          · exact ⟨aps, haps, by simp [hkeep]⟩
          · apply happlied.changed d' hd' hchanged
        · intro name hname
          have hne : name ≠ d.name := by
            rintro rfl
            apply hunchanged (hname d List.mem_cons_self rfl)
          rw [happlied.same name fun d' hd' => hname d' (List.mem_cons_of_mem _ hd'),
            Function.update_of_ne hne]

/-- The first loop gets to its end if the types of all appenders are known. -/
theorem foldlM_applyNew_isSome (old : LogDefines) {l : List LogDefine}
    (hknown : ∀ d ∈ l, (appendersOf d.appenders).isSome) (loggers : Loggers) :
  (l.foldlM (applyNew old) loggers).isSome
  := by
  induction l generalizing loggers with
  | nil => simp
  | cons d rest ih =>
      have hrest := ih fun d' hd' => hknown d' (List.mem_cons_of_mem _ hd')
      rw [List.foldlM_cons]
      by_cases hunchanged : Unchanged old d
      · simp [applyNew_of_unchanged hunchanged, hrest]
      · obtain ⟨aps, haps⟩ := Option.isSome_iff_exists.mp (hknown d List.mem_cons_self)
        simp [applyNew_of_changed hunchanged, configure_eq, haps, hrest]

theorem applyOld_of_mem {new : LogDefines} {d d' : LogDefine} (hd' : d' ∈ new.elems)
    (hname : d.name = d'.name) (loggers : Loggers) :
  applyOld new loggers d = loggers
  := by
  obtain ⟨before, after, hfind⟩ := find_of_mem hd' hname
  rw [applyOld, hfind]

theorem applyOld_of_not_mem {new : LogDefines} {d : LogDefine}
    (hnot : ∀ d' ∈ new.elems, d.name ≠ d'.name) (loggers : Loggers) :
  applyOld new loggers d = Function.update loggers d.name (some ⟨.notset, []⟩)
  := by
  rw [applyOld, find_of_not_mem hnot]
  rfl

/-- The second loop leaves the loggers that are in the new value, and those that were not in the old one. -/
theorem foldl_applyOld_same {new : LogDefines} {l : List LogDefine} {name : List Byte}
    (h : (∃ d ∈ new.elems, d.name = name) ∨ ∀ d ∈ l, d.name ≠ name) (loggers : Loggers) :
  l.foldl (applyOld new) loggers name = loggers name
  := by
  induction l generalizing loggers with
  | nil => rfl
  | cons d rest ih =>
      rw [List.foldl_cons, ih (h.imp_right fun hnot d' hd' => hnot d' (List.mem_cons_of_mem _ hd'))]
      by_cases hmem : ∃ d' ∈ new.elems, d.name = d'.name
      · obtain ⟨d', hd', hname⟩ := hmem
        rw [applyOld_of_mem hd' hname]
      · have hnot : ∀ d' ∈ new.elems, d.name ≠ d'.name := fun d' hd' hname => hmem ⟨d', hd', hname⟩
        have hne : name ≠ d.name := by
          rintro rfl
          rcases h with ⟨d', hd', hname⟩ | hother
          · apply hnot d' hd' hname.symm
          · apply hother d List.mem_cons_self rfl
        rw [applyOld_of_not_mem hnot, Function.update_of_ne hne]

/-- The second loop takes their appenders from the loggers that are gone. -/
theorem foldl_applyOld_gone {new : LogDefines} {l : List LogDefine} {name : List Byte}
    (hgone : ∀ d ∈ new.elems, name ≠ d.name) {loggers : Loggers}
    (h : loggers name = some ⟨.notset, []⟩ ∨ ∃ d ∈ l, d.name = name) :
  l.foldl (applyOld new) loggers name = some ⟨.notset, []⟩
  := by
  induction l generalizing loggers with
  | nil => simpa using h
  | cons d rest ih =>
      rw [List.foldl_cons]
      apply ih
      by_cases hname : d.name = name
      · subst hname
        left
        rw [applyOld_of_not_mem hgone, Function.update_self]
      · rcases h with hdone | ⟨d', hd', hd'name⟩
        · left
          by_cases hmem : ∃ d' ∈ new.elems, d.name = d'.name
          · obtain ⟨d', hd', heq⟩ := hmem
            rw [applyOld_of_mem hd' heq, hdone]
          · have hnot : ∀ d' ∈ new.elems, d.name ≠ d'.name :=
              fun d' hd' heq => hmem ⟨d', hd', heq⟩
            rw [applyOld_of_not_mem hnot, Function.update_of_ne (Ne.symm hname), hdone]
        · right
          rcases List.mem_cons.mp hd' with rfl | hd'
          · exact absurd hd'name hname
          · exact ⟨d', hd', hd'name⟩

/-! ### The loggers behind `SetValue` -/

/-- The logger has the level and the appenders of its definition. -/
def Matches (d : LogDefine) (logger : Logger) : Prop :=
  logger.level = d.level ∧ appendersOf d.appenders = some logger.appenders

/-- The types of all appenders are known. -/
def KnownTypes (new : LogDefines) : Prop :=
  ∀ d ∈ new.elems, ∀ a ∈ d.appenders, a.type = 1 ∨ a.type = 2

theorem newAppender_isSome_iff (a : LogAppenderDefine) :
  (newAppender a).isSome ↔ a.type = 1 ∨ a.type = 2
  := by
  rw [newAppender]
  split
  · simp_all
  · split <;> simp_all

theorem appendersOf_isSome_iff (l : List LogAppenderDefine) :
  (appendersOf l).isSome ↔ ∀ a ∈ l, a.type = 1 ∨ a.type = 2
  := by
  induction l with
  | nil => simp [appendersOf]
  | cons a rest ih =>
      rw [List.forall_mem_cons, ← ih, ← newAppender_isSome_iff, appendersOf, appendersOf,
        List.mapM_cons]
      cases newAppender a with
      | none => simp
      | some ap =>
          cases List.mapM newAppender rest with
          | none => simp
          | some aps => simp

theorem names_pairwise (defines : LogDefines) :
  defines.elems.Pairwise fun d d' => d.name ≠ d'.name
  := by
  apply defines.sorted.imp
  intro d d' hlt hname
  simp only [LogDefine.lt, hname, decide_eq_true_eq] at hlt
  apply List.lt_irrefl _ hlt

/-- Sets that are equal for `operator==` have the same names with the same levels. -/
theorem unchanged_of_setEq {new old : LogDefines} (h : setEq new old = true) :
  (∀ d ∈ new.elems, Unchanged old d) ∧ ∀ d ∈ old.elems, ∃ d' ∈ new.elems, d.name = d'.name
  := by
  simp only [setEq, Bool.and_eq_true, decide_eq_true_eq, List.all_eq_true] at h
  obtain ⟨hlength, hall⟩ := h
  have hforall : List.Forall₂ (fun d d' : LogDefine => d.name = d'.name ∧ d.level = d'.level)
      new.elems old.elems := by
    rw [List.forall₂_iff_zip]
    refine ⟨hlength, ?_⟩
    intro d d' hmem
    have heq := hall (d, d') hmem
    simpa [LogDefine.eq] using heq
  constructor
  · intro d hd
    apply Traversal.exists_of_forall₂ hforall d hd
  · intro d hd
    obtain ⟨d', hd', hname, -⟩ := Traversal.exists_of_forall₂ hforall.flip d hd
    exact ⟨d', hd', hname.symm⟩

/-- The early return of `SetValue` leaves the loggers as the listener would. -/
theorem onChange_of_setEq {new old : LogDefines} (h : setEq new old = true) (loggers : Loggers) :
  onChange old new loggers = some loggers
  := by
  obtain ⟨hnew, hold⟩ := unchanged_of_setEq h
  have hfirst : ∀ l : List LogDefine, (∀ d ∈ l, Unchanged old d) →
      l.foldlM (applyNew old) loggers = some loggers := by
    intro l hl
    induction l with
    | nil => rfl
    | cons d rest ih =>
        rw [List.foldlM_cons, applyNew_of_unchanged (hl d List.mem_cons_self)]
        apply ih fun d' hd' => hl d' (List.mem_cons_of_mem _ hd')
  have hsecond : ∀ l : List LogDefine, (∀ d ∈ l, ∃ d' ∈ new.elems, d.name = d'.name) →
      l.foldl (applyOld new) loggers = loggers := by
    intro l hl
    induction l with
    | nil => rfl
    | cons d rest ih =>
        obtain ⟨d', hd', hname⟩ := hl d List.mem_cons_self
        rw [List.foldl_cons, applyOld_of_mem hd' hname]
        apply ih fun d' hd' => hl d' (List.mem_cons_of_mem _ hd')
  rw [onChange, hfirst _ hnew, Option.map_some, hsecond _ hold]

theorem onChange_isSome (old : LogDefines) {new : LogDefines} (hknown : KnownTypes new)
    (loggers : Loggers) :
  (onChange old new loggers).isSome
  := by
  rw [onChange, Option.isSome_map]
  apply foldlM_applyNew_isSome
  intro d hd
  rw [appendersOf_isSome_iff]
  apply hknown d hd

/-- The loggers `http` and `system`, both with an appender for the standard output. -/
def before : LogDefines :=
  ⟨[⟨ascii "http", .info, [⟨2, [], []⟩]⟩, ⟨ascii "system", .info, [⟨2, [], []⟩]⟩], by decide⟩

/-- The logger `http` is gone, there is a new one, and `system` has another level and writes to a file. -/
def after : LogDefines :=
  ⟨[⟨ascii "base", .error, [⟨2, [], []⟩]⟩, ⟨ascii "system", .debug, [⟨1, [], ascii "log"⟩]⟩], by decide⟩

/-- The logger `system` is to write to a file, and nothing else changes. -/
def afterFile : LogDefines :=
  ⟨[⟨ascii "http", .info, [⟨2, [], []⟩]⟩, ⟨ascii "system", .info, [⟨1, [], ascii "log"⟩]⟩], by decide⟩

end LogConfig

import TinyWebserver.Base.LogConfig
import TinyWebserver.Lib.Transition

/-!
# Which appenders get an event

The macro `LOG_LEVEL`, `Logger::Log` and the `LoggerManager`, over runs in which the variable `logs` is set
again and again. A logger always has the level of the last value, but the appenders of the first value since
which it has kept that level: a change of nothing but its appenders takes no effect until the level changes,
or the logger is left out once. A logger that was left out has no appenders, and one that was never in a
value is as the `LoggerManager` made it: the program does not change loggers here. The log statement of the
listener is left out, which goes to the appenders of `root` and fails where one of them does.
-/

/-- The numbers of `LogLevel::Level`. -/
def LogLevel.value : LogLevel → ℕ
  | fatal => 0
  | alert => 100
  | crit => 200
  | error => 300
  | warn => 400
  | notice => 500
  | info => 600
  | debug => 700
  | notset => 800

namespace Logger

/-- `Log`: the appenders that get an event of a level. -/
def log (logger : Logger) (level : LogLevel) : List LogAppender :=
  if level.value ≤ logger.level.value then logger.appenders else []

/-- The macro `LOG_LEVEL`: the event is made if the logger has the level, and logged at the end of the
statement. -/
def logLevel (logger : Logger) (level : LogLevel) : List LogAppender :=
  if level.value ≤ logger.level.value then logger.log level else []

theorem logLevel_eq (logger : Logger) (level : LogLevel) :
  logger.logLevel level = logger.log level
  := by
  rw [logLevel, log]
  split <;> rfl

end Logger

namespace LogConfig

open Transition

/-- The constructor of `LoggerManager`. -/
def initialLoggers : Loggers := fun name =>
  if name = ascii "root" then some (Logger.new.addAppender ⟨.stdout, defaultPattern⟩) else none

/-- The variable and the loggers, with the values that were set, in order. -/
structure Session where
  state : State
  requested : List LogDefines

/-- The program asks for a logger, or sets the variable. -/
inductive Label where
  | getLogger (name : List Byte)
  | setValue (value : LogDefines)

/-- One call. -/
def step (s : Session) : Label → Option Session
  | .getLogger name =>
      let loggers := Function.update s.state.loggers name (some (s.state.loggers.getLogger name))
      some { s with state := { s.state with loggers := loggers } }
  | .setValue value => (setValue s.state value).map fun state => ⟨state, s.requested ++ [value]⟩

theorem sorted_nil :
  OrderedSet.Sorted LogDefine.lt []
  := List.Pairwise.nil

/-- The start: no logger is configured. -/
def start : Session := ⟨⟨⟨[], sorted_nil⟩, initialLoggers⟩, []⟩

/-- The types of the appenders in a value that is set are known. -/
def Label.Known : Label → Prop
  | .getLogger _ => True
  | .setValue value => KnownTypes value

/-! ### What the values say about a logger -/

/-- The definition is one of the first value since which its logger has been in all values with the same
level. -/
def InForce (values : List LogDefines) (d : LogDefine) : Prop :=
  ∃ earlier value later, values = earlier ++ value :: later ∧ d ∈ value.elems ∧
    (∀ v ∈ later, Unchanged v d) ∧ ∀ v ∈ earlier.getLast?, ¬ Unchanged v d

/-- A name is in a value. -/
def Named (value : LogDefines) (name : List Byte) : Prop := ∃ d ∈ value.elems, d.name = name

/-- The logger of a name, behind the values. -/
inductive Configured (values : List LogDefines) (name : List Byte) : Logger → Prop
  | inForce {d : LogDefine} {aps : List LogAppender} (h : InForce values d) (hname : d.name = name)
      (haps : appendersOf d.appenders = some aps) : Configured values name ⟨d.level, aps⟩
  | gone (h : ∃ v ∈ values, Named v name) (hlast : ∀ v ∈ values.getLast?, ¬ Named v name) :
      Configured values name ⟨.notset, []⟩
  | never (h : ∀ v ∈ values, ¬ Named v name) : Configured values name (initialLoggers.getLogger name)

/-- Two values have the same names with the same levels. -/
def Agree (v v' : LogDefines) : Prop := ∀ d, Unchanged v d ↔ Unchanged v' d

theorem Agree.named_iff {v v' : LogDefines} (h : Agree v v') (name : List Byte) :
  Named v name ↔ Named v' name
  := by
  constructor
  · rintro ⟨d, hd, rfl⟩
    obtain ⟨d', hd', hname, -⟩ := (h d).mp ⟨d, hd, rfl, rfl⟩
    exact ⟨d', hd', hname.symm⟩
  · rintro ⟨d, hd, rfl⟩
    obtain ⟨d', hd', hname, -⟩ := (h d).mpr ⟨d, hd, rfl, rfl⟩
    exact ⟨d', hd', hname.symm⟩

/-- Values that are equal for `operator==`. -/
theorem agree_of_setEq {new old : LogDefines} (h : setEq new old = true) :
  Agree old new
  := by
  obtain ⟨hnew, hold⟩ := unchanged_of_setEq h
  intro d
  constructor
  · rintro ⟨e, he, hname, hlevel⟩
    obtain ⟨e', he', hname'⟩ := hold e he
    obtain ⟨e'', he'', hname'', hlevel''⟩ := hnew e' he'
    obtain rfl := eq_of_name he he'' (hname'.trans hname'')
    exact ⟨e', he', hname.trans hname', hlevel.trans hlevel''.symm⟩
  · rintro ⟨e, he, hname, hlevel⟩
    obtain ⟨e', he', hname', hlevel'⟩ := hnew e he
    exact ⟨e', he', hname.trans hname', hlevel.trans hlevel'⟩

/-- The definition in force has the level of the last value. -/
theorem InForce.unchanged_last {values : List LogDefines} {d : LogDefine} (h : InForce values d) :
  ∃ v, values.getLast? = some v ∧ Unchanged v d
  := by
  obtain ⟨earlier, value, later, rfl, hd, hlater, -⟩ := h
  obtain rfl | ⟨later, last, rfl⟩ := later.eq_nil_or_concat
  · exact ⟨value, by simp, d, hd, rfl, rfl⟩
  · have hlast : (earlier ++ value :: later.concat last).getLast? = some last := by
      rw [List.concat_eq_append, ← List.cons_append, ← List.append_assoc, List.getLast?_concat]
    exact ⟨last, hlast, hlater last (by simp)⟩

/-! ### The calls -/

/-- What the listener does to the logger of a name. -/
structure Changed (old new : LogDefines) (loggers loggers' : Loggers) : Prop where
  set : ∀ d ∈ new.elems, ¬ Unchanged old d →
    ∃ aps, appendersOf d.appenders = some aps ∧ loggers' d.name = some ⟨d.level, aps⟩
  kept : ∀ d ∈ new.elems, Unchanged old d → loggers' d.name = loggers d.name
  cleared : ∀ name, Named old name → ¬ Named new name → loggers' name = some ⟨.notset, []⟩
  others : ∀ name, ¬ Named old name → ¬ Named new name → loggers' name = loggers name

theorem changed_of_onChange {old new : LogDefines} {loggers loggers' : Loggers}
    (h : onChange old new loggers = some loggers') :
  Changed old new loggers loggers'
  := by
  obtain ⟨middle, hmiddle, rfl⟩ := Option.map_eq_some_iff.mp h
  have happlied := appliedNew_of_foldlM (names_pairwise new) hmiddle
  have hnew : ∀ d ∈ new.elems, old.elems.foldl (applyOld new) middle d.name = middle d.name :=
    fun d hd => foldl_applyOld_same (Or.inl ⟨d, hd, rfl⟩) middle
  constructor
  · intro d hd hchanged
    rw [hnew d hd]
    apply happlied.changed d hd hchanged
  · intro d hd hunchanged
    rw [hnew d hd]
    apply happlied.same
    intro d' hd' hname
    rwa [eq_of_name hd' hd hname]
  · rintro name ⟨d, hd, rfl⟩ hgone
    apply foldl_applyOld_gone
    · intro d' hd' hname
      apply hgone ⟨d', hd', hname.symm⟩
    · exact Or.inr ⟨d, hd, rfl⟩
  · intro name hold hnew
    rw [foldl_applyOld_same]
    · apply happlied.same
      intro d hd hname
      exact absurd ⟨d, hd, hname⟩ hnew
    · right
      intro d hd hname
      apply hold ⟨d, hd, hname⟩

/-- The value agrees with the last one that was set, and the loggers are as the values say. -/
structure Session.Inv (s : Session) : Prop where
  agree : ∀ v ∈ s.requested.getLast?, Agree s.state.value v
  first : s.requested = [] → s.state.value.elems = []
  configured : ∀ name, Configured s.requested name (s.state.loggers.getLogger name)

theorem start_inv :
  start.Inv
  := by
  refine ⟨by simp [start], fun _ => rfl, ?_⟩
  intro name
  apply Configured.never
  simp [start]

/-- The value names what the last one that was set does. -/
theorem Session.Inv.last {s : Session} (h : s.Inv) {d : LogDefine} (hd : d ∈ s.state.value.elems) :
  ∃ v, s.requested.getLast? = some v ∧ Agree s.state.value v
  := by
  cases hlast : s.requested.getLast? with
  | none =>
      rw [h.first (List.getLast?_eq_none_iff.mp hlast)] at hd
      simp at hd
  | some v => exact ⟨v, rfl, h.agree v hlast⟩

/-- A logger in the new value that keeps its level keeps the definition in force. -/
theorem Session.Inv.kept {s : Session} (h : s.Inv) {new : LogDefines} {d : LogDefine} (hd : d ∈ new.elems)
    (hunchanged : Unchanged s.state.value d) :
  Configured (s.requested ++ [new]) d.name (s.state.loggers.getLogger d.name)
  := by
  obtain ⟨e, he, hname, hlevel⟩ := hunchanged
  obtain ⟨v, hlast, hagree⟩ := h.last he
  obtain ⟨f, hf, hfname, hflevel⟩ := (hagree d).mp ⟨e, he, hname, hlevel⟩
  have hconfigured := h.configured d.name
  generalize s.state.loggers.getLogger d.name = logger at hconfigured ⊢
  cases hconfigured with
  | inForce hforce hdname haps =>
      rename_i d₀ aps
      obtain ⟨v', hlast', g, hg, hgname, hglevel⟩ := hforce.unchanged_last
      obtain rfl : v = v' := Option.some.inj (hlast.symm.trans hlast')
      obtain rfl := eq_of_name hf hg (hfname.symm.trans (hdname.symm.trans hgname))
      obtain ⟨earlier, value, later, hsplit, hd₀, hlater, hearlier⟩ := hforce
      apply Configured.inForce _ hdname haps
      refine ⟨earlier, value, later ++ [new], by simp [hsplit], hd₀, ?_, hearlier⟩
      intro w hw
      rcases List.mem_append.mp hw with hw | hw
      · apply hlater w hw
      · obtain rfl := List.mem_singleton.mp hw
        exact ⟨d, hd, hdname, hglevel.trans hflevel.symm⟩
  | gone _ hnot => exact absurd ⟨f, hf, hfname.symm⟩ (hnot v hlast)
  | never hnot => exact absurd ⟨f, hf, hfname.symm⟩ (hnot v (List.mem_of_getLast? hlast))

/-- A logger that neither value names stays as it is. -/
theorem Session.Inv.others {s : Session} (h : s.Inv) {new : LogDefines} {name : List Byte}
    (hold : ¬ Named s.state.value name) (hnew : ¬ Named new name) :
  Configured (s.requested ++ [new]) name (s.state.loggers.getLogger name)
  := by
  have hconfigured := h.configured name
  generalize s.state.loggers.getLogger name = logger at hconfigured ⊢
  cases hconfigured with
  | inForce hforce hname _ =>
      obtain ⟨v, hlast, d, hd, hdname, -⟩ := hforce.unchanged_last
      apply absurd _ hold
      rw [(h.agree v hlast).named_iff]
      exact ⟨d, hd, hdname.symm.trans hname⟩
  | gone hever _ =>
      obtain ⟨v, hv, hnamed⟩ := hever
      apply Configured.gone ⟨v, List.mem_append_left _ hv, hnamed⟩
      simpa using hnew
  | never hnot =>
      apply Configured.never
      intro v hv
      rcases List.mem_append.mp hv with hv | hv
      · apply hnot v hv
      · obtain rfl := List.mem_singleton.mp hv
        apply hnew

/-- Behind the listener the loggers are as the values say. -/
theorem Session.Inv.configured_onChange {s : Session} (h : s.Inv) {new : LogDefines} {loggers' : Loggers}
    (hchanged : Changed s.state.value new s.state.loggers loggers') (name : List Byte) :
  Configured (s.requested ++ [new]) name (loggers'.getLogger name)
  := by
  by_cases hnew : Named new name
  · obtain ⟨d, hd, rfl⟩ := hnew
    by_cases hunchanged : Unchanged s.state.value d
    · rw [Loggers.getLogger, hchanged.kept d hd hunchanged]
      apply h.kept hd hunchanged
    · obtain ⟨aps, haps, hlogger⟩ := hchanged.set d hd hunchanged
      rw [Loggers.getLogger, hlogger]
      apply Configured.inForce _ rfl haps
      refine ⟨s.requested, new, [], rfl, hd, by simp, ?_⟩
      intro v hlast
      rwa [← h.agree v hlast]
  · by_cases hold : Named s.state.value name
    · rw [Loggers.getLogger, hchanged.cleared name hold hnew]
      obtain ⟨d, hd, hname⟩ := hold
      obtain ⟨v, hlast, hagree⟩ := h.last hd
      apply Configured.gone
      · exact ⟨v, List.mem_append_left _ (List.mem_of_getLast? hlast),
          (hagree.named_iff name).mp ⟨d, hd, hname⟩⟩
      · simpa using hnew
    · rw [Loggers.getLogger, hchanged.others name hold hnew]
      apply h.others hold hnew

/-- A call with known types succeeds and keeps the invariant. -/
theorem Session.Inv.step {s : Session} (h : s.Inv) {l : Label} (hl : l.Known) :
  ∃ s', LogConfig.step s l = some s' ∧ s'.Inv
  := by
  cases l with
  | getLogger name =>
      refine ⟨_, rfl, h.agree, h.first, ?_⟩
      intro name'
      have hsame : Loggers.getLogger (Function.update s.state.loggers name
          (some (s.state.loggers.getLogger name))) name' = s.state.loggers.getLogger name' := by
        by_cases hname : name' = name
        · simp [Loggers.getLogger, hname]
        · simp [Loggers.getLogger, hname]
      simp only [hsame]
      apply h.configured
  | setValue value =>
      obtain ⟨loggers', hchange⟩ :=
        Option.isSome_iff_exists.mp (onChange_isSome s.state.value hl s.state.loggers)
      have hconfigured := h.configured_onChange (changed_of_onChange hchange)
      by_cases heq : setEq value s.state.value
      · rw [onChange_of_setEq heq] at hchange
        obtain rfl := Option.some.inj hchange
        refine ⟨⟨s.state, s.requested ++ [value]⟩, by simp [LogConfig.step, setValue, heq], ?_, by simp,
          hconfigured⟩
        simpa using agree_of_setEq heq
      · refine ⟨⟨⟨value, loggers'⟩, s.requested ++ [value]⟩, by simp [LogConfig.step, setValue, heq, hchange],
          ?_, by simp, hconfigured⟩
        simp [Agree]

/-- In every run in which the types of all appenders are known, the listener sets up all loggers, and an event
of any level for any logger gets to the appenders that the values say: those in force, if the level of the
event is not above that of the last value. -/
theorem run_configured {ls : List Label} (hls : ∀ l ∈ ls, l.Known) :
  ∃ s, run step start ls = some s ∧ ∀ name, ∃ logger, Configured s.requested name logger ∧
    ∀ level, (s.state.loggers.getLogger name).logLevel level
      = if level.value ≤ logger.level.value then logger.appenders else []
  := by
  obtain ⟨s, hrun, h⟩ := run_total (fun _ _ h hl => Session.Inv.step h hl) start_inv
    (guarded_of_forall hls)
  refine ⟨s, hrun, ?_⟩
  intro name
  refine ⟨_, h.configured name, ?_⟩
  intro level
  rw [Logger.logLevel_eq, Logger.log]

/-- The appenders of `system` change without its level, and then `http` is left out. -/
def reconfigured : List Label :=
  [.setValue before, .getLogger (ascii "base"), .setValue afterFile, .setValue after]

theorem run_configured_reconfigured :
  ∃ s, run step start reconfigured = some s ∧
    ∃ logger, Configured s.requested (ascii "http") logger
  := by
  have hls : ∀ l ∈ reconfigured, l.Known := by
    intro l hl
    simp only [reconfigured, List.mem_cons, List.not_mem_nil, or_false] at hl
    rcases hl with rfl | rfl | rfl | rfl
    · unfold Label.Known KnownTypes
      decide
    · trivial
    · unfold Label.Known KnownTypes
      decide
    · unfold Label.Known KnownTypes
      decide
  obtain ⟨s, hrun, hconfigured⟩ := run_configured hls
  obtain ⟨logger, hlogger, -⟩ := hconfigured (ascii "http")
  exact ⟨s, hrun, logger, hlogger⟩

end LogConfig

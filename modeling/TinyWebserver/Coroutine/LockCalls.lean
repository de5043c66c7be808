import TinyWebserver.Base.Mutex

/-!
# The locks of the server

What the functions of the logger, the configuration, `FdManager`, `TimerManager`, `Scheduler` and `IOManager`
do with their mutexes, on each of their ways to return, and what `IOManager::tickle` writes to its pipe, which
nothing empties as long as the events are not dispatched. Threads call these functions as they like, one after
another; what they do between two calls takes no lock. `run_unblocked`: in no run of any number of threads
does a set of them wait for each other's locks, also where a mutex is unlocked that another thread has
locked since. Only a full pipe can stop a thread for good, and then those that wait for a mutex it holds.
-/

open LockOrder Transition

namespace Locking

/-- The mutexes, by the objects that have them: those of `Config`, of the loading of files in it, of a
`ConfigVar`, of `LoggerManager`, of a `Logger` and of an appender, of `FdManager`, and the ones that an
`IOManager` has as a `TimerManager`, as itself, for its descriptors and as a `Scheduler`; and the pipe of
`tickle`. -/
inductive LockName where
  | configs
  | modifyTimes
  | configVar (v : ℕ)
  | loggers
  | logger (l : ℕ)
  | appender (a : ℕ)
  | fdManager
  | timers (m : ℕ)
  | iomanager (m : ℕ)
  | fdContext (m fd : ℕ)
  | scheduler (m : ℕ)
  | pipe (m : ℕ)
deriving DecidableEq

/-- The order in which the mutexes are taken. -/
def rank : LockName → ℕ
  | .configs | .modifyTimes | .configVar _ | .fdManager | .timers _ | .iomanager _ | .pipe _ => 0
  | .loggers | .fdContext _ _ => 1
  | .logger _ | .scheduler _ => 2
  | .appender _ => 3

/-- A function that makes one scoped lock. -/
def locked (mode : Mode) (mutex : LockName) : List (Act LockName) :=
  trace [.scopedLock .lock mode mutex] []

/-! ### Logging -/

/-- `Log` of an appender: a `FileLogAppender` reopens its file first from time to time, and writes nothing
if that has failed. -/
inductive AppenderLog where
  | stdout (a : ℕ)
  | file (a : ℕ) (reopens writes : Bool)

/-- `StdoutLogAppender::Log`, and `FileLogAppender::Log` with `ReOpen`. -/
def AppenderLog.acts : AppenderLog → List (Act LockName)
  | stdout a => locked .write (.appender a)
  | file a reopens writes =>
      trace ((if reopens then [.block (locked .write (.appender a))] else []) ++
        if writes then [.scopedLock .lock .write (.appender a)] else []) []

/-- The appenders that a log statement writes to. -/
abbrev LogLine := List AppenderLog

/-- Log statements, with `Logger::Log` for each. -/
def logLines (lines : List LogLine) : List (Act LockName) := lines.flatten.flatMap AppenderLog.acts

/-- The calls of `LoggerManager`, `Logger` and the appenders, with the loggers and appenders that they go
through. -/
inductive LoggingCall where
  | log (lines : List LogLine)
  | getLogger
  | loggersToYamlString (loggers : List (ℕ × List ℕ))
  | addAppender (l : ℕ)
  | delAppender (l : ℕ)
  | clearAppenders (l : ℕ)
  | loggerToYamlString (l : ℕ) (appenders : List ℕ)
  | setFormatter (a : ℕ)
  | getFormatter (a : ℕ)
  | reOpen (a : ℕ)
  | appenderToYamlString (a : ℕ)

/-- `Logger::ToYamlString` -/
def loggerToYamlString (l : ℕ) (appenders : List ℕ) : List (Act LockName) :=
  trace [.scopedLock .lock .write (.logger l),
    .block (appenders.flatMap fun a => locked .write (.appender a))] []

/-- What a call does with the mutexes. -/
def LoggingCall.acts : LoggingCall → List (Act LockName)
  | log lines => logLines lines
  | getLogger => locked .write .loggers
  | loggersToYamlString loggers =>
      trace [.scopedLock .lock .write .loggers,
        .block (loggers.flatMap fun l => Locking.loggerToYamlString l.1 l.2)] []
  | addAppender l | delAppender l | clearAppenders l => locked .write (.logger l)
  | loggerToYamlString l appenders => Locking.loggerToYamlString l appenders
  | setFormatter a | getFormatter a | reOpen a | appenderToYamlString a => locked .write (.appender a)

/-! ### Configuration and descriptors -/

/-- The calls of `Config`, of `ConfigVar` and of `FdManager`. A listener is called by `SetValue` for a
changed value; the one of `LogIniter` calls functions of the logger. -/
inductive BaseCall where
  | lookup
  | lookupBase
  | loadFile
  | getValue (v : ℕ)
  | toString (v : ℕ)
  | setValue (v : ℕ) (listener : Option (List LoggingCall))
  | addListener (v : ℕ)
  | delListener (v : ℕ)
  | get (create : Bool)
  | del

/-- What a call does with the mutexes. -/
def BaseCall.acts : BaseCall → List (Act LockName)
  | lookup => locked .write .configs
  | lookupBase => locked .read .configs
  | loadFile => locked .write .modifyTimes
  | getValue v | toString v => locked .read (.configVar v)
  | setValue v none => locked .read (.configVar v)
  | setValue v (some listener) =>
      trace [.block (trace [.scopedLock .lock .read (.configVar v),
          .block (listener.flatMap LoggingCall.acts)] []),
        .scopedLock .lock .write (.configVar v)] []
  | addListener v | delListener v => locked .write (.configVar v)
  | get false => locked .read .fdManager
  | get true =>
      trace [.scopedLock .lock .read .fdManager, .unlock .lock, .scopedLock .lock2 .write .fdManager] []
  | del => locked .write .fdManager

/-! ### The scheduler and the timers -/

/-- A call of `tickle`: the log statement, and whether there are idle threads. -/
structure Tickle where
  line : LogLine
  hasIdleThreads : Bool

/-- `IOManager::tickle`: the log statement, and a byte for the pipe if there are idle threads. -/
def Tickle.acts (m : ℕ) (t : Tickle) : List (Act LockName) :=
  logLines [t.line] ++ if t.hasIdleThreads then [.send (.pipe m)] else []

/-- `Scheduler::schedule`, with `tickle` if that is called. -/
def schedule (m : ℕ) (tickled : Option Tickle) : List (Act LockName) :=
  trace [.block (locked .write (.scheduler m)), .block (tickled.toList.flatMap (Tickle.acts m))] []

/-- `TimerManager::addTimer(Timer::ptr, WriteLock&)`, which unlocks the scoped lock of its caller, with
`onTimerInsertedAtFront`, which calls `tickle`, if that is called. -/
def addTimerLocked (m : ℕ) (atFront : Option Tickle) : List (LockStmt LockName) :=
  [.unlock .lock, .block (atFront.toList.flatMap (Tickle.acts m))]

/-- The calls of a `Scheduler` and of a `TimerManager`: `run` takes a task, and `stop`, unless it returns at
once, calls `tickle` and takes the threads. Between the two it resumes the root fiber, which makes calls of
its own. -/
inductive SchedulerCall where
  | schedule (tickled : Option Tickle)
  | stopping
  | run (tickled : Option Tickle)
  | stop (tickles : Option (List Tickle))
  | cancel
  | refresh
  | reset (moved : Option (Option Tickle))
  | addTimer (atFront : Option Tickle)
  | getNextTimer
  | listExpiredCb (empty : Bool)
  | hasTimer

/-- What a call does with the mutexes. -/
def SchedulerCall.acts (m : ℕ) : SchedulerCall → List (Act LockName)
  | schedule tickled | run tickled => Locking.schedule m tickled
  | stopping | stop none => locked .write (.scheduler m)
  | stop (some tickles) =>
      trace [.block (locked .write (.scheduler m)), .block (tickles.flatMap (Tickle.acts m)),
        .scopedLock .lock .write (.scheduler m)] []
  | cancel | refresh => locked .write (.timers m)
  | reset none => locked .write (.timers m)
  | reset (some atFront) | addTimer atFront =>
      trace (.scopedLock .lock .write (.timers m) :: addTimerLocked m atFront) []
  | getNextTimer | hasTimer => locked .read (.timers m)
  | listExpiredCb true => locked .read (.timers m)
  | listExpiredCb false =>
      trace [.block (locked .read (.timers m)), .scopedLock .lock .write (.timers m)] []

/-! ### The events of a descriptor -/

/-- How a call on the context of a descriptor ends: with log statements, for a failed `epoll_ctl` or for an
event that is added; with calls of `schedule`, one for each event that is triggered, by the schedulers of
the waiting fibers; or with a call of `unlock` of the mutex itself, for an event that is not awaited or a
failed `epoll_ctl`. -/
inductive ContextEnd where
  | logs (lines : List LogLine)
  | triggers (schedulers : List (ℕ × Option Tickle))
  | unlocks (lines : List LogLine)

/-- The last statements of such a call. -/
def ContextEnd.stmts (m fd : ℕ) : ContextEnd → List (LockStmt LockName)
  | logs lines => [.block (logLines lines)]
  | triggers schedulers => [.block (schedulers.flatMap fun s => schedule s.1 s.2)]
  | unlocks lines => [.block (logLines lines), .mutexUnlock (.fdContext m fd)]

/-- The calls of an `IOManager`, with whether there is a context for the descriptor: `dispatch` is what `idle`
does with a ready descriptor. -/
inductive EventCall where
  | addEvent (fd : ℕ) (known : Bool) (lines : List LogLine)
  | delEvent (fd : ℕ) (known : Option ContextEnd)
  | cancelEvent (fd : ℕ) (known : Option ContextEnd)
  | cancelAll (fd : ℕ) (known : Option ContextEnd)
  | dispatch (fd : ℕ) (last : ContextEnd)

/-- `delEvent`, `cancelEvent` and `cancelAll`: the context is looked up under the lock of the manager, and
the rest is done under that of the context. -/
def onContext (m fd : ℕ) : Option ContextEnd → List (Act LockName)
  | none => locked .read (.iomanager m)
  | some last =>
      trace ([.scopedLock .lock .read (.iomanager m), .unlock .lock,
        .scopedLock .lock2 .write (.fdContext m fd)] ++ last.stmts m fd) []

/-- What a call does with the mutexes. -/
def EventCall.acts (m : ℕ) : EventCall → List (Act LockName)
  | addEvent fd known lines =>
      trace ([.scopedLock .lock .read (.iomanager m), .unlock .lock] ++
        (if known then [] else [.block (trace [.scopedLock .lock2 .write (.iomanager m)] [])]) ++
        [.scopedLock .lock2 .write (.fdContext m fd), .block (logLines lines)]) []
  | delEvent fd known | cancelEvent fd known | cancelAll fd known => onContext m fd known
  | dispatch fd last => trace (.scopedLock .lock .write (.fdContext m fd) :: last.stmts m fd) []

/-! ### All calls -/

/-- A call of one of the functions, for an `IOManager` by its number. -/
inductive Call where
  | logging (call : LoggingCall)
  | base (call : BaseCall)
  | scheduler (m : ℕ) (call : SchedulerCall)
  | event (m : ℕ) (call : EventCall)

/-- What a call does with the mutexes. -/
def Call.acts : Call → List (Act LockName)
  | logging call => call.acts
  | base call => call.acts
  | scheduler m call => call.acts m
  | event m call => call.acts m

variable {k : LockName}

variable {ι : Type*} [Fintype ι] [DecidableEq ι] {s : Threads ι LockName}

/-- A thread adds an event while another one takes one back that is not awaited and has unlocked the mutex of
the context itself, and goes on to schedule a task. -/
def addAndDelete : List (Label Bool LockName) :=
  [.call true (Call.event 0 (.delEvent 5 (some (.unlocks [])))).acts,
    .call false (Call.event 0 (.addEvent 5 true [[.stdout 1]])).acts] ++
    List.replicate 4 (.act true) ++ List.replicate 3 (.act false) ++
    [.act true, .call true (Call.scheduler 0 (.schedule (some ⟨[.stdout 1], true⟩))).acts]

end Locking

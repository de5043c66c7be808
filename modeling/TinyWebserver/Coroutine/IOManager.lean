import TinyWebserver.Base.Bytes
import TinyWebserver.Base.Timer
import TinyWebserver.Coroutine.Fiber

/-!
# The event loop

The class `IOManager` of `coroutine/iomanager.cpp`: for every descriptor an `FdContext` says which
events are awaited and who is to be scheduled for them, and the interest list of the `epoll`
instance says the same to the kernel. Results of system calls are arguments, and `none` stands for
a failed assertion or for the use of a pointer that is null or out of bounds.

A task handed to a scheduler is an entry of the log `scheduled`. The counter
`m_pendingEventCount` is an integer, so that a decrement too many would show. A descriptor is a
natural number below `2 ^ 31`, so that the conversion of the size of `m_fdContexts` to `int` is
exact.
-/

universe u

/-- A mask of events. -/
abbrev Mask := BitVec 32

def EPOLLIN : Mask := 0x1
def EPOLLOUT : Mask := 0x4
def EPOLLERR : Mask := 0x8
def EPOLLHUP : Mask := 0x10
def EPOLLET : Mask := 0x80000000

/-- The values `READ` and `WRITE` of `IOManager::Event`. -/
inductive Event where
  | read
  | write
deriving DecidableEq, Repr

instance : Fintype Event where
  elems := {.read, .write}
  complete event := by cases event <;> simp

/-- The value of an event, as a mask. -/
def Event.mask : Event → Mask
  | .read => 0x1
  | .write => 0x4

/-- A pointer to a scheduler that is not null. -/
abbrev SchedulerId := ℕ

/-- What `schedule` is given: a pointer to a fiber, which may be null, or a callback. -/
inductive FiberOrCb (Cb : Type u) where
  | fiber (f : Option FiberId)
  | cb (cb : Cb)
deriving DecidableEq

/-- The structure `EventContext`. -/
structure EventContext (Cb : Type u) where
  scheduler : Option SchedulerId := none
  fiber : Option FiberId := none
  cb : Option Cb := none
deriving DecidableEq

/-- No member of the context is set. -/
def EventContext.isEmpty {Cb : Type u} (e : EventContext Cb) : Bool :=
  e.scheduler.isNone && e.fiber.isNone && e.cb.isNone

/-- What `triggerEvent` schedules: the callback if there is one, and the fiber otherwise. -/
def EventContext.task {Cb : Type u} (e : EventContext Cb) : FiberOrCb Cb :=
  match e.cb with
  | some cb => .cb cb
  | none => .fiber e.fiber

/-- The structure `FdContext`, less its mutex. -/
structure FdContext (Cb : Type u) where
  read : EventContext Cb := {}
  write : EventContext Cb := {}
  fd : ℕ
  events : Mask := 0
deriving DecidableEq

/-- The operations of `epoll_ctl`. -/
inductive CtlOp where
  | add
  | mod
  | del
deriving DecidableEq, Repr

/-- The interest list of an `epoll` instance: the mask a descriptor is registered with. -/
abbrev Interest := ℕ → Option Mask

/-- `epoll_ctl`, with `none` if it fails. It may fail at any time, and it fails if the descriptor
is registered already, for `add`, or is not, for `mod` and `del`. -/
def epollCtl (registered : Interest) (op : CtlOp) (fd : ℕ) (mask : Mask) (ok : Bool) :
    Option Interest :=
  match ok, op, registered fd with
  | true, .add, none => some (Function.update registered fd (some mask))
  | true, .mod, some _ => some (Function.update registered fd (some mask))
  | true, .del, some _ => some (Function.update registered fd none)
  | _, _, _ => none

namespace FdContext

variable {Cb : Type u}

/-- `getEventContext`. -/
def getEventContext (c : FdContext Cb) : Event → EventContext Cb
  | .read => c.read
  | .write => c.write

/-- The context after an assignment to the one of an event. -/
def setEventContext (c : FdContext Cb) (event : Event) (e : EventContext Cb) : FdContext Cb :=
  match event with
  | .read => { c with read := e }
  | .write => { c with write := e }

/-- `resetEventContext`. -/
def resetEventContext (c : FdContext Cb) (event : Event) : FdContext Cb :=
  c.setEventContext event {}

/-- `triggerEvent`, with what is handed to which scheduler. -/
def triggerEvent (c : FdContext Cb) (event : Event) :
    Option (FdContext Cb × SchedulerId × FiberOrCb Cb) :=
  if c.events &&& event.mask = 0 then none
  else
    let c := { c with events := c.events &&& ~~~event.mask }
    let e := c.getEventContext event
    e.scheduler.map fun scheduler => (c.resetEventContext event, scheduler, e.task)

end FdContext

/-- The class `IOManager`, with the interest list of its `epoll` instance, the number of unread
bytes in the tickle pipe, the number of bytes read from it, and what was handed to schedulers. -/
structure IOManager (Cb : Type u) where
  fdContexts : List (FdContext Cb)
  pendingEventCount : ℤ
  registered : Interest
  pipe : ℕ
  pipeRead : ℕ
  scheduled : List (SchedulerId × FiberOrCb Cb)
  timers : TimerManager Cb

namespace IOManager

variable {Cb : Type u}

/-- `contextResize`. -/
def contextResize (m : IOManager Cb) (size : ℕ) : IOManager Cb :=
  { m with
    fdContexts := m.fdContexts.take size ++
      (List.range' m.fdContexts.length (size - m.fdContexts.length)).map fun i => { fd := i } }

/-- The constructor, at the time `now`. -/
def new (now : ℕ) : IOManager Cb :=
  contextResize
    { fdContexts := [], pendingEventCount := 0, registered := fun _ => none, pipe := 0,
      pipeRead := 0, scheduled := [], timers := .new now } 32

/-- The manager after an assignment to the context of a descriptor. -/
def setContext (m : IOManager Cb) (fd : ℕ) (c : FdContext Cb) : IOManager Cb :=
  { m with fdContexts := m.fdContexts.set fd c }

/-- Who calls `addEvent`: the scheduler of the thread, its running fiber and the state of it. -/
structure Caller where
  scheduler : Option SchedulerId
  fiber : FiberId
  state : FiberState

/-- The first part of `addEvent`, which makes a context for a descriptor that has none. -/
def withContext (m : IOManager Cb) (fd : ℕ) : IOManager Cb :=
  if fd < m.fdContexts.length then m else m.contextResize (fd * 3 / 2)

/-- What `addEvent` writes to the context of the event. -/
def Caller.eventContext (caller : Caller) : Option Cb → EventContext Cb
  | some cb => { scheduler := caller.scheduler, cb := some cb }
  | none => { scheduler := caller.scheduler, fiber := some caller.fiber }

/-- `addEvent`, with the value it returns. -/
def addEvent (m : IOManager Cb) (caller : Caller) (fd : ℕ) (event : Event) (cb : Option Cb)
    (ok : Bool) : Option (ℤ × IOManager Cb) :=
  let m := m.withContext fd
  match m.fdContexts[fd]? with
  | none => none
  | some c =>
      if c.events &&& event.mask ≠ 0 then none
      else
        let op := if c.events ≠ 0 then CtlOp.mod else CtlOp.add
        match epollCtl m.registered op fd (EPOLLET ||| c.events ||| event.mask) ok with
        | none => some (-1, m)
        | some registered =>
            let c := { c with events := c.events ||| event.mask }
            if ¬ (c.getEventContext event).isEmpty then none
            else if cb.isNone ∧ caller.state ≠ .running then none
            else
              some (0, { m with
                registered := registered
                pendingEventCount := m.pendingEventCount + 1 }.setContext fd
                  (c.setEventContext event (caller.eventContext cb)))

/-- `delEvent`, with the value it returns. -/
def delEvent (m : IOManager Cb) (fd : ℕ) (event : Event) (ok : Bool) : Bool × IOManager Cb :=
  match m.fdContexts[fd]? with
  | none => (false, m)
  | some c =>
      if c.events &&& event.mask = 0 then (false, m)
      else
        let newEvents := c.events &&& ~~~event.mask
        let op := if newEvents ≠ 0 then CtlOp.mod else CtlOp.del
        match epollCtl m.registered op fd (EPOLLET ||| newEvents) ok with
        | none => (false, m)
        | some registered =>
            (true, { m with
              registered := registered
              pendingEventCount := m.pendingEventCount - 1 }.setContext fd
                ({ c with events := newEvents }.resetEventContext event))

/-- A call of `triggerEvent` on the context of a descriptor, followed by the decrement of the
counter. -/
def trigger (m : IOManager Cb) (fd : ℕ) (event : Event) : Option (IOManager Cb) := do
  let c ← m.fdContexts[fd]?
  let (c, scheduler, task) ← c.triggerEvent event
  some ({ m with
    pendingEventCount := m.pendingEventCount - 1
    scheduled := m.scheduled ++ [(scheduler, task)] }.setContext fd c)

/-- `cancelEvent`, with the value it returns. -/
def cancelEvent (m : IOManager Cb) (fd : ℕ) (event : Event) (ok : Bool) :
    Option (Bool × IOManager Cb) :=
  match m.fdContexts[fd]? with
  | none => some (false, m)
  | some c =>
      if c.events &&& event.mask = 0 then some (false, m)
      else
        let newEvents := c.events &&& ~~~event.mask
        let op := if newEvents ≠ 0 then CtlOp.mod else CtlOp.del
        match epollCtl m.registered op fd (EPOLLET ||| newEvents) ok with
        | none => some (false, m)
        | some registered =>
            ({ m with registered := registered }.trigger fd event).map fun m => (true, m)

/-- A call of `trigger` if an event is in a mask. -/
def triggerIf (m : IOManager Cb) (fd : ℕ) (mask : Mask) (event : Event) : Option (IOManager Cb) :=
  if mask &&& event.mask ≠ 0 then m.trigger fd event else some m

/-- `cancelAll`, with the value it returns. -/
def cancelAll (m : IOManager Cb) (fd : ℕ) (ok : Bool) : Option (Bool × IOManager Cb) :=
  match m.fdContexts[fd]? with
  | none => some (false, m)
  | some c =>
      if c.events = 0 then some (false, m)
      else
        match epollCtl m.registered .del fd 0 ok with
        | none => some (false, m)
        | some registered => do
            let m ← { m with registered := registered }.triggerIf fd c.events .read
            let c ← m.fdContexts[fd]?
            let m ← m.triggerIf fd c.events .write
            let c ← m.fdContexts[fd]?
            if c.events = 0 then some (true, m) else none

/-- The events of a ready mask that `idle` acts on, for a context that awaits `events`. -/
def realEvents (ready events : Mask) : Mask :=
  let ready :=
    if ready &&& (EPOLLERR ||| EPOLLHUP) ≠ 0 then ready ||| ((EPOLLIN ||| EPOLLOUT) &&& events)
    else ready
  (if ready &&& EPOLLIN ≠ 0 then Event.read.mask else 0) |||
    (if ready &&& EPOLLOUT ≠ 0 then Event.write.mask else 0)

/-- The body of the loop of `idle` over the ready entries, for the entry of a descriptor, with
whether events were triggered. -/
def dispatch (m : IOManager Cb) (fd : ℕ) (ready : Mask) (ok : Bool) :
    Option (Bool × IOManager Cb) := do
  let c ← m.fdContexts[fd]?
  let real := realEvents ready c.events
  if c.events &&& real = 0 then some (false, m)
  else
    let leftEvents := c.events &&& ~~~real
    let op := if leftEvents ≠ 0 then CtlOp.mod else CtlOp.del
    match epollCtl m.registered op c.fd (EPOLLET ||| leftEvents) ok with
    | none => some (false, m)
    | some registered => do
        let m ← { m with registered := registered }.triggerIf fd real .read
        let m ← m.triggerIf fd real .write
        some (true, m)

/-! ### The loop -/

/-- A ready entry, told by what its `data` is: the read end of the tickle pipe, or the context of a
descriptor, with the mask of its ready events. -/
inductive Entry where
  | tickle
  | context (fd : ℕ) (ready : Mask)
deriving DecidableEq

/-- The body of the loop of `idle` over the ready entries. -/
def processEntry (m : IOManager Cb) (entry : Entry) (ok : Bool) : Option (IOManager Cb) :=
  match entry with
  | .tickle => some { m with pipe := 0, pipeRead := m.pipeRead + m.pipe }
  | .context fd ready => (m.dispatch fd ready ok).map Prod.snd

/-- The loop of `idle` over the first `rt` entries of `events`, each with the outcome of the call
of `epoll_ctl` for it. -/
def processEntries (m : IOManager Cb) (events : List (Entry × Bool)) (rt : ℕ) :
    Option (IOManager Cb) :=
  (events.take rt).foldlM (fun m e => m.processEntry e.1 e.2) m

/-- The value `EINTR` of `errno`. -/
def EINTR : Errno := 4

/-- The inner loop of `idle`, with the results of its calls of `epoll_wait`: the value of its own
variable `rt`, and the entries written to `events`. -/
def epollWait : List (Except Errno (List Entry)) → Option (ℤ × List Entry)
  | [] => none
  | .error e :: results => if e = EINTR then epollWait results else some (-1, [])
  | .ok entries :: _ => some (entries.length, entries)

/-- The scheduling of the expired timers in `idle`, by the manager `self`. -/
def scheduleExpired (m : IOManager Cb) (self : SchedulerId) (now probe : ℕ) : IOManager Cb :=
  let (cbs, timers) := m.timers.listExpiredCb now probe
  { m with
    timers := timers
    scheduled := m.scheduled ++ cbs.filterMap fun cb => cb.2.map fun cb => (self, .cb cb) }

/-- One turn of the outer loop of `idle` that does not leave it, up to the call of `yield`. The
variable `rt` of the outer loop stays zero: the one that gets the result of `epoll_wait` is
declared anew in the inner loop. -/
def idleTurn (m : IOManager Cb) (self : SchedulerId) (results : List (Except Errno (List Entry)))
    (now probe : ℕ) (ok : ℕ → Bool) : Option (IOManager Cb) :=
  let rt := 0
  (epollWait results).bind fun (_, events) =>
    (m.scheduleExpired self now probe).processEntries (events.mapIdx fun i e => (e, ok i)) rt

end IOManager

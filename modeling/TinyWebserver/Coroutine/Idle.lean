import TinyWebserver.Coroutine.IOManagerInvariant

/-!
# One turn of the idle loop

A turn of `idle` waits for ready entries and is then to act on all of them: to empty the tickle pipe,
and to trigger the ready events that are awaited. `AllProcessed` says so. The loop over the entries
is bounded by a variable that the result of `epoll_wait` is never assigned to, so the turn acts on no
entry at all, and `idleTurn_allProcessed_iff` says exactly when that is all it has to do.
-/

universe u

variable {Cb : Type u}

namespace IOManager

/-- An event is ready by a mask: by its own bit, or by an error or a hang-up. -/
def isReady (ready : Mask) (event : Event) : Bool :=
  ready &&& event.mask ≠ 0 ∨ ready &&& (EPOLLERR ||| EPOLLHUP) ≠ 0

/-- The events of an entry that are ready and awaited, with their descriptor. -/
def due (m : IOManager Cb) : Entry → List (ℕ × Event)
  | .tickle => []
  | .context fd ready =>
      ([Event.read, Event.write].filter fun event =>
        isReady ready event ∧ (m.context fd).events &&& event.mask ≠ 0).map fun event => (fd, event)

/-- The events that are ready and awaited, over all entries. -/
def work (m : IOManager Cb) (entries : List Entry) : List (ℕ × Event) := entries.flatMap m.due

/-- What is to be handed to a scheduler for an awaited event. -/
def taskFor (m : IOManager Cb) (p : ℕ × Event) : Option (SchedulerId × FiberOrCb Cb) :=
  let e := (m.context p.1).getEventContext p.2
  e.scheduler.map fun scheduler => (scheduler, e.task)

/-- All entries were processed between `m` and `m'`, and beside that only `others` were scheduled:
what was in the tickle pipe was read if the pipe was ready, and every event that was ready and
awaited has been scheduled once, is not awaited any more and is not counted any more. -/
structure AllProcessed (m m' : IOManager Cb) (others : List (SchedulerId × FiberOrCb Cb))
    (entries : List Entry) : Prop where
  drained : .tickle ∈ entries → m.pipeRead + m.pipe ≤ m'.pipeRead
  scheduled : m'.scheduled.Perm (m.scheduled ++ others ++ (m.work entries).filterMap m.taskFor)
  cleared : ∀ p ∈ m.work entries, (m'.context p.1).events &&& p.2.mask = 0
  count : m'.pendingEventCount = m.pendingEventCount - (m.work entries).length

/-- The callbacks of the expired timers that a turn schedules. -/
def expired (m : IOManager Cb) (self : SchedulerId) (now probe : ℕ) :
    List (SchedulerId × FiberOrCb Cb) :=
  (m.timers.listExpiredCb now probe).1.filterMap fun cb => cb.2.map fun cb => (self, .cb cb)

/-- A turn schedules the expired timers and does nothing else. -/
theorem idleTurn_eq (m : IOManager Cb) (self : SchedulerId)
    {results : List (Except Errno (List Entry))} {rt : ℤ} {entries : List Entry}
    (h : epollWait results = some (rt, entries)) (now probe : ℕ) (ok : ℕ → Bool) :
  m.idleTurn self results now probe ok = some (m.scheduleExpired self now probe)
  := by
  rw [idleTurn, h]
  rfl

/-- A turn processes all ready entries exactly if none of them asks for anything: the tickle pipe is
not ready or is empty, and no awaited event is ready. -/
theorem idleTurn_allProcessed_iff (m : IOManager Cb) (self : SchedulerId)
    {results : List (Except Errno (List Entry))} {rt : ℤ} {entries : List Entry}
    (h : epollWait results = some (rt, entries)) (now probe : ℕ) (ok : ℕ → Bool) :
  ∃ m', m.idleTurn self results now probe ok = some m' ∧
    (m.AllProcessed m' (m.expired self now probe) entries ↔
      (.tickle ∈ entries → m.pipe = 0) ∧ m.work entries = [])
  := by
  refine ⟨_, m.idleTurn_eq self h now probe ok, ?_⟩
  constructor
  · intro hall
    constructor
    · intro htickle
      have hdrained := hall.drained htickle
      simp only [scheduleExpired] at hdrained
      omega
    · have hcount := hall.count
      simp only [scheduleExpired] at hcount
      apply List.length_eq_zero_iff.mp
      omega
  · rintro ⟨hpipe, hwork⟩
    refine ⟨?_, ?_, ?_, ?_⟩
    · intro htickle
      rw [hpipe htickle]
      exact le_refl _
    · rw [hwork]
      simp [scheduleExpired, expired]
    · simp [hwork]
    · simp [scheduleExpired, hwork]

/-- A manager where a callback awaits that descriptor 5 can be read, as `addEvent` leaves it. -/
def oneReader : IOManager ℕ :=
  { (new 0).setContext 5
      { fd := 5, events := Event.read.mask, read := { scheduler := some 1, cb := some 9 } } with
    pendingEventCount := 1
    registered := Function.update (fun _ => none) 5 (some (EPOLLET ||| EPOLLIN)) }

theorem idleTurn_allProcessed_oneReader :
  ∃ m', oneReader.idleTurn 1 [.error EINTR, .ok [.tickle, .context 5 EPOLLOUT]] 0 0 (fun _ => true)
      = some m' ∧
    (oneReader.AllProcessed m' (oneReader.expired 1 0 0) [.tickle, .context 5 EPOLLOUT] ↔
      (.tickle ∈ [Entry.tickle, .context 5 EPOLLOUT] → oneReader.pipe = 0) ∧
        oneReader.work [.tickle, .context 5 EPOLLOUT] = [])
  := by
  have hwait : epollWait [.error EINTR, .ok [.tickle, .context 5 EPOLLOUT]]
      = some (2, [.tickle, .context 5 EPOLLOUT]) := by decide
  apply oneReader.idleTurn_allProcessed_iff 1 hwait 0 0 _

/-- Descriptor 5 can be read, and a callback awaits that: the turn does not process the entry. -/
theorem idleTurn_drops_ready_event :
  (new 0).addEvent ⟨some 1, 7, .running⟩ 5 .read (some 9) true = some (0, oneReader) ∧
    ∃ m', oneReader.idleTurn 1 [.ok [.context 5 EPOLLIN]] 0 0 (fun _ => true) = some m' ∧
      ¬ oneReader.AllProcessed m' (oneReader.expired 1 0 0) [.context 5 EPOLLIN]
  := by
  have hwait : epollWait [.ok [.context 5 EPOLLIN]] = some (1, [.context 5 EPOLLIN]) := rfl
  refine ⟨rfl, _, oneReader.idleTurn_eq 1 hwait 0 0 _, ?_⟩
  intro hall
  have hcount := hall.count
  have hwork : oneReader.work [.context 5 EPOLLIN] = [(5, .read)] := by decide
  rw [hwork] at hcount
  exact absurd hcount (by decide)

end IOManager

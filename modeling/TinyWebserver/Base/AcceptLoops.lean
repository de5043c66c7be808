import TinyWebserver.Lib.Counting
import TinyWebserver.Lib.Transition

/-!
# The accept loops of a server

`TcpServer::start`, `stop` and `startAccept` of `base/tcp_server.cpp`, on one scheduler that runs the accept
loops, the closure scheduled by `stop` and the handlers of the clients, as it is with the default arguments
of the constructor. `::accept` blocks its thread, so every loop keeps a thread for itself. The bodies of
`start` and `stop` are single steps, and `schedule` does not wait: `tickle` writes a byte to a pipe that
nothing empties, and the pipe is taken to have room for it.

Every client is accepted once and handled once, in any order of the steps, `run_clients`, if the calls of
`start` and `stop` are `Orderly`: a server is started again only when its loops and the closure of `stop`
are through, and stopped only when no closure is under way. After `stop` at most one more client is accepted
by each loop, `run_accepted_le`.
-/

namespace TcpServer

open Transition Counting

/-- Where `startAccept` is: not begun, at the test of `m_isStop`, in front of `::accept`, in it, behind it
with a client, or at its end. -/
inductive LoopPlace where
  | queued
  | testing
  | calling
  | waiting
  | holding (client : ℕ)
  | ended
deriving DecidableEq, Repr

/-- Where the closure of `stop` is: not begun, at a socket of `m_socks`, or at its end. -/
inductive CloserPlace where
  | queued
  | closing (next : ℕ)
  | ended
deriving DecidableEq, Repr

/-- Where `handleClient` is: not begun, under way, or at its end. -/
inductive HandlerPlace where
  | queued
  | handling
  | ended
deriving DecidableEq, Repr

/-- A task that the server has scheduled. Clients and sockets are given by their numbers. -/
inductive Task where
  | startAccept (sock : ℕ) (place : LoopPlace)
  | closeSocks (place : CloserPlace)
  | handleClient (client : ℕ) (place : HandlerPlace)
deriving DecidableEq, Repr

namespace Task

/-- The task has not begun. -/
def isQueued : Task → Bool
  | startAccept _ place => place = .queued
  | closeSocks place => place = .queued
  | handleClient _ place => place = .queued

/-- The task is through. -/
def isEnded : Task → Bool
  | startAccept _ place => place = .ended
  | closeSocks place => place = .ended
  | handleClient _ place => place = .ended

/-- The task is a loop in `::accept`. -/
def isWaiting : Task → Bool
  | startAccept _ place => place = .waiting
  | _ => false

/-- The task has a thread. -/
def isRunning (task : Task) : Bool := !task.isQueued && !task.isEnded

/-- The task is a loop that has not ended. -/
def isLoop : Task → Bool
  | startAccept _ place => place ≠ .ended
  | _ => false

/-- The task is a loop for the socket that has not ended. -/
def isLoopOf (sock : ℕ) : Task → Bool
  | startAccept sock' place => sock' = sock ∧ place ≠ .ended
  | _ => false

/-- The task is a loop that has passed the test of `m_isStop` and has no client yet. -/
def isPast : Task → Bool
  | startAccept _ place => place = .calling ∨ place = .waiting
  | _ => false

/-- The task is a closure of `stop` that has not ended. -/
def isCloser : Task → Bool
  | closeSocks place => place ≠ .ended
  | _ => false

/-- The client is held by the loop that has accepted it, or it is the client of a handler. -/
def isOf (client : ℕ) : Task → Bool
  | startAccept _ place => place = .holding client
  | closeSocks _ => false
  | handleClient client' _ => client' = client

end Task

/-- A server: `m_isStop`, `m_socks`, the sockets whose `m_sock` is a descriptor, the tasks in the order in
which they were scheduled, the number of clients accepted and the sockets closed. -/
structure Service where
  isStop : Bool
  socks : List ℕ
  listening : ℕ → Bool
  tasks : List Task
  accepted : ℕ
  closed : List ℕ

namespace Service

/-- A server with `n` sockets, as `bind` leaves it. -/
def bound (n : ℕ) : Service := ⟨true, List.range n, fun sock => sock < n, [], 0, []⟩

/-- The number of threads that have a task. -/
def occupied (s : Service) : ℕ := s.tasks.countP Task.isRunning

/-- A task gets on. -/
def setTask (s : Service) (k : ℕ) (task : Task) : Service := { s with tasks := s.tasks.set k task }

/-- `IOManager::schedule`, where the pipe of `tickle` has room. -/
def schedule (s : Service) (tasks : List Task) : Service := { s with tasks := s.tasks ++ tasks }

/-- `Socket::close` for a socket: a descriptor is closed once. -/
def close (s : Service) (sock : ℕ) : Service :=
  if s.listening sock then
    { s with listening := Function.update s.listening sock false, closed := s.closed ++ [sock] }
  else
    s

/-- A free thread takes the first task that is queued. -/
def begin (threads : ℕ) (s : Service) (k : ℕ) (task : Task) : Option Service :=
  if s.occupied < threads ∧ ∀ earlier ∈ s.tasks.take k, earlier.isQueued = false then
    some (s.setTask k task)
  else
    none

/-- The next step of a task, unless it is in `::accept` or through. -/
def turn (threads : ℕ) (s : Service) (k : ℕ) : Task → Option Service
  | .startAccept sock .queued => s.begin threads k (.startAccept sock .testing)
  | .startAccept sock .testing =>
      some (s.setTask k (.startAccept sock (if s.isStop then .ended else .calling)))
  | .startAccept sock .calling =>
      some (s.setTask k (.startAccept sock (if s.listening sock then .waiting else .testing)))
  | .startAccept sock (.holding client) =>
      some ((s.setTask k (.startAccept sock .testing)).schedule [.handleClient client .queued])
  | .startAccept _ .waiting | .startAccept _ .ended => none
  | .closeSocks .queued => s.begin threads k (.closeSocks (.closing 0))
  | .closeSocks (.closing next) =>
      match s.socks[next]? with
      | some sock => some ((s.close sock).setTask k (.closeSocks (.closing (next + 1))))
      | none => some ({ s with socks := [] }.setTask k (.closeSocks .ended))
  | .closeSocks .ended => none
  | .handleClient client .queued => s.begin threads k (.handleClient client .handling)
  | .handleClient client .handling => some (s.setTask k (.handleClient client .ended))
  | .handleClient _ .ended => none

/-- `start`. -/
def start (s : Service) : Service :=
  if s.isStop = false then s
  else { s with isStop := false }.schedule (s.socks.map fun sock => .startAccept sock .queued)

/-- `stop`. -/
def stop (s : Service) : Service := { s with isStop := true }.schedule [.closeSocks .queued]

/-- `::accept` returns for a loop: with a client, or with an error. -/
def accept (s : Service) (k : ℕ) (ok : Bool) : Option Service :=
  match s.tasks[k]? with
  | some (.startAccept sock .waiting) =>
      if ok then
        some ({ s with accepted := s.accepted + 1 }.setTask k (.startAccept sock (.holding s.accepted)))
      else
        some (s.setTask k (.startAccept sock .testing))
  | _ => none

/-- What can happen. -/
inductive Act where
  | start
  | stop
  | turn (k : ℕ)
  | accept (k : ℕ) (ok : Bool)
deriving DecidableEq, Repr

/-- One step. -/
def step (threads : ℕ) (s : Service) : Act → Option Service
  | .start => some s.start
  | .stop => some s.stop
  | .turn k => s.tasks[k]?.bind (s.turn threads k)
  | .accept k ok => s.accept k ok

/-- A step of the scheduler. -/
def Act.IsTurn : Act → Prop
  | .turn _ => True
  | _ => False

/-- Neither `start` nor `stop` is called. -/
def Act.IsOnward : Act → Prop
  | .turn _ | .accept _ _ => True
  | _ => False

/-- The calls are in order: a server is started again when its loops and the closure of `stop` are through,
and it is stopped when no earlier closure is under way. -/
def Orderly (s : Service) : Act → Prop
  | .start => s.isStop = false ∨ s.tasks.countP Task.isLoop = 0 ∧ s.tasks.countP Task.isCloser = 0
  | .stop => s.tasks.countP Task.isCloser = 0
  | _ => True

instance (s : Service) : ∀ a, Decidable (s.Orderly a)
  | .start => inferInstanceAs (Decidable (_ ∨ _))
  | .stop => inferInstanceAs (Decidable (_ = _))
  | .turn _ | .accept _ _ => inferInstanceAs (Decidable True)

/-! ### What a step does -/

variable {s s' : Service} {threads n k : ℕ} {task : Task}

/-- Where a task is after its turn, and what it schedules. -/
def after (s : Service) : Task → Task × List Task
  | .startAccept sock .queued => (.startAccept sock .testing, [])
  | .startAccept sock .testing => (.startAccept sock (if s.isStop then .ended else .calling), [])
  | .startAccept sock .calling => (.startAccept sock (if s.listening sock then .waiting else .testing), [])
  | .startAccept sock (.holding client) => (.startAccept sock .testing, [.handleClient client .queued])
  | .closeSocks .queued => (.closeSocks (.closing 0), [])
  | .closeSocks (.closing next) =>
      (.closeSocks (if next < s.socks.length then .closing (next + 1) else .ended), [])
  | .handleClient client .queued => (.handleClient client .handling, [])
  | .handleClient client .handling => (.handleClient client .ended, [])
  | task => (task, [])

theorem begin_eq_some_iff {task' : Task} :
  s.begin threads k task' = some s' ↔
    (s.occupied < threads ∧ ∀ earlier ∈ s.tasks.take k, earlier.isQueued = false) ∧ s.setTask k task' = s'
  := by
  rw [begin, Option.ite_none_right_eq_some, Option.some.injEq]

@[simp]
theorem close_isStop (sock : ℕ) :
  (s.close sock).isStop = s.isStop
  := by
  rw [close]
  split <;> rfl

@[simp]
theorem close_socks (sock : ℕ) :
  (s.close sock).socks = s.socks
  := by
  rw [close]
  split <;> rfl

@[simp]
theorem close_tasks (sock : ℕ) :
  (s.close sock).tasks = s.tasks
  := by
  rw [close]
  split <;> rfl

@[simp]
theorem close_accepted (sock : ℕ) :
  (s.close sock).accepted = s.accepted
  := by
  rw [close]
  split <;> rfl

/-- What a turn does to the tasks. -/
theorem turn_tasks (h : s.turn threads k task = some s') :
  s'.tasks = s.tasks.set k (s.after task).1 ++ (s.after task).2 ∧ s'.isStop = s.isStop ∧
    s'.accepted = s.accepted
  := by
  cases task with
  | startAccept sock place =>
      cases place with
      | queued =>
          obtain ⟨-, rfl⟩ := begin_eq_some_iff.mp h
          simp [setTask, after]
      | testing =>
          obtain rfl := Option.some.inj h
          simp [setTask, after]
      | calling =>
          obtain rfl := Option.some.inj h
          simp [setTask, after]
      | waiting => cases h
      | holding client =>
          obtain rfl := Option.some.inj h
          simp [setTask, schedule, after]
      | ended => cases h
  | closeSocks place =>
      cases place with
      | queued =>
          obtain ⟨-, rfl⟩ := begin_eq_some_iff.mp h
          simp [setTask, after]
      | closing next =>
          rw [turn] at h
          split at h
          · rename_i sock hsock
            obtain rfl := Option.some.inj h
            have hnext := (List.getElem?_eq_some_iff.mp hsock).1
            simp [setTask, after, hnext]
          · rename_i hnone
            obtain rfl := Option.some.inj h
            have hnext := List.getElem?_eq_none_iff.mp hnone
            simp [setTask, after, Nat.not_lt.mpr hnext]
      | ended => cases h
  | handleClient client place =>
      cases place with
      | queued =>
          obtain ⟨-, rfl⟩ := begin_eq_some_iff.mp h
          simp [setTask, after]
      | handling =>
          obtain rfl := Option.some.inj h
          simp [setTask, after]
      | ended => cases h

/-- A turn of anything but the closure of `stop` at a socket leaves the sockets as they are. -/
theorem turn_socks (h : s.turn threads k task = some s') (htask : ∀ next, task ≠ .closeSocks (.closing next)) :
  s'.socks = s.socks ∧ s'.listening = s.listening ∧ s'.closed = s.closed
  := by
  cases task with
  | startAccept sock place =>
      cases place with
      | queued =>
          obtain ⟨-, rfl⟩ := begin_eq_some_iff.mp h
          simp [setTask]
      | testing | calling | holding client =>
          obtain rfl := Option.some.inj h
          simp [setTask, schedule]
      | waiting | ended => cases h
  | closeSocks place =>
      cases place with
      | queued =>
          obtain ⟨-, rfl⟩ := begin_eq_some_iff.mp h
          simp [setTask]
      | closing next => exact absurd rfl (htask next)
      | ended => cases h
  | handleClient client place =>
      cases place with
      | queued =>
          obtain ⟨-, rfl⟩ := begin_eq_some_iff.mp h
          simp [setTask]
      | handling =>
          obtain rfl := Option.some.inj h
          simp [setTask]
      | ended => cases h

/-- The tasks with a property, before and after a turn. -/
theorem countP_turn (p : Task → Bool) (hk : s.tasks[k]? = some task) (h : s.turn threads k task = some s') :
  s'.tasks.countP p + (if p task then 1 else 0)
    = s.tasks.countP p + ((if p (s.after task).1 then 1 else 0) + (s.after task).2.countP p)
  := by
  have hset := countP_set (q := p) (b := (s.after task).1) hk
  rw [(turn_tasks h).1, List.countP_append]
  omega

/-- Where a loop is after `::accept` has returned. -/
theorem accept_cases {ok : Bool} (h : s.accept k ok = some s') :
  ∃ sock, s.tasks[k]? = some (.startAccept sock .waiting) ∧
    s' = if ok then
        { s with accepted := s.accepted + 1 }.setTask k (.startAccept sock (.holding s.accepted))
      else s.setTask k (.startAccept sock .testing)
  := by
  rw [accept] at h
  split at h
  · rename_i sock hk
    refine ⟨sock, hk, ?_⟩
    cases ok <;> simpa using h.symm
  · cases h

/-- The tasks with a property, before and after `::accept` has returned. -/
theorem countP_accept (p : Task → Bool) {ok : Bool} {sock : ℕ}
    (hk : s.tasks[k]? = some (.startAccept sock .waiting)) (h : s.accept k ok = some s') :
  s'.tasks.countP p + (if p (.startAccept sock .waiting) then 1 else 0)
    = s.tasks.countP p
      + (if p (.startAccept sock (if ok then .holding s.accepted else .testing)) then 1 else 0)
  := by
  obtain ⟨sock', hk', rfl⟩ := accept_cases h
  obtain ⟨rfl, -⟩ := Task.startAccept.inj (Option.some.inj (hk'.symm.trans hk))
  cases ok
  · apply countP_set hk
  · apply countP_set hk

/-! ### The invariant -/

/-- The sockets are closed in order, up to the one at which the closure of `stop` is. -/
structure Sockets (n : ℕ) (s : Service) : Prop where
  closing : ∀ next, Task.closeSocks (.closing next) ∈ s.tasks →
    (s.socks = List.range n ∧ s.closed = List.range next ∧ next ≤ n) ∨
      (s.socks = [] ∧ s.closed = List.range n ∧ next = 0)
  resting : (∀ next, Task.closeSocks (.closing next) ∉ s.tasks) →
    (s.socks = List.range n ∧ s.closed = []) ∨ (s.socks = [] ∧ s.closed = List.range n)
  listening : ∀ sock, s.listening sock = decide (sock < n ∧ sock ∉ s.closed)

/-- Every client is in one place, every socket has at most one loop, and there is at most one closure of
`stop`, and only while the server is stopped. -/
structure Inv (n : ℕ) (s : Service) : Prop where
  clients : ∀ client, s.tasks.countP (Task.isOf client) = if client < s.accepted then 1 else 0
  loopOf : ∀ sock, s.tasks.countP (Task.isLoopOf sock) ≤ if sock < n then 1 else 0
  loops : s.tasks.countP Task.isLoop ≤ n
  closers : s.tasks.countP Task.isCloser ≤ if s.isStop then 1 else 0
  sockets : Sockets n s
  started : s.isStop = false → s.closed = [] ∨ s.tasks.countP Task.isLoop = 0

theorem bound_inv (n : ℕ) :
  Inv n (bound n)
  where
  clients := by simp [bound]
  loopOf := by simp [bound]
  loops := by simp [bound]
  closers := by simp [bound]
  sockets := ⟨by simp [bound], by simp [bound], by simp [bound]⟩
  started := by simp [bound]

/-- A turn keeps the number of places of a client. -/
theorem after_isOf (client : ℕ) (task : Task) :
  (if (s.after task).1.isOf client then 1 else 0) + (s.after task).2.countP (Task.isOf client)
    = if task.isOf client then 1 else 0
  := by
  cases task with
  | startAccept sock place => cases place <;> simp [after, Task.isOf] <;> split <;> simp
  | closeSocks place => cases place <;> simp [after, Task.isOf]
  | handleClient client' place => cases place <;> simp [after, Task.isOf]

theorem after_isLoopOf (sock : ℕ) (task : Task) :
  (if (s.after task).1.isLoopOf sock then 1 else 0) + (s.after task).2.countP (Task.isLoopOf sock)
    ≤ if task.isLoopOf sock then 1 else 0
  := by
  cases task with
  | startAccept sock' place => cases place <;> simp [after, Task.isLoopOf] <;> split <;> simp_all
  | closeSocks place => cases place <;> simp [after, Task.isLoopOf]
  | handleClient client place => cases place <;> simp [after, Task.isLoopOf]

theorem after_isLoop (task : Task) :
  (if (s.after task).1.isLoop then 1 else 0) + (s.after task).2.countP Task.isLoop
    ≤ if task.isLoop then 1 else 0
  := by
  cases task with
  | startAccept sock place => cases place <;> simp [after, Task.isLoop] <;> split <;> simp
  | closeSocks place => cases place <;> simp [after, Task.isLoop]
  | handleClient client place => cases place <;> simp [after, Task.isLoop]

theorem after_isCloser (task : Task) :
  (if (s.after task).1.isCloser then 1 else 0) + (s.after task).2.countP Task.isCloser
    ≤ if task.isCloser then 1 else 0
  := by
  cases task with
  | startAccept sock place => cases place <;> simp [after, Task.isCloser]
  | closeSocks place => cases place <;> simp [after, Task.isCloser]; split <;> simp
  | handleClient client place => cases place <;> simp [after, Task.isCloser]

theorem countP_turn_le (p : Task → Bool)
    (hp : (if p (s.after task).1 then 1 else 0) + (s.after task).2.countP p ≤ if p task then 1 else 0)
    (hk : s.tasks[k]? = some task) (h : s.turn threads k task = some s') :
  s'.tasks.countP p ≤ s.tasks.countP p
  := by
  have hcount := countP_turn p hk h
  omega

/-- A turn of anything but the closure of `stop` leaves the closures at the sockets at which they are. -/
theorem mem_closing_turn (hk : s.tasks[k]? = some task) (h : s.turn threads k task = some s')
    (htask : task.isCloser = false) (next : ℕ) :
  Task.closeSocks (.closing next) ∈ s'.tasks ↔ Task.closeSocks (.closing next) ∈ s.tasks
  := by
  have hcount := countP_turn (· == .closeSocks (.closing next)) hk h
  have hnone : ∀ t : Task, t.isCloser = false → (t == .closeSocks (.closing next)) = false := by
    intro t ht
    rw [beq_eq_false_iff_ne]
    rintro rfl
    simp [Task.isCloser] at ht
  have hafter := after_isCloser (s := s) task
  rw [htask, if_neg Bool.false_ne_true, Nat.le_zero, Nat.add_eq_zero_iff, List.countP_eq_zero] at hafter
  have hfirst : ((s.after task).1 == .closeSocks (.closing next)) = false := by
    apply hnone
    by_contra hcloser
    simp [hcloser] at hafter
  have hmore : (s.after task).2.countP (· == .closeSocks (.closing next)) = 0 := by
    rw [List.countP_eq_zero]
    intro t ht
    simp [hnone t (by simpa using hafter.2 t ht)]
  rw [hnone task htask, hfirst, hmore, if_neg Bool.false_ne_true, add_zero, add_zero, add_zero] at hcount
  rw [← List.count_pos_iff, ← List.count_pos_iff, List.count_eq_countP, List.count_eq_countP, hcount]

/-- The sockets and the place of the closure of `stop` are as they were. -/
theorem Sockets.congr (hs : Sockets n s) (hsocks : s'.socks = s.socks) (hlistening : s'.listening = s.listening)
    (hclosed : s'.closed = s.closed)
    (hmem : ∀ next, Task.closeSocks (.closing next) ∈ s'.tasks ↔ Task.closeSocks (.closing next) ∈ s.tasks) :
  Sockets n s'
  := by
  constructor
  · intro next
    rw [hmem, hsocks, hclosed]
    apply hs.closing
  · simp only [hmem]
    rw [hsocks, hclosed]
    apply hs.resting
  · rw [hlistening, hclosed]
    apply hs.listening

/-- The closure of `stop` is the only one. -/
theorem eq_of_isCloser (hone : s.tasks.countP Task.isCloser ≤ 1) {place place' : CloserPlace}
    (h : Task.closeSocks place ∈ s.tasks) (hplace : place ≠ .ended) (h' : Task.closeSocks place' ∈ s.tasks)
    (hplace' : place' ≠ .ended) :
  place = place'
  := by
  have heq := eq_of_countP_le_one hone h h' (by simpa [Task.isCloser]) (by simpa [Task.isCloser])
  apply Task.closeSocks.inj heq

/-- Closing the socket at which the closure is. -/
theorem close_eq {next : ℕ} (hlistening : ∀ sock, s.listening sock = decide (sock < n ∧ sock ∉ s.closed))
    (hclosed : s.closed = List.range next) (hnext : next < n) :
  (s.close next).closed = List.range (next + 1) ∧
    ∀ sock, (s.close next).listening sock = decide (sock < n ∧ sock ∉ (s.close next).closed)
  := by
  have hopen : s.listening next = true := by simp [hlistening, hclosed, hnext]
  rw [close, if_pos hopen]
  refine ⟨by rw [hclosed, List.range_succ], ?_⟩
  intro sock
  dsimp only
  rw [Function.update_apply]
  by_cases hsock : sock = next <;> simp [*]

/-- The closure of `stop` closes a socket. -/
theorem Sockets.turn_closing {next : ℕ} (hs : Sockets n s) (hone : s.tasks.countP Task.isCloser ≤ 1)
    (hk : s.tasks[k]? = some (.closeSocks (.closing next))) (hnext : next < s.socks.length)
    (h : s.turn threads k (.closeSocks (.closing next)) = some s') :
  Sockets n s'
  := by
  have hone' : s'.tasks.countP Task.isCloser ≤ 1 :=
    (countP_turn_le _ (after_isCloser _) hk h).trans hone
  obtain ⟨hsocks, hclosed, -⟩ | ⟨hsocks, -⟩ := hs.closing next (List.mem_of_getElem? hk)
  · rw [hsocks, List.length_range] at hnext
    have hsock : s.socks[next]? = some next := by simp [hsocks, hnext]
    obtain ⟨hclosed', hlistening'⟩ := close_eq hs.listening hclosed hnext
    rw [Service.turn, hsock] at h
    obtain rfl := Option.some.inj h
    have hmem : Task.closeSocks (.closing (next + 1)) ∈
        ((s.close next).setTask k (.closeSocks (.closing (next + 1)))).tasks := by
      apply List.mem_set
      simpa using (List.getElem?_eq_some_iff.mp hk).1
    refine ⟨?_, ?_, hlistening'⟩
    · intro m hm
      obtain rfl := CloserPlace.closing.inj (eq_of_isCloser hone' hmem (by simp) hm (by simp))
      exact Or.inl ⟨by simpa [setTask] using hsocks, by simpa [setTask] using hclosed', hnext⟩
    · intro hnone
      exact absurd hmem (hnone _)
  · simp [hsocks] at hnext

/-- The closure of `stop` clears `m_socks`. -/
theorem Sockets.turn_cleared {next : ℕ} (hs : Sockets n s) (hone : s.tasks.countP Task.isCloser ≤ 1)
    (hk : s.tasks[k]? = some (.closeSocks (.closing next))) (hnext : s.socks.length ≤ next)
    (h : s.turn threads k (.closeSocks (.closing next)) = some s') :
  Sockets n s' ∧ s'.socks = []
  := by
  have hclosed : s.closed = List.range n := by
    obtain ⟨hsocks, hclosed, hle⟩ | ⟨-, hclosed, -⟩ := hs.closing next (List.mem_of_getElem? hk)
    · rw [hsocks, List.length_range] at hnext
      obtain rfl : next = n := by omega
      apply hclosed
    · apply hclosed
  have hnone : s'.tasks.countP Task.isCloser = 0 := by
    have hcount := countP_turn Task.isCloser hk h
    simp [after, Nat.not_lt.mpr hnext, Task.isCloser] at hcount
    omega
  have hsock : s.socks[next]? = none := by simpa using hnext
  rw [Service.turn, hsock] at h
  obtain rfl := Option.some.inj h
  refine ⟨⟨?_, fun _ => Or.inr ⟨rfl, hclosed⟩, hs.listening⟩, rfl⟩
  intro m hm
  have hcloser := List.countP_eq_zero.mp hnone _ hm
  simp [Task.isCloser] at hcloser

/-- A turn keeps the order in which the sockets are closed. -/
theorem Sockets.turn (hs : Sockets n s) (hone : s.tasks.countP Task.isCloser ≤ 1)
    (hk : s.tasks[k]? = some task) (h : s.turn threads k task = some s') :
  Sockets n s'
  := by
  by_cases hcloser : task.isCloser = true
  · cases task with
    | startAccept sock place => cases hcloser
    | handleClient client place => cases hcloser
    | closeSocks place =>
        cases place with
        | queued =>
            obtain ⟨hsocks, hlistening, hclosed⟩ := turn_socks h (by simp)
            have hmem : Task.closeSocks (.closing 0) ∈ s'.tasks := by
              rw [(turn_tasks h).1]
              apply List.mem_append_left
              apply List.mem_set (List.getElem?_eq_some_iff.mp hk).1
            have hone' := (countP_turn_le _ (after_isCloser _) hk h).trans hone
            refine ⟨?_, fun hnone => absurd hmem (hnone _), by rw [hlistening, hclosed]; apply hs.listening⟩
            intro m hm
            obtain rfl := CloserPlace.closing.inj (eq_of_isCloser hone' hmem (by simp) hm (by simp))
            rw [hsocks, hclosed]
            obtain ⟨hsocks, hclosed⟩ | ⟨hsocks, hclosed⟩ := hs.resting fun next hnext => by
              cases eq_of_isCloser hone (List.mem_of_getElem? hk) (by simp) hnext (by simp)
            · exact Or.inl ⟨hsocks, hclosed, Nat.zero_le n⟩
            · exact Or.inr ⟨hsocks, hclosed, rfl⟩
        | closing next =>
            by_cases hnext : next < s.socks.length
            · apply hs.turn_closing hone hk hnext h
            · apply (hs.turn_cleared hone hk (Nat.not_lt.mp hnext) h).1
        | ended => cases h
  · rw [Bool.not_eq_true] at hcloser
    have htask : ∀ next, task ≠ .closeSocks (.closing next) := by
      rintro next rfl
      cases hcloser
    obtain ⟨hsocks, hlistening, hclosed⟩ := turn_socks h htask
    apply hs.congr hsocks hlistening hclosed (mem_closing_turn hk h hcloser)

/-- A turn keeps the invariant. -/
theorem Inv.turn (hs : Inv n s) (hk : s.tasks[k]? = some task) (h : s.turn threads k task = some s') :
  Inv n s'
  := by
  obtain ⟨-, hstop, haccepted⟩ := turn_tasks h
  have hone : s.tasks.countP Task.isCloser ≤ 1 := hs.closers.trans (by split <;> simp)
  have hsockets := hs.sockets.turn hone hk h
  constructor
  · intro client
    have hcount := countP_turn (Task.isOf client) hk h
    have hafter := after_isOf (s := s) client task
    have hclients := hs.clients client
    rw [haccepted]
    omega
  · intro sock
    apply (countP_turn_le _ (after_isLoopOf sock task) hk h).trans (hs.loopOf sock)
  · apply (countP_turn_le _ (after_isLoop task) hk h).trans hs.loops
  · rw [hstop]
    apply (countP_turn_le _ (after_isCloser task) hk h).trans hs.closers
  · apply hsockets
  · rw [hstop]
    intro hstarted
    have hnone : s.tasks.countP Task.isCloser = 0 := by
      have hclosers := hs.closers
      rw [hstarted] at hclosers
      simpa using hclosers
    have htask : ∀ next, task ≠ .closeSocks (.closing next) := by
      rintro next rfl
      have hcloser := List.countP_eq_zero.mp hnone _ (List.mem_of_getElem? hk)
      simp [Task.isCloser] at hcloser
    rw [(turn_socks h htask).2.2]
    apply (hs.started hstarted).imp_right
    intro hloops
    have hle := countP_turn_le Task.isLoop (after_isLoop task) hk h
    omega

/-- A return of `::accept` keeps the invariant. -/
theorem Inv.accept {ok : Bool} (hs : Inv n s) (h : s.accept k ok = some s') :
  Inv n s'
  := by
  obtain ⟨sock, hk, hs'⟩ := accept_cases h
  have hcount := fun p => countP_accept p hk h
  have hother : s'.isStop = s.isStop ∧ s'.socks = s.socks ∧ s'.listening = s.listening ∧
      s'.closed = s.closed ∧ s'.accepted = if ok then s.accepted + 1 else s.accepted := by
    rw [hs']
    cases ok <;> simp [setTask]
  obtain ⟨hstop, hsocks, hlistening, hclosed, haccepted⟩ := hother
  have hloops : s'.tasks.countP Task.isLoop = s.tasks.countP Task.isLoop := by
    have hloops := hcount Task.isLoop
    cases ok <;> simpa [Task.isLoop] using hloops
  constructor
  · intro client
    have hplaces := hcount (Task.isOf client)
    have hclients := hs.clients client
    rw [haccepted]
    cases ok
    · simp [Task.isOf] at hplaces
      simp [hplaces, hclients]
    · simp [Task.isOf] at hplaces
      rw [if_pos rfl, hplaces, hclients]
      split_ifs <;> omega
  · intro sock'
    have hloopOf := hcount (Task.isLoopOf sock')
    have hle := hs.loopOf sock'
    cases ok <;> simp [Task.isLoopOf] at hloopOf <;> omega
  · rw [hloops]
    apply hs.loops
  · have hclosers := hcount Task.isCloser
    rw [hstop]
    simp only [Task.isCloser, Bool.false_eq_true, if_false, add_zero] at hclosers
    rw [hclosers]
    apply hs.closers
  · apply hs.sockets.congr hsocks hlistening hclosed
    intro next
    have hclosing := hcount (· == .closeSocks (.closing next))
    simp at hclosing
    rw [← List.count_pos_iff, ← List.count_pos_iff, List.count_eq_countP, List.count_eq_countP, hclosing]
  · rw [hstop, hclosed, hloops]
    apply hs.started

/-- The tasks of new loops. -/
theorem countP_startAccept (p : Task → Bool) (socks : List ℕ) (tasks : List Task) :
  (tasks ++ socks.map fun sock => Task.startAccept sock .queued).countP p
    = tasks.countP p + socks.countP fun sock => p (.startAccept sock .queued)
  := by
  rw [List.countP_append, List.countP_map]
  rfl

/-- Starting a server whose loops and closures have ended keeps the invariant. -/
theorem Inv.start (hs : Inv n s) (hok : s.Orderly .start) :
  Inv n s.start
  := by
  obtain hstarted | ⟨hloops, hclosers⟩ := hok
  · rw [Service.start, if_pos hstarted]
    apply hs
  · by_cases hstarted : s.isStop = false
    · rw [Service.start, if_pos hstarted]
      apply hs
    · have hstart : s.start = { s with isStop := false }.schedule (s.socks.map fun sock => .startAccept sock .queued) := by
        rw [Service.start, if_neg hstarted]
      have hcount : ∀ p : Task → Bool, s.start.tasks.countP p
          = s.tasks.countP p + s.socks.countP fun sock => p (.startAccept sock .queued) := by
        intro p
        rw [hstart]
        apply countP_startAccept
      have hresting : (s.socks = List.range n ∧ s.closed = []) ∨ (s.socks = [] ∧ s.closed = List.range n) := by
        apply hs.sockets.resting
        intro next hnext
        have hcloser := List.countP_eq_zero.mp hclosers _ hnext
        simp [Task.isCloser] at hcloser
      have hsocks : s.socks = List.range n ∨ s.socks = [] := hresting.imp And.left And.left
      constructor
      · intro client
        rw [hcount, hs.clients]
        simp [Task.isOf, hstart, schedule]
      · intro sock
        rw [hcount]
        have hnone : s.tasks.countP (Task.isLoopOf sock) = 0 := by
          rw [← Nat.le_zero, ← hloops]
          apply List.countP_mono_left
          intro task _
          cases task <;> simp [Task.isLoopOf, Task.isLoop]
        have hloop : (fun sock' => Task.isLoopOf sock (.startAccept sock' .queued)) = (· == sock) := by
          funext sock'
          simp [Task.isLoopOf, Bool.beq_eq_decide_eq]
        rw [hnone, hloop, ← List.count_eq_countP]
        obtain hsocks | hsocks := hsocks <;> simp [hsocks, List.nodup_range.count]
      · rw [hcount, hloops]
        obtain hsocks | hsocks := hsocks <;> simp [hsocks, Task.isLoop]
      · rw [hcount, hclosers]
        simp [Task.isCloser]
      · apply hs.sockets.congr (by rw [hstart]; rfl) (by rw [hstart]; rfl) (by rw [hstart]; rfl)
        intro next
        rw [hstart]
        simp [schedule]
      · intro _
        rw [hcount, hloops, hstart]
        obtain ⟨-, hclosed⟩ | ⟨hsocks, -⟩ := hresting
        · exact Or.inl hclosed
        · exact Or.inr (by simp [hsocks])

/-- Stopping a server without an earlier closure under way keeps the invariant. -/
theorem Inv.stop (hs : Inv n s) (hok : s.Orderly .stop) :
  Inv n s.stop
  := by
  have hcount : ∀ p : Task → Bool, s.stop.tasks.countP p
      = s.tasks.countP p + if p (.closeSocks .queued) then 1 else 0 := by
    intro p
    rw [Service.stop, schedule, List.countP_append, List.countP_singleton]
  constructor
  · intro client
    rw [hcount, hs.clients]
    rfl
  · intro sock
    rw [hcount]
    apply hs.loopOf
  · rw [hcount]
    apply hs.loops
  · have hclosers : s.tasks.countP Task.isCloser = 0 := hok
    rw [hcount, hclosers]
    simp [Task.isCloser, Service.stop, schedule]
  · have hmem : ∀ next, Task.closeSocks (.closing next) ∈ s.stop.tasks ↔
        Task.closeSocks (.closing next) ∈ s.tasks := by
      simp [Service.stop, schedule]
    exact hs.sockets.congr rfl rfl rfl hmem
  · intro hstarted
    cases hstarted

theorem Inv.step {a : Act} (hs : Inv n s) (hok : s.Orderly a) (h : s.step threads a = some s') :
  Inv n s'
  := by
  cases a with
  | start =>
      obtain rfl := Option.some.inj h
      apply hs.start hok
  | stop =>
      obtain rfl := Option.some.inj h
      apply hs.stop hok
  | turn k =>
      obtain ⟨task, hk, hturn⟩ := Option.bind_eq_some_iff.mp h
      apply hs.turn hk hturn
  | accept k ok => apply hs.accept h

theorem run_inv {as : List Act} (hok : Guarded (Service.step threads) Orderly (bound n) as)
    (h : run (Service.step threads) (bound n) as = some s) :
  Inv n s
  := run_guarded_invariant (fun _ _ _ hs hok hstep => hs.step hok hstep) (bound_inv n) hok h

theorem Sockets.closed_eq (hs : Sockets n s) :
  ∃ m ≤ n, s.closed = List.range m
  := by
  by_cases hclosing : ∃ next, Task.closeSocks (.closing next) ∈ s.tasks
  · obtain ⟨next, hnext⟩ := hclosing
    obtain ⟨-, hclosed, hle⟩ | ⟨-, hclosed, -⟩ := hs.closing next hnext
    · exact ⟨next, hle, hclosed⟩
    · exact ⟨n, le_rfl, hclosed⟩
  · obtain ⟨-, hclosed⟩ | ⟨-, hclosed⟩ := hs.resting (not_exists.mp hclosing)
    · exact ⟨0, Nat.zero_le n, hclosed⟩
    · exact ⟨n, le_rfl, hclosed⟩

/-! ### Clients -/

/-- In every run in which `start` and `stop` are called in order, every accepted client is held by one loop
or has one handler, no socket has two loops, and none is closed twice. -/
theorem run_clients {as : List Act} (hok : Guarded (Service.step threads) Orderly (bound n) as)
    (h : run (Service.step threads) (bound n) as = some s) :
  (∀ client, s.tasks.countP (Task.isOf client) = if client < s.accepted then 1 else 0) ∧
    (∀ sock, s.tasks.countP (Task.isLoopOf sock) ≤ 1) ∧ s.closed.Nodup
  := by
  have hs := run_inv hok h
  obtain ⟨m, -, hclosed⟩ := hs.sockets.closed_eq
  refine ⟨hs.clients, fun sock => (hs.loopOf sock).trans (by split <;> simp), ?_⟩
  rw [hclosed]
  apply List.nodup_range

/-- Two loops begin, the first one accepts a client and schedules its handler, and the second one is in front
of `::accept`. -/
def sample : List Act :=
  [.start, .turn 0, .turn 0, .turn 0, .turn 1, .turn 1, .accept 0 true, .turn 0]

theorem run_clients_sample :
  ∃ s, run (Service.step 3) (bound 2) sample = some s ∧
    (∀ client, s.tasks.countP (Task.isOf client) = if client < s.accepted then 1 else 0) ∧
    (∀ sock, s.tasks.countP (Task.isLoopOf sock) ≤ 1) ∧ s.closed.Nodup
  := by
  have hsome : (run (Service.step 3) (bound 2) sample).isSome = true := by decide
  obtain ⟨s, hs⟩ := Option.isSome_iff_exists.mp hsome
  exact ⟨s, hs, run_clients (by decide) hs⟩

/-! ### After `stop` -/

/-- A turn while the server is stopped passes no test of `m_isStop`. -/
theorem after_isPast (hstop : s.isStop = true) (task : Task) :
  (if (s.after task).1.isPast then 1 else 0) + (s.after task).2.countP Task.isPast
    ≤ if task.isPast then 1 else 0
  := by
  cases task with
  | startAccept sock place => cases place <;> simp [after, Task.isPast, hstop]; split <;> simp [*]
  | closeSocks place => cases place <;> simp [after, Task.isPast]
  | handleClient client place => cases place <;> simp [after, Task.isPast]

theorem step_isPast {a : Act} (hstop : s.isStop = true) (ha : a ≠ .start) (h : s.step threads a = some s') :
  s'.isStop = true ∧
    s'.accepted + s'.tasks.countP Task.isPast ≤ s.accepted + s.tasks.countP Task.isPast
  := by
  cases a with
  | start => exact absurd rfl ha
  | stop =>
      obtain rfl := Option.some.inj h
      simp [Service.stop, schedule, Task.isPast]
  | turn k =>
      obtain ⟨task, hk, hturn⟩ := Option.bind_eq_some_iff.mp h
      obtain ⟨-, hstop', haccepted⟩ := turn_tasks hturn
      have hle := countP_turn_le Task.isPast (after_isPast hstop task) hk hturn
      refine ⟨by rw [hstop', hstop], ?_⟩
      omega
  | accept k ok =>
      obtain ⟨sock, hk, hs'⟩ := accept_cases h
      have hcount := countP_accept Task.isPast hk h
      cases ok <;> simp [Task.isPast] at hcount <;> simp [hs', setTask, hstop] at hcount ⊢ <;> omega

/-- After `stop`, as long as the server is not started again, each loop accepts at most the client for
which it had passed the test of `m_isStop`, and no more than `n` loops had. -/
theorem run_accepted_le {as as' : List Act} (hok : Guarded (Service.step threads) Orderly (bound n) as)
    (h : run (Service.step threads) (bound n) as = some s) (hstop : s.isStop = true)
    (hstart : .start ∉ as') (h' : run (Service.step threads) s as' = some s') :
  s'.accepted ≤ s.accepted + s.tasks.countP Task.isPast ∧ s.tasks.countP Task.isPast ≤ n
  := by
  have hkept : s'.isStop = true ∧
      s'.accepted + s'.tasks.countP Task.isPast ≤ s.accepted + s.tasks.countP Task.isPast := by
    let Kept (u : Service) : Prop := u.isStop = true ∧
      u.accepted + u.tasks.countP Task.isPast ≤ s.accepted + s.tasks.countP Task.isPast
    have hsteps : ∀ u a u', Kept u → a ≠ .start → Service.step threads u a = some u' → Kept u' := by
      rintro u a u' ⟨hu, hle⟩ ha hstep
      obtain ⟨hu', hle'⟩ := step_isPast hu ha hstep
      exact ⟨hu', hle'.trans hle⟩
    have hkept : Kept s := ⟨hstop, le_rfl⟩
    apply run_guarded_invariant hsteps hkept (guarded_of_forall fun a ha => ne_of_mem_of_not_mem ha hstart) h'
  refine ⟨by omega, ?_⟩
  apply le_trans _ (run_inv hok h).loops
  apply List.countP_mono_left
  intro task _
  cases task with
  | startAccept sock place => cases place <;> simp [Task.isPast, Task.isLoop]
  | closeSocks place => simp [Task.isPast]
  | handleClient client place => simp [Task.isPast]

theorem run_accepted_le_sample :
  ∃ s s', run (Service.step 3) (bound 2) (sample ++ [.stop]) = some s ∧
    run (Service.step 3) s [.turn 1, .accept 1 true] = some s' ∧
    s'.accepted ≤ s.accepted + s.tasks.countP Task.isPast ∧ s.tasks.countP Task.isPast ≤ 2
  := by
  have hstop : ((run (Service.step 3) (bound 2) (sample ++ [.stop])).any fun s => s.isStop) = true := by decide
  obtain ⟨s, hs, hstop⟩ := (Option.any_eq_true _ _).mp hstop
  have hsome : ((run (Service.step 3) (bound 2) (sample ++ [.stop])).bind fun s =>
      run (Service.step 3) s [.turn 1, .accept 1 true]).isSome = true := by decide
  rw [hs, Option.bind_some] at hsome
  obtain ⟨s', hs'⟩ := Option.isSome_iff_exists.mp hsome
  exact ⟨s, s', hs, hs', run_accepted_le (by decide) hs hstop (by decide) hs'⟩

end Service

end TcpServer

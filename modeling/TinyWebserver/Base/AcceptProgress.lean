import TinyWebserver.Base.AcceptLoops
import TinyWebserver.Lib.Progress

/-!
# What the accept loops wait for

The tasks of a server get on as long as one of the threads is not in `::accept`. So a server with `n` sockets
gets its clients handled whatever it waits for exactly if there are more than `n` threads, `run_handled_iff`.
After `stop`, if every pending `::accept` returns, all tasks end, with all sockets closed, `run_winds_down`.
-/

namespace TcpServer

open Transition Counting

namespace Service

variable {s s' : Service} {threads n k : ℕ} {task : Task}

/-! ### Getting on -/

/-- How far a loop is from its end, or from `::accept` while the server is not stopped. -/
def loopRank (isStop : Bool) : LoopPlace → ℕ
  | .queued => if isStop then 2 else 5
  | .testing => if isStop then 1 else 4
  | .calling => if isStop then 6 else 3
  | .waiting => if isStop then 5 else 0
  | .holding _ => if isStop then 4 else 7
  | .ended => 0

/-- How far a task is from its end. -/
def taskRank (s : Service) : Task → ℕ
  | .startAccept _ place => loopRank s.isStop place
  | .closeSocks .queued => s.socks.length + 2
  | .closeSocks (.closing next) => s.socks.length - next + 1
  | .closeSocks .ended => 0
  | .handleClient _ .queued => 2
  | .handleClient _ .handling => 1
  | .handleClient _ .ended => 0

/-- How far all tasks are from their ends. -/
def rank (s : Service) : ℕ := (s.tasks.map s.taskRank).sum

/-- No turn makes `m_socks` longer. -/
theorem turn_socks_length (h : s.turn threads k task = some s') :
  s'.socks.length ≤ s.socks.length
  := by
  by_cases htask : ∃ next, task = .closeSocks (.closing next)
  · obtain ⟨next, rfl⟩ := htask
    rw [turn] at h
    split at h
    · obtain rfl := Option.some.inj h
      simp [setTask]
    · obtain rfl := Option.some.inj h
      simp [setTask]
  · rw [(turn_socks h (not_exists.mp htask)).1]

theorem taskRank_le (hstop : s'.isStop = s.isStop) (hsocks : s'.socks.length ≤ s.socks.length) (t : Task) :
  s'.taskRank t ≤ s.taskRank t
  := by
  cases t with
  | startAccept sock place => simp [taskRank, hstop]
  | closeSocks place => cases place <;> simp only [taskRank] <;> omega
  | handleClient client place => cases place <;> simp [taskRank]

/-- A turn of a loop in front of `::accept` gets on if its socket has a descriptor or the server is
stopped. -/
theorem after_rank_lt
    (hcalling : ∀ sock, task = .startAccept sock .calling → s.isStop = true ∨ s.listening sock = true)
    (h : s.turn threads k task = some s') :
  s.taskRank (s.after task).1 + ((s.after task).2.map s.taskRank).sum < s.taskRank task
  := by
  cases task with
  | startAccept sock place =>
      cases place with
      | queued => simp [after, taskRank, loopRank]; split <;> simp
      | testing => cases hstop : s.isStop <;> simp [after, taskRank, loopRank, hstop]
      | calling =>
          have hcalling := hcalling sock rfl
          cases hstop : s.isStop <;> cases hlistening : s.listening sock <;>
            simp [after, taskRank, loopRank, hstop, hlistening] at hcalling ⊢
      | holding client => cases hstop : s.isStop <;> simp [after, taskRank, loopRank, hstop]
      | waiting | ended => cases h
  | closeSocks place =>
      cases place with
      | queued => simp [after, taskRank]
      | closing next =>
          simp only [after, List.map_nil, List.sum_nil]
          split <;> simp only [taskRank] <;> omega
      | ended => cases h
  | handleClient client place =>
      cases place with
      | queued | handling => simp [after, taskRank]
      | ended => cases h

theorem turn_rank_lt
    (hcalling : ∀ sock, task = .startAccept sock .calling → s.isStop = true ∨ s.listening sock = true)
    (hk : s.tasks[k]? = some task) (h : s.turn threads k task = some s') :
  s'.rank < s.rank
  := by
  obtain ⟨htasks, hstop, -⟩ := turn_tasks h
  have hle : s'.rank ≤ (s'.tasks.map s.taskRank).sum :=
    List.sum_le_sum fun t _ => taskRank_le hstop (turn_socks_length h) t
  have hset := sum_map_set s.taskRank (b := (s.after task).1) hk
  have hlt := after_rank_lt hcalling h
  rw [htasks, List.map_append, List.sum_append] at hle
  change s'.rank < (s.tasks.map s.taskRank).sum
  omega

/-- A return of `::accept` to a stopped server gets on. -/
theorem accept_rank_lt {ok : Bool} (hstop : s.isStop = true) (h : s.accept k ok = some s') :
  s'.rank < s.rank
  := by
  obtain ⟨sock, hk, rfl⟩ := accept_cases h
  cases ok with
  | false =>
      have hset := sum_map_set s.taskRank (b := .startAccept sock .testing) hk
      simp only [taskRank, loopRank, hstop, if_true] at hset
      change ((s.tasks.set k _).map s.taskRank).sum < (s.tasks.map s.taskRank).sum
      omega
  | true =>
      have hset := sum_map_set s.taskRank (b := .startAccept sock (.holding s.accepted)) hk
      simp only [taskRank, loopRank, hstop, if_true] at hset
      change ((s.tasks.set k _).map s.taskRank).sum < (s.tasks.map s.taskRank).sum
      omega

/-- A task that is under way and not in `::accept` can get on. -/
theorem exists_turn_working (k : ℕ) (hqueued : task.isQueued = false) (hended : task.isEnded = false)
    (hwaiting : task.isWaiting = false) :
  ∃ s', s.turn threads k task = some s'
  := by
  cases task with
  | startAccept sock place =>
      cases place with
      | testing | calling | holding client => exact ⟨_, rfl⟩
      | queued | waiting | ended => simp [Task.isQueued, Task.isEnded, Task.isWaiting] at *
  | closeSocks place =>
      cases place with
      | closing next =>
          rw [turn]
          split <;> exact ⟨_, rfl⟩
      | queued | ended => simp [Task.isQueued, Task.isEnded] at *
  | handleClient client place =>
      cases place with
      | handling => exact ⟨_, rfl⟩
      | queued | ended => simp [Task.isQueued, Task.isEnded] at *

/-- The first queued task can begin if there is a free thread. -/
theorem exists_turn_queued (hqueued : task.isQueued = true) (hfree : s.occupied < threads)
    (hfirst : ∀ earlier ∈ s.tasks.take k, earlier.isQueued = false) :
  ∃ s', s.turn threads k task = some s'
  := by
  have hbegin : ∀ task', s.begin threads k task' = some (s.setTask k task') := by
    intro task'
    apply begin_eq_some_iff.mpr ⟨⟨hfree, hfirst⟩, rfl⟩
  cases task with
  | startAccept sock place =>
      obtain rfl : place = .queued := by simpa [Task.isQueued] using hqueued
      exact ⟨_, hbegin _⟩
  | closeSocks place =>
      obtain rfl : place = .queued := by simpa [Task.isQueued] using hqueued
      exact ⟨_, hbegin _⟩
  | handleClient client place =>
      obtain rfl : place = .queued := by simpa [Task.isQueued] using hqueued
      exact ⟨_, hbegin _⟩

/-- If not all threads are in `::accept` and there is anything else to do, then some task can get on. -/
theorem exists_turn (hwaiting : s.tasks.countP Task.isWaiting < threads) (hmem : task ∈ s.tasks)
    (htask : task.isEnded = false ∧ task.isWaiting = false) :
  ∃ k s', s.step threads (.turn k) = some s'
  := by
  by_cases hworking : ∃ t ∈ s.tasks, t.isRunning = true ∧ t.isWaiting = false
  · obtain ⟨t, ht, hrunning, hnot⟩ := hworking
    obtain ⟨k, hk⟩ := List.getElem?_of_mem ht
    rw [Task.isRunning, Bool.and_eq_true, Bool.not_eq_true', Bool.not_eq_true'] at hrunning
    have hturn : ∃ s', s.turn threads k t = some s' := exists_turn_working k hrunning.1 hrunning.2 hnot
    obtain ⟨s', hs'⟩ := hturn
    exact ⟨k, s', by simp [step, hk, hs']⟩
  · have hoccupied : s.occupied < threads := by
      apply lt_of_le_of_lt _ hwaiting
      apply List.countP_mono_left
      intro t ht hrunning
      by_contra hnot
      apply hworking ⟨t, ht, hrunning, by simpa using hnot⟩
    have hqueued : ∃ t ∈ s.tasks, t.isQueued = true := by
      refine ⟨task, hmem, ?_⟩
      by_contra hnot
      apply hworking ⟨task, hmem, by simp [Task.isRunning, hnot, htask.1], htask.2⟩
    have hk := List.findIdx_lt_length.mpr hqueued
    obtain ⟨s', hs'⟩ := exists_turn_queued (k := s.tasks.findIdx Task.isQueued)
      (List.findIdx_getElem (w := hk)) hoccupied (by
        intro earlier hearlier
        obtain ⟨i, hi, rfl⟩ := List.mem_iff_getElem.mp hearlier
        rw [List.length_take] at hi
        rw [List.getElem_take]
        have hbefore : i < s.tasks.findIdx Task.isQueued := by omega
        simpa using List.not_of_lt_findIdx hbefore)
    exact ⟨s.tasks.findIdx Task.isQueued, s', by simp [step, List.getElem?_eq_getElem hk, hs']⟩

/-- While the server is not stopped, the loops have sockets with descriptors. -/
theorem Inv.calling (hs : Inv n s) (hk : s.tasks[k]? = some task) (sock : ℕ)
    (htask : task = .startAccept sock .calling) :
  s.isStop = true ∨ s.listening sock = true
  := by
  subst htask
  cases hstop : s.isStop with
  | true => exact Or.inl rfl
  | false =>
      right
      have hmem := List.mem_of_getElem? hk
      have hloop : 0 < s.tasks.countP Task.isLoop := List.countP_pos_iff.mpr ⟨_, hmem, by simp [Task.isLoop]⟩
      have hloopOf : 0 < s.tasks.countP (Task.isLoopOf sock) :=
        List.countP_pos_iff.mpr ⟨_, hmem, by simp [Task.isLoopOf]⟩
      have hsock : sock < n := by
        have hle := hs.loopOf sock
        by_contra hge
        rw [if_neg hge] at hle
        omega
      obtain hclosed | hnone := hs.started hstop
      · simp [hs.sockets.listening, hclosed, hsock]
      · omega

/-- Every task is through or in `::accept`. -/
def Settled (s : Service) : Prop := ∀ task ∈ s.tasks, task.isEnded = true ∨ task.isWaiting = true

/-- Every accepted client has been handled. -/
def Handled (s : Service) : Prop := ∀ client < s.accepted, Task.handleClient client .ended ∈ s.tasks

theorem Inv.handled (hs : Inv n s) (h : s.Settled) :
  s.Handled
  := by
  intro client hclient
  have hcount := hs.clients client
  rw [if_pos hclient] at hcount
  obtain ⟨task, hmem, htask⟩ := List.countP_pos_iff.mp (Nat.lt_of_lt_of_eq Nat.zero_lt_one hcount.symm)
  have hplace := h task hmem
  cases task with
  | startAccept sock place =>
      obtain rfl : place = .holding client := by simpa [Task.isOf] using htask
      simp [Task.isEnded, Task.isWaiting] at hplace
  | closeSocks place => cases htask
  | handleClient client' place =>
      obtain rfl : client' = client := by simpa [Task.isOf] using htask
      obtain rfl : place = .ended := by simpa [Task.isEnded, Task.isWaiting] using hplace
      apply hmem

/-- If there are more threads than loops, the tasks get on to their ends or to `::accept`. -/
theorem Inv.settles (hs : Inv n s) (hthreads : n < threads) :
  ∃ as s', (∀ a ∈ as, a.IsTurn) ∧ run (Service.step threads) s as = some s' ∧ Inv n s' ∧ s'.Settled
  := by
  refine Progress.exists_run_to_goal rank ?_ s hs
  intro u hu hgoal
  obtain ⟨task, hmem, htask⟩ : ∃ task ∈ u.tasks, task.isEnded = false ∧ task.isWaiting = false := by
    simpa [Settled] using hgoal
  have hwaiting : u.tasks.countP Task.isWaiting < threads := by
    apply lt_of_le_of_lt _ hthreads
    apply le_trans _ hu.loops
    apply List.countP_mono_left
    intro t _
    cases t with
    | startAccept sock place => cases place <;> simp [Task.isWaiting, Task.isLoop]
    | closeSocks place => simp [Task.isWaiting]
    | handleClient client place => simp [Task.isWaiting]
  obtain ⟨k, u', hstep⟩ := exists_turn hwaiting hmem htask
  obtain ⟨t, hk, hturn⟩ := Option.bind_eq_some_iff.mp hstep
  refine ⟨[.turn k], u', by simp [Act.IsTurn], ?_, hu.turn hk hturn, turn_rank_lt (hu.calling hk) hk hturn⟩
  rw [run_cons, hstep]
  rfl

/-! ### All threads in `::accept` -/

/-- A started server with `k` loops in `::accept`, `m` queued loops, and further tasks. -/
def crowded (k m : ℕ) (accepted : ℕ) (tasks : List Task) : Service :=
  ⟨false, List.range (k + m), fun sock => sock < k + m,
    (List.range k).map (fun sock => .startAccept sock .waiting)
      ++ (List.range' k m).map (fun sock => .startAccept sock .queued) ++ tasks, accepted, []⟩

theorem crowded_occupied (k m accepted : ℕ) (tasks : List Task) (h : ∀ task ∈ tasks, task.isRunning = false) :
  (crowded k m accepted tasks).occupied = k
  := by
  have htasks : tasks.countP Task.isRunning = 0 := by
    rw [List.countP_eq_zero]
    intro task htask
    simp [h task htask]
  rw [occupied, crowded, List.countP_append, List.countP_append, htasks, List.countP_map, List.countP_map,
    List.countP_eq_length.mpr (by simp [Task.isRunning, Task.isQueued, Task.isEnded]),
    List.countP_eq_zero.mpr (by simp [Task.isRunning, Task.isQueued, Task.isEnded])]
  simp

/-- The same, with the loop for the socket `k` somewhere before `::accept`. -/
def crowdedAt (k m : ℕ) (place : LoopPlace) : Service :=
  ⟨false, List.range (k + 1 + m), fun sock => sock < k + 1 + m,
    (List.range k).map (fun sock => .startAccept sock .waiting)
      ++ .startAccept k place :: (List.range' (k + 1) m).map (fun sock => .startAccept sock .queued), 0, []⟩

theorem crowded_succ (k m : ℕ) :
  crowded k (m + 1) 0 [] = crowdedAt k m .queued
  := by
  have hsum : k + (m + 1) = k + 1 + m := by omega
  rw [crowded, crowdedAt, hsum, List.range'_succ, List.map_cons, List.append_nil]

theorem crowdedAt_waiting (k m : ℕ) :
  crowdedAt k m .waiting = crowded (k + 1) m 0 []
  := by
  rw [crowded, crowdedAt, List.range_succ, List.map_append, List.append_nil, List.append_assoc]
  rfl

theorem crowdedAt_getElem? (k m : ℕ) (place : LoopPlace) :
  (crowdedAt k m place).tasks[k]? = some (.startAccept k place)
  := by
  simp [crowdedAt]

theorem crowdedAt_setTask (k m : ℕ) (place place' : LoopPlace) :
  (crowdedAt k m place).setTask k (.startAccept k place') = crowdedAt k m place'
  := by
  simp [crowdedAt, setTask]

/-- One more loop gets to `::accept`. -/
theorem run_crowded_succ {k m : ℕ} (h : k < threads) :
  run (Service.step threads) (crowded k (m + 1) 0 []) [.turn k, .turn k, .turn k]
    = some (crowded (k + 1) m 0 [])
  := by
  have hbegin : (crowdedAt k m .queued).begin threads k (.startAccept k .testing)
      = some (crowdedAt k m .testing) := by
    apply begin_eq_some_iff.mpr ⟨⟨?_, ?_⟩, crowdedAt_setTask _ _ _ _⟩
    · rw [← crowded_succ, crowded_occupied _ _ _ _ (by simp)]
      apply h
    · simp [crowdedAt, Task.isQueued]
  have hstop : (crowdedAt k m .testing).isStop = false := rfl
  have hlistening : (crowdedAt k m .calling).listening k = true := by
    simp [crowdedAt]
    omega
  rw [crowded_succ, ← crowdedAt_waiting]
  simp only [run_cons, run_nil, Service.step, crowdedAt_getElem?, Option.bind_some, turn, hbegin,
    crowdedAt_setTask, hstop, hlistening, Bool.false_eq_true, if_false, if_true]

/-- Loops get to `::accept` as long as there are threads. -/
theorem exists_run_crowded (k m : ℕ) (h : k ≤ threads) :
  ∃ as, (∀ a ∈ as, a.IsTurn) ∧
    run (Service.step threads) (crowded 0 (k + m) 0 []) as = some (crowded k m 0 [])
  := by
  induction k generalizing m with
  | zero => exact ⟨[], by simp, by simp⟩
  | succ k ih =>
      obtain ⟨as, has, hrun⟩ := ih (m + 1) (by omega)
      refine ⟨as ++ [.turn k, .turn k, .turn k], ?_, ?_⟩
      · intro a ha
        obtain ha | ha := List.mem_append.mp ha
        · apply has a ha
        · simp at ha
          subst ha
          trivial
      · rw [run_append, show k + 1 + m = k + (m + 1) by omega, hrun]
        apply run_crowded_succ h

/-- With all threads in `::accept` nothing gets on. -/
theorem step_crowded (m accepted : ℕ) {tasks : List Task} (h : ∀ task ∈ tasks, task.isQueued = true) {a : Act}
    (ha : a.IsTurn) :
  (crowded threads m accepted tasks).step threads a = none
  := by
  have hfull : ∀ k task', (crowded threads m accepted tasks).begin threads k task' = none := by
    intro k task'
    have hoccupied := crowded_occupied threads m accepted tasks fun task htask => by
      simp [Task.isRunning, h task htask]
    rw [begin, hoccupied, if_neg (by omega)]
  cases a with
  | start | stop | accept k ok => cases ha
  | turn k =>
      rw [Service.step, Option.bind_eq_none_iff]
      intro task hk
      have hmem := List.mem_of_getElem? hk
      have hplace : task.isWaiting = true ∨ task.isQueued = true := by
        simp only [crowded, List.mem_append, List.mem_map] at hmem
        obtain (⟨sock, -, rfl⟩ | ⟨sock, -, rfl⟩) | hmem := hmem
        · simp [Task.isWaiting]
        · simp [Task.isQueued]
        · exact Or.inr (h task hmem)
      cases task with
      | startAccept sock place =>
          obtain rfl | rfl : place = .waiting ∨ place = .queued := by
            simpa [Task.isWaiting, Task.isQueued] using hplace
          · rfl
          · apply hfull
      | closeSocks place =>
          obtain rfl : place = .queued := by simpa [Task.isWaiting, Task.isQueued] using hplace
          apply hfull
      | handleClient client place =>
          obtain rfl : place = .queued := by simpa [Task.isWaiting, Task.isQueued] using hplace
          apply hfull

/-- A client is accepted, and its handler finds no thread. -/
theorem run_crowded_accept (k m : ℕ) :
  run (Service.step threads) (crowded (k + 1) m 0 []) [.accept 0 true, .turn 0, .turn 0, .turn 0]
    = some (crowded (k + 1) m 1 [.handleClient 0 .queued])
  := by
  simp [Service.step, Service.accept, turn, crowded, setTask, schedule, List.range_succ_eq_map]

theorem Act.IsOnward.orderly {a : Act} (h : a.IsOnward) :
  s.Orderly a
  := by
  cases a with
  | start | stop => cases h
  | turn | accept => trivial

theorem Act.IsTurn.onward {a : Act} (h : a.IsTurn) :
  a.IsOnward
  := by
  cases a with
  | start | stop | accept => cases h
  | turn => trivial

/-- From every state that a server with `n` sockets can come to, all accepted clients can be handled, whether
or not `::accept` ever returns again. -/
def GetsHandled (threads n : ℕ) : Prop :=
  ∀ as s, Guarded (Service.step threads) Orderly (bound n) as → run (Service.step threads) (bound n) as = some s →
    ∃ as' s', (∀ a ∈ as', a.IsTurn) ∧ run (Service.step threads) s as' = some s' ∧ s'.Handled

/-- A server with `n` sockets gets every accepted client handled exactly if there are more than `n`
threads. -/
theorem run_handled_iff (hthreads : 0 < threads) :
  GetsHandled threads n ↔ n < threads
  := by
  constructor
  · intro h
    by_contra hle
    obtain ⟨k, rfl⟩ : ∃ k, threads = k + 1 := Nat.exists_eq_succ_of_ne_zero hthreads.ne'
    obtain ⟨m, rfl⟩ : ∃ m, n = k + 1 + m := Nat.exists_eq_add_of_le (not_lt.mp hle)
    obtain ⟨crowd, hcrowd, hrun⟩ := exists_run_crowded (k + 1) m le_rfl
    let as := crowd ++ [.accept 0 true, .turn 0, .turn 0, .turn 0]
    have hstart : (bound (k + 1 + m)).start = crowded 0 (k + 1 + m) 0 [] := by
      simp [Service.start, bound, crowded, schedule, List.range_eq_range']
    have has : ∀ a ∈ as, a.IsOnward := by
      intro a ha
      obtain ha | ha := List.mem_append.mp ha
      · apply Act.IsTurn.onward (hcrowd a ha)
      · simp at ha
        obtain rfl | rfl := ha <;> trivial
    have hok : Guarded (Service.step (k + 1)) Orderly (bound (k + 1 + m)) (.start :: as) := by
      refine ⟨Or.inr ⟨rfl, rfl⟩, fun _ _ => ?_⟩
      apply (guarded_of_forall has).mono fun _ _ => Act.IsOnward.orderly
    have hfull : run (Service.step (k + 1)) (bound (k + 1 + m)) (.start :: as)
        = some (crowded (k + 1) m 1 [.handleClient 0 .queued]) := by
      rw [run_cons, Service.step, Option.bind_some, hstart, run_append, hrun, Option.bind_some]
      apply run_crowded_accept
    obtain ⟨as', s', has', hrun', hhandled⟩ := h _ _ hok hfull
    cases as' with
    | nil =>
        obtain rfl := Option.some.inj hrun'
        have hmem := hhandled 0 Nat.zero_lt_one
        simp [crowded] at hmem
    | cons a as' =>
        have hqueued : ∀ task ∈ [Task.handleClient 0 .queued], task.isQueued = true := by simp [Task.isQueued]
        have hnone : (crowded (k + 1) m 1 [.handleClient 0 .queued]).step (k + 1) a = none :=
          step_crowded m 1 hqueued (has' a List.mem_cons_self)
        rw [run_cons, hnone] at hrun'
        cases hrun'
  · intro hlt as s hok h
    obtain ⟨as', s', has', hrun, hs', hsettled⟩ := (run_inv hok h).settles hlt
    exact ⟨as', s', has', hrun, hs'.handled hsettled⟩

theorem run_handled_iff_twoSockets :
  ¬ GetsHandled 2 2 ∧ GetsHandled 3 2
  := by
  constructor
  · intro h
    exact absurd ((run_handled_iff (by decide)).mp h) (by decide)
  · apply (run_handled_iff (by decide)).mpr (by decide)

/-! ### Winding down -/

/-- The server is stopped, and the closure of `stop` is under way or has cleared `m_socks`. -/
def Stopped (s : Service) : Prop := s.isStop = true ∧ (0 < s.tasks.countP Task.isCloser ∨ s.socks = [])

theorem Stopped.turn (hstopped : s.Stopped) (hs : Inv n s) (hk : s.tasks[k]? = some task)
    (h : s.turn threads k task = some s') :
  s'.Stopped
  := by
  obtain ⟨-, hstop, -⟩ := turn_tasks h
  refine ⟨hstop.trans hstopped.1, ?_⟩
  obtain hcloser | hnone := hstopped.2
  · by_cases hlast : ∃ next, task = .closeSocks (.closing next) ∧ s.socks.length ≤ next
    · obtain ⟨next, rfl, hnext⟩ := hlast
      have hone : s.tasks.countP Task.isCloser ≤ 1 := hs.closers.trans (by split <;> simp)
      exact Or.inr (hs.sockets.turn_cleared hone hk hnext h).2
    · left
      have hcount := countP_turn Task.isCloser hk h
      have hafter : task.isCloser = true → (s.after task).1.isCloser = true := by
        intro htask
        cases task with
        | startAccept | handleClient => cases htask
        | closeSocks place =>
            cases place with
            | queued => rfl
            | closing next =>
                have hnext : next < s.socks.length := by
                  by_contra hge
                  apply hlast ⟨next, rfl, not_lt.mp hge⟩
                simp [after, hnext, Task.isCloser]
            | ended => cases htask
      split at hcount
      · rename_i htask
        rw [if_pos (hafter htask)] at hcount
        omega
      · omega
  · right
    have hle := turn_socks_length h
    rw [hnone, List.length_nil, Nat.le_zero, List.length_eq_zero_iff] at hle
    apply hle

theorem Stopped.accept {ok : Bool} (hstopped : s.Stopped) (h : s.accept k ok = some s') :
  s'.Stopped
  := by
  obtain ⟨sock, hk, hs'⟩ := accept_cases h
  have hcount := countP_accept Task.isCloser hk h
  simp only [Task.isCloser, Bool.false_eq_true, if_false, add_zero] at hcount
  obtain ⟨hstop, hclosing⟩ := hstopped
  rw [← hcount] at hclosing
  cases ok <;> simpa [hs', Stopped, setTask, hstop] using hclosing

/-- A step of the server or of the kernel keeps what is known of a stopped server, and gets on. -/
theorem Stopped.step {a : Act} (hs : Inv n s ∧ s.Stopped) (ha : a.IsOnward)
    (h : s.step threads a = some s') :
  (Inv n s' ∧ s'.Stopped) ∧ s'.rank < s.rank
  := by
  cases a with
  | start | stop => cases ha
  | turn k =>
      obtain ⟨task, hk, hturn⟩ := Option.bind_eq_some_iff.mp h
      exact ⟨⟨hs.1.turn hk hturn, hs.2.turn hs.1 hk hturn⟩, turn_rank_lt (fun _ _ => Or.inl hs.2.1) hk hturn⟩
  | accept k ok => exact ⟨⟨hs.1.accept h, hs.2.accept h⟩, accept_rank_lt hs.2.1 h⟩

/-- All tasks are through, all sockets are closed and all clients have been handled. -/
def Down (n : ℕ) (s : Service) : Prop :=
  (∀ task ∈ s.tasks, task.isEnded = true) ∧ s.socks = [] ∧ s.closed = List.range n ∧ s.Handled

/-- A stopped server whose tasks are through is down. -/
theorem Stopped.down (hstopped : s.Stopped) (hs : Inv n s) (hended : ∀ task ∈ s.tasks, task.isEnded = true) :
  s.Down n
  := by
  have hnone : s.tasks.countP Task.isCloser = 0 := by
    rw [List.countP_eq_zero]
    intro task hmem hcloser
    have hend := hended task hmem
    cases task with
    | startAccept | handleClient => cases hcloser
    | closeSocks place => simp_all [Task.isEnded, Task.isCloser]
  have hsocks : s.socks = [] := by
    obtain hcloser | hsocks := hstopped.2
    · omega
    · apply hsocks
  refine ⟨hended, hsocks, ?_, hs.handled fun task hmem => Or.inl (hended task hmem)⟩
  obtain ⟨hrange, hclosed⟩ | ⟨-, hclosed⟩ := hs.sockets.resting fun next hnext => by
    have hcloser := List.countP_eq_zero.mp hnone _ hnext
    simp [Task.isCloser] at hcloser
  · rw [hclosed, ← hrange, hsocks]
  · apply hclosed

/-- A stopped server that is not down can get on. -/
theorem Stopped.exists_step (hstopped : s.Stopped) (hs : Inv n s) (hthreads : 0 < threads) :
  s.Down n ∨ ∃ a s', a.IsOnward ∧ s.step threads a = some s'
  := by
  by_cases hended : ∀ task ∈ s.tasks, task.isEnded = true
  · exact Or.inl (hstopped.down hs hended)
  · right
    by_cases hwaiting : ∃ task ∈ s.tasks, task.isWaiting = true
    · obtain ⟨task, hmem, hwaiting⟩ := hwaiting
      obtain ⟨k, hk⟩ := List.getElem?_of_mem hmem
      cases task with
      | startAccept sock place =>
          obtain rfl : place = .waiting := by simpa [Task.isWaiting] using hwaiting
          exact ⟨.accept k false, s.setTask k (.startAccept sock .testing), trivial,
            by simp [Service.step, Service.accept, hk]⟩
      | closeSocks | handleClient => cases hwaiting
    · have hnone : s.tasks.countP Task.isWaiting = 0 := by
        rw [List.countP_eq_zero]
        intro task hmem htask
        apply hwaiting ⟨task, hmem, htask⟩
      obtain ⟨task, hmem, htask⟩ : ∃ task ∈ s.tasks, task.isEnded = false := by simpa using hended
      have hturn : ∃ k s', s.step threads (.turn k) = some s' :=
        exists_turn (by omega) hmem ⟨htask, by simpa using fun h => hwaiting ⟨task, hmem, h⟩⟩
      obtain ⟨k, s', hstep⟩ := hturn
      exact ⟨.turn k, s', trivial, hstep⟩

/-- After `stop`, as long as neither `start` nor `stop` is called again, only finitely many steps are
possible, and as long as the server is not down there is one: a step of a task, or a return of `::accept`. -/
theorem run_winds_down (hthreads : 0 < threads) {as : List Act}
    (hok : Guarded (Service.step threads) Orderly (bound n) (as ++ [.stop]))
    (h : run (Service.step threads) (bound n) (as ++ [.stop]) = some s) :
  ∃ steps, ∀ as' s', (∀ a ∈ as', a.IsOnward) → run (Service.step threads) s as' = some s' →
    as'.length ≤ steps ∧ (s'.Down n ∨ ∃ a s'', a.IsOnward ∧ s'.step threads a = some s'')
  := by
  have hs : Inv n s := run_inv hok h
  have hstopped : s.Stopped := by
    rw [run_append] at h
    obtain ⟨u, -, hstop⟩ := Option.bind_eq_some_iff.mp h
    obtain rfl : u.stop = s := by simpa [Service.step] using hstop
    exact ⟨rfl, Or.inl (by simp [Service.stop, schedule, Task.isCloser])⟩
  have hstep : ∀ u a u', Inv n u ∧ u.Stopped → a.IsOnward → Service.step threads u a = some u' →
      (Inv n u' ∧ u'.Stopped) ∧ u'.rank < u.rank :=
    fun _ _ _ hu ha => Stopped.step hu ha
  refine ⟨s.rank, fun as' s' has' h' => ?_⟩
  have hlength := Progress.length_add_rank_le rank hstep ⟨hs, hstopped⟩ has' h'
  obtain ⟨hs', hstopped'⟩ : Inv n s' ∧ s'.Stopped :=
    run_guarded_invariant (fun _ _ _ hu ha hstep' => (hstep _ _ _ hu ha hstep').1) ⟨hs, hstopped⟩
      (guarded_of_forall has') h'
  exact ⟨by omega, hstopped'.exists_step hs' hthreads⟩

theorem run_winds_down_sample :
  ∃ s, run (Service.step 3) (bound 2) (sample ++ [.stop]) = some s ∧
    ∃ steps, ∀ as' s', (∀ a ∈ as', a.IsOnward) → run (Service.step 3) s as' = some s' →
      as'.length ≤ steps ∧ (s'.Down 2 ∨ ∃ a s'', a.IsOnward ∧ s'.step 3 a = some s'')
  := by
  have hsome : (run (Service.step 3) (bound 2) (sample ++ [.stop])).isSome = true := by decide
  obtain ⟨s, hs⟩ := Option.isSome_iff_exists.mp hsome
  exact ⟨s, hs, run_winds_down (by decide) (by decide) hs⟩

end Service

end TcpServer

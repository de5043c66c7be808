import TinyWebserver.Base.Bytes
import TinyWebserver.Lib.Progress

/-!
# Starting the threads

`Scheduler::start` of `coroutine/scheduler.cpp` and the class `Thread` of `base/thread.cpp`. The constructor
of a thread waits on a semaphore until the new thread has stored its identifier and taken its function, so
`getId` can be asked as soon as the constructor is through. `start` holds `m_mutex` all the time, and the new
threads need it as soon as they run the scheduler. It does nothing if `stop` has set `m_stopping`, and its
assertion fails if it is called a second time.

In every order of the steps `m_threadIds` has the identifiers of the threads in `m_threads`, no thread looks
at the queue before `start` is through, and by then the list is complete, `run_ids`. Behind its constructor
nothing but the name of a thread changes, which its own function may set, `run_object`. And `start` cannot
get stuck, `run_start_returns`.
-/

/-- The class `Thread`, less the handle, with the counter of `m_semaphore`. -/
structure Thread (Cb : Type*) where
  m_id : ℤ
  m_cb : Option Cb
  m_name : List Byte
  m_semaphore : ℕ
deriving DecidableEq

namespace Thread

/-- The members at the call of `pthread_create` in the constructor. -/
def new {Cb : Type*} (cb : Cb) (name : List Byte) : Thread Cb :=
  ⟨-1, some cb, if name = [] then ascii "UNKNOW" else name, 0⟩

/-- Where a thread is in `Thread::run`: at its beginning, behind the assignments to `t_thread` and
`t_thread_name`, behind that to `m_id`, behind the swap of `m_cb`, behind `notify`, or in its function behind
the first lock of `m_mutex`. -/
inductive RunPlace where
  | begun
  | named
  | identified
  | swapped
  | notified
  | scanning
deriving DecidableEq, Repr

/-- A thread of the system with its object: the identifier that the system has given it, its variables
`t_thread_name` and `cb`, its place, and the names that its function has set. -/
structure Running (Cb : Type*) where
  object : Thread Cb
  tid : ℤ
  t_thread_name : List Byte
  cb : Option Cb
  place : RunPlace
  renamed : List (List Byte)
deriving DecidableEq

namespace Running

variable {Cb : Type*}

/-- `pthread_create` has made the thread. -/
def created (cb : Cb) (name : List Byte) (tid : ℤ) : Running Cb :=
  ⟨Thread.new cb name, tid, ascii "UNKNOW", none, .begun, []⟩

/-- A step of `Thread::run`, where `free` says whether `m_mutex` is free. -/
def advance (free : Bool) (r : Running Cb) : Option (Running Cb) :=
  match r.place with
  | .begun => some { r with t_thread_name := r.object.m_name, place := .named }
  | .named => some { r with object := { r.object with m_id := r.tid }, place := .identified }
  | .identified =>
      some { r with object := { r.object with m_cb := r.cb }, cb := r.object.m_cb, place := .swapped }
  | .swapped =>
      some { r with
        object := { r.object with m_semaphore := r.object.m_semaphore + 1 }, place := .notified }
  | .notified => if free then some { r with place := .scanning } else none
  | .scanning => none

/-- `SetName`, called by the function of the thread: `t_thread` is the object of the thread. -/
def setName (name : List Byte) (r : Running Cb) : Option (Running Cb) :=
  match r.place with
  | .scanning =>
      if name = [] then some r
      else some { r with
        object := { r.object with m_name := name }
        t_thread_name := name
        renamed := r.renamed ++ [name] }
  | _ => none

/-! ### What is known of a thread -/

/-- The thread has stored its identifier. -/
def isIdentified (r : Running Cb) : Bool :=
  match r.place with
  | .begun | .named => false
  | _ => true

/-- The thread has taken its function. -/
def hasSwapped (r : Running Cb) : Bool :=
  match r.place with
  | .begun | .named | .identified => false
  | _ => true

/-- The thread has posted the semaphore. -/
def hasNotified (r : Running Cb) : Bool :=
  match r.place with
  | .notified | .scanning => true
  | _ => false

/-- The name of the thread: the last one that its function has set, or the one it was made with. -/
def currentName (name : List Byte) (r : Running Cb) : List Byte := r.renamed.getLast?.getD name

/-- The identifier is stored from its place on, and the function is in the object or has been taken. -/
structure WellPlaced (cb : Cb) (name : List Byte) (r : Running Cb) : Prop where
  m_id : r.object.m_id = if r.isIdentified then r.tid else -1
  m_cb : r.object.m_cb = if r.hasSwapped then none else some cb
  cb : r.cb = if r.hasSwapped then some cb else none
  m_name : r.object.m_name = r.currentName name
  t_thread_name : r.place ≠ .begun → r.t_thread_name = r.currentName name

variable {cb : Cb} {name : List Byte} {tid : ℤ} {r r' : Running Cb} {free : Bool}

theorem created_wellPlaced (hname : name ≠ []) :
  (created cb name tid).WellPlaced cb name
  where
  m_id := rfl
  m_cb := rfl
  cb := rfl
  m_name := if_neg hname
  t_thread_name := by simp [created]

/-- A step of `Thread::run` keeps what is known, keeps the identifier given by the system and the names that
were set, and posts the semaphore exactly if it notifies. -/
theorem WellPlaced.advance (h : r.WellPlaced cb name) (hstep : r.advance free = some r') :
  r'.WellPlaced cb name ∧ r'.tid = r.tid ∧
    r'.object.m_semaphore + (if r.hasNotified then 1 else 0)
      = r.object.m_semaphore + (if r'.hasNotified then 1 else 0)
  := by
  obtain ⟨object, tid, t_thread_name, c, place, renamed⟩ := r
  cases place with
  | begun =>
      obtain rfl := Option.some.inj hstep
      exact ⟨⟨h.m_id, h.m_cb, h.cb, h.m_name, fun _ => h.m_name⟩, rfl, rfl⟩
  | named =>
      obtain rfl := Option.some.inj hstep
      exact ⟨⟨rfl, h.m_cb, h.cb, h.m_name, fun _ => h.t_thread_name (by simp)⟩, rfl, rfl⟩
  | identified =>
      obtain rfl := Option.some.inj hstep
      exact ⟨⟨h.m_id, h.cb, h.m_cb, h.m_name, fun _ => h.t_thread_name (by simp)⟩, rfl, rfl⟩
  | swapped =>
      obtain rfl := Option.some.inj hstep
      exact ⟨⟨h.m_id, h.m_cb, h.cb, h.m_name, fun _ => h.t_thread_name (by simp)⟩, rfl, rfl⟩
  | notified =>
      cases free with
      | false => cases hstep
      | true =>
          obtain rfl := Option.some.inj hstep
          exact ⟨⟨h.m_id, h.m_cb, h.cb, h.m_name, fun _ => h.t_thread_name (by simp)⟩, rfl, rfl⟩
  | scanning => cases hstep

theorem of_hasNotified (r : Running Cb) (h : r.hasNotified = true) :
  r.isIdentified = true ∧ r.hasSwapped = true ∧ r.place ≠ .begun
  := by
  obtain ⟨object, tid, t_thread_name, c, place, renamed⟩ := r
  cases place with
  | notified | scanning => exact ⟨rfl, rfl, by simp⟩
  | begun | named | identified | swapped => cases h

/-- Behind `notify` a step of `Thread::run` does not touch the object. -/
theorem object_of_advance (h : r.hasNotified = true) (hstep : r.advance free = some r') :
  r'.object = r.object ∧ r'.tid = r.tid ∧ r'.renamed = r.renamed
  := by
  obtain ⟨object, tid, t_thread_name, c, place, renamed⟩ := r
  cases place with
  | notified =>
      cases free with
      | false => cases hstep
      | true =>
          obtain rfl := Option.some.inj hstep
          exact ⟨rfl, rfl, rfl⟩
  | scanning => cases hstep
  | begun | named | identified | swapped => cases h

/-- While `m_mutex` is held, no thread gets behind its first lock. -/
theorem place_of_advance (hstep : r.advance false = some r') :
  r'.place ≠ .scanning
  := by
  obtain ⟨object, tid, t_thread_name, c, place, renamed⟩ := r
  cases place with
  | begun | named | identified | swapped =>
      obtain rfl := Option.some.inj hstep
      simp
  | notified | scanning => cases hstep

/-- What `SetName` does: it sets the name of the object, of the thread and nothing else, or it does nothing. -/
theorem setName_cases {given : List Byte} (hstep : r.setName given = some r') :
  r.place = .scanning ∧ (r' = r ∨ r' = { r with
    object := { r.object with m_name := given }, t_thread_name := given, renamed := r.renamed ++ [given] })
  := by
  rw [setName] at hstep
  split at hstep
  · rename_i hplace
    split at hstep
    · exact ⟨hplace, Or.inl (Option.some.inj hstep).symm⟩
    · exact ⟨hplace, Or.inr (Option.some.inj hstep).symm⟩
  · cases hstep

theorem WellPlaced.setName (h : r.WellPlaced cb name) {given : List Byte}
    (hstep : r.setName given = some r') :
  r'.WellPlaced cb name
  := by
  obtain ⟨-, rfl | rfl⟩ := setName_cases hstep
  · apply h
  · have hlast : (r.renamed ++ [given]).getLast?.getD name = given := by simp
    exact ⟨h.m_id, h.m_cb, h.cb, hlast.symm, fun _ => hlast.symm⟩

/-- Of two threads the second one is the first one, later, behind its constructor: nothing but its name has
been set. -/
def Renamed (r r' : Running Cb) : Prop :=
  r'.tid = r.tid ∧ ∃ names, r'.renamed = r.renamed ++ names ∧
    r'.object = { r.object with m_name := names.getLast?.getD r.object.m_name }

theorem renamed_of_object (h : r'.object = r.object ∧ r'.tid = r.tid ∧ r'.renamed = r.renamed) :
  r.Renamed r'
  := ⟨h.2.1, [], by simp [h.2.2], h.1⟩

theorem renamed_of_setName {given : List Byte} (hstep : r.setName given = some r') :
  r.Renamed r'
  := by
  obtain ⟨-, rfl | rfl⟩ := setName_cases hstep
  · apply renamed_of_object ⟨rfl, rfl, rfl⟩
  · exact ⟨rfl, [given], rfl, rfl⟩

theorem Renamed.trans {r'' : Running Cb} (h : r.Renamed r') (h' : r'.Renamed r'') :
  r.Renamed r''
  := by
  obtain ⟨htid, names, hrenamed, hobject⟩ := h
  obtain ⟨htid', names', hrenamed', hobject'⟩ := h'
  refine ⟨htid'.trans htid, names ++ names', by rw [hrenamed', hrenamed, List.append_assoc], ?_⟩
  rw [hobject', hobject, List.getLast?_append]
  cases names'.getLast? <;> rfl

end Running

end Thread

namespace Scheduler

open Transition Thread

/-- Where `start` is: in front of the call, in the constructor of a thread or in front of it, in front of the
`push_back` of the identifier, through, or left by the exception of a constructor. -/
inductive StartPlace where
  | outside
  | constructing
  | pushing
  | returned
  | failed
deriving DecidableEq, Repr

/-- A scheduler that is started: `m_stopping`, `m_threadIds`, the threads in `m_threads` and its size, which
counts the pointers that are still null, the thread whose constructor is under way, and the place. -/
structure Starting (Cb : Type*) where
  m_stopping : Bool
  m_threadIds : List ℤ
  m_threads : List (Running Cb)
  size : ℕ
  newest : Option (Running Cb)
  place : StartPlace
deriving DecidableEq

namespace Starting

variable {Cb : Type*}

/-- In front of the call of `start`, with the identifier of the calling thread if that is one of the
workers. -/
def start (ids : List ℤ) : Starting Cb := ⟨false, ids, [], 0, none, .outside⟩

/-- `m_mutex` is not held by `start`. -/
def isFree (s : Starting Cb) : Bool := s.place = .outside ∨ s.place = .returned ∨ s.place = .failed

/-- The name of the thread with the number `i`. -/
def threadName (name : List Byte) (i : ℕ) : List Byte := name ++ ascii "_" ++ digitBytes i

/-- A step: the call of `start`, the assignment to `m_stopping` in `stop`, a step of `start`, with the outcome
of `pthread_create` if it calls it, a step of the thread that is constructed, or of a thread in `m_threads`,
or a call of `SetName` by the function of such a thread. -/
inductive Act where
  | call
  | stop
  | main (created : Option ℤ)
  | newest
  | thread (k : ℕ)
  | setName (k : ℕ) (name : List Byte)
deriving DecidableEq, Repr

/-- The beginning of `start` up to the loop, with `none` if the assertion fails. -/
def call (m_threadCount : ℕ) (s : Starting Cb) : Option (Starting Cb) :=
  if s.m_stopping = true then
    some s
  else if s.size = 0 then
    some { s with size := m_threadCount, place := .constructing }
  else
    none

/-- A step of the loop of `start`. -/
def advance (m_threadCount : ℕ) (name : List Byte) (cb : Cb) (created : Option ℤ) (s : Starting Cb) :
    Option (Starting Cb) :=
  match s.place, s.newest with
  | .constructing, none =>
      if s.m_threads.length < m_threadCount then
        match created with
        | some tid => some { s with newest := some (.created cb (threadName name s.m_threads.length) tid) }
        | none => some { s with place := .failed }
      else
        some { s with place := .returned }
  | .constructing, some r =>
      if 0 < r.object.m_semaphore then
        let r := { r with object := { r.object with m_semaphore := r.object.m_semaphore - 1 } }
        some { s with m_threads := s.m_threads ++ [r], newest := none, place := .pushing }
      else
        none
  | .pushing, _ =>
      some { s with
        m_threadIds := s.m_threadIds ++ (s.m_threads.getLast?.map fun r => r.object.m_id).toList
        place := .constructing }
  | .outside, _ => none
  | .returned, _ => none
  | .failed, _ => none

/-- One step, with `none` if it is not possible or if the assertion fails. -/
def step (m_threadCount : ℕ) (name : List Byte) (cb : Cb) (s : Starting Cb) : Act → Option (Starting Cb)
  | .call => if s.isFree then s.call m_threadCount else none
  | .stop => some { s with m_stopping := true }
  | .main created => s.advance m_threadCount name cb created
  | .newest => s.newest.bind fun r => (r.advance s.isFree).map fun r => { s with newest := some r }
  | .thread k =>
      s.m_threads[k]?.bind fun r =>
        (r.advance s.isFree).map fun r => { s with m_threads := s.m_threads.set k r }
  | .setName k given =>
      s.m_threads[k]?.bind fun r =>
        (r.setName given).map fun r => { s with m_threads := s.m_threads.set k r }

variable {s s' : Starting Cb} {m_threadCount : ℕ} {name : List Byte} {cb : Cb} {ids : List ℤ}

/-- The thread that is constructed posts its semaphore once, which `start` then takes; the threads in
`m_threads` have stored their identifiers, which are in `m_threadIds` but for one that `start` is about to
push; and no thread has got `m_mutex` before `start` has released it. -/
structure Inv (m_threadCount : ℕ) (name : List Byte) (cb : Cb) (ids : List ℤ) (s : Starting Cb) : Prop where
  newest : ∀ r : Running Cb, s.newest = some r → s.place = .constructing ∧ s.m_threads.length < m_threadCount ∧
    r.WellPlaced cb (threadName name s.m_threads.length) ∧
    r.object.m_semaphore = if r.hasNotified then 1 else 0
  threads : ∀ (k : ℕ) (r : Running Cb), s.m_threads[k]? = some r →
    r.WellPlaced cb (threadName name k) ∧ r.hasNotified = true ∧ r.object.m_semaphore = 0
  pushed : s.m_threadIds = ids ++ if s.place = .pushing then (s.m_threads.map Running.tid).dropLast
    else s.m_threads.map Running.tid
  scanning : s.isFree = false → (∀ r ∈ s.m_threads, r.place ≠ .scanning) ∧
    ∀ r, s.newest = some r → r.place ≠ .scanning
  length_le : s.m_threads.length ≤ m_threadCount
  returned : s.place = .returned → s.m_threads.length = m_threadCount
  outside : s.place = .outside → s.m_threads = []
  size : s.place ≠ .outside → s.size = m_threadCount

theorem start_inv :
  Inv m_threadCount name cb ids (start ids)
  where
  newest := by simp [start]
  threads := by simp [start]
  pushed := by simp [start]
  scanning := by simp [start]
  length_le := by simp [start]
  returned := by simp [start]
  outside := by simp [start]
  size := by simp [start]

theorem threadName_ne_nil (i : ℕ) :
  threadName name i ≠ []
  := by
  simp [threadName, ascii]

/-- A step of the thread that is constructed. -/
theorem Inv.newest_step (hs : Inv m_threadCount name cb ids s) {r r' : Running Cb}
    (hr : s.newest = some r) (hstep : r.advance s.isFree = some r') :
  Inv m_threadCount name cb ids { s with newest := some r' }
  := by
  obtain ⟨hplace, hlength, hwell, hsemaphore⟩ := hs.newest r hr
  obtain ⟨hwell', -, hsemaphore'⟩ := hwell.advance hstep
  refine ⟨?_, hs.threads, hs.pushed, ?_, hs.length_le, hs.returned, hs.outside, hs.size⟩
  · rintro r₁ hr₁
    obtain rfl := Option.some.inj hr₁
    refine ⟨hplace, hlength, hwell', ?_⟩
    omega
  · intro hfree
    refine ⟨(hs.scanning hfree).1, ?_⟩
    rintro r₁ hr₁
    obtain rfl := Option.some.inj hr₁
    rw [show s.isFree = false from hfree] at hstep
    apply Running.place_of_advance hstep

/-- A thread in `m_threads` gets on. -/
theorem Inv.set_thread (hs : Inv m_threadCount name cb ids s) {k : ℕ} {r r' : Running Cb}
    (hr : s.m_threads[k]? = some r) (hwell : r'.WellPlaced cb (threadName name k)) (htid : r'.tid = r.tid)
    (hnotified : r'.hasNotified = true) (hsemaphore : r'.object.m_semaphore = 0)
    (hscanning : s.isFree = false → r'.place ≠ .scanning) :
  Inv m_threadCount name cb ids { s with m_threads := s.m_threads.set k r' }
  := by
  obtain ⟨hk, hget⟩ := List.getElem?_eq_some_iff.mp hr
  have htids : (s.m_threads.set k r').map Running.tid = s.m_threads.map Running.tid := by
    rw [List.map_set, htid, ← hget, ← List.getElem_map Running.tid (h := by simpa using hk)]
    apply List.set_getElem_self
  constructor
  · dsimp only
    rw [List.length_set]
    apply hs.newest
  · intro i r₁ hr₁
    dsimp only at hr₁
    rw [List.getElem?_set] at hr₁
    split at hr₁
    · rename_i hi
      subst hi
      obtain rfl := Option.some.inj hr₁
      exact ⟨hwell, hnotified, hsemaphore⟩
    · apply hs.threads i r₁ hr₁
  · dsimp only
    rw [htids]
    apply hs.pushed
  · intro hfree
    refine ⟨?_, (hs.scanning hfree).2⟩
    intro r₁ hr₁
    obtain hr₁ | rfl := List.mem_or_eq_of_mem_set hr₁
    · apply (hs.scanning hfree).1 r₁ hr₁
    · apply hscanning hfree
  · dsimp only
    rw [List.length_set]
    apply hs.length_le
  · dsimp only
    rw [List.length_set]
    apply hs.returned
  · intro hplace
    have hnone := hs.outside hplace
    simp [hnone] at hk
  · apply hs.size

/-- A step of a thread in `m_threads`. -/
theorem Inv.thread_step (hs : Inv m_threadCount name cb ids s) {k : ℕ} {r r' : Running Cb}
    (hr : s.m_threads[k]? = some r) (hstep : r.advance s.isFree = some r') :
  Inv m_threadCount name cb ids { s with m_threads := s.m_threads.set k r' }
  := by
  obtain ⟨hwell, hnotified, hsemaphore⟩ := hs.threads k r hr
  obtain ⟨hwell', htid, hsemaphore'⟩ := hwell.advance hstep
  rw [hnotified, if_pos rfl, hsemaphore] at hsemaphore'
  have hnotified' : r'.hasNotified = true := by
    by_contra hnot
    rw [if_neg hnot] at hsemaphore'
    omega
  rw [if_pos hnotified'] at hsemaphore'
  apply hs.set_thread hr hwell' htid hnotified' (by omega)
  intro hfree
  rw [hfree] at hstep
  apply Running.place_of_advance hstep

/-- The function of a thread in `m_threads` sets its name. -/
theorem Inv.setName_step (hs : Inv m_threadCount name cb ids s) {k : ℕ} {r r' : Running Cb}
    {given : List Byte} (hr : s.m_threads[k]? = some r) (hstep : r.setName given = some r') :
  Inv m_threadCount name cb ids { s with m_threads := s.m_threads.set k r' }
  := by
  obtain ⟨hwell, hnotified, hsemaphore⟩ := hs.threads k r hr
  obtain ⟨hplace, hcases⟩ := Running.setName_cases hstep
  have hheld : s.isFree = false → r'.place ≠ .scanning := by
    intro hfree
    exact absurd hplace ((hs.scanning hfree).1 r (List.mem_of_getElem? hr))
  apply hs.set_thread hr (hwell.setName hstep) _ _ _ hheld
  · rcases hcases with rfl | rfl <;> rfl
  · rcases hcases with rfl | rfl <;> exact hnotified
  · rcases hcases with rfl | rfl <;> exact hsemaphore

/-- The call of `start`. -/
theorem Inv.call_step (hs : Inv m_threadCount name cb ids s) (hfree : s.isFree = true)
    (hstep : s.call m_threadCount = some s') :
  Inv m_threadCount name cb ids s'
  := by
  rw [call] at hstep
  split at hstep
  · obtain rfl := Option.some.inj hstep
    apply hs
  split at hstep
  · rename_i hsize
    obtain rfl := Option.some.inj hstep
    have hplace : s.place ≠ .pushing := by
      intro hplace
      simp [isFree, hplace] at hfree
    have hnewest : s.newest = none := by
      cases hnewest : s.newest with
      | none => rfl
      | some r => simp [isFree, (hs.newest r hnewest).1] at hfree
    have hempty : s.m_threads = [] := by
      by_cases houtside : s.place = .outside
      · apply hs.outside houtside
      · have hlength := hs.length_le
        rw [← hs.size houtside, hsize] at hlength
        apply List.length_eq_zero_iff.mp (Nat.le_zero.mp hlength)
    have hpushed := hs.pushed
    rw [if_neg hplace, hempty] at hpushed
    refine ⟨by simp [hnewest], by simp [hempty], ?_, by simp [hempty, hnewest], by simp [hempty], by simp,
      by simp, by simp⟩
    simpa [hempty] using hpushed
  · cases hstep

/-- A step of `start`. -/
theorem Inv.main_step (hs : Inv m_threadCount name cb ids s) {created : Option ℤ}
    (hstep : s.advance m_threadCount name cb created = some s') :
  Inv m_threadCount name cb ids s'
  := by
  obtain ⟨stopping, threadIds, threads, size, newest, place⟩ := s
  cases place with
  | constructing =>
      cases newest with
      | none =>
          simp only [advance] at hstep
          split at hstep
          · rename_i hlength
            cases created with
            | some tid =>
                obtain rfl := Option.some.inj hstep
                refine ⟨?_, hs.threads, hs.pushed, ?_, hs.length_le, by simp, by simp, hs.size⟩
                · rintro r hr
                  obtain rfl := Option.some.inj hr
                  exact ⟨rfl, hlength, Running.created_wellPlaced (threadName_ne_nil _), rfl⟩
                · intro hfree
                  refine ⟨(hs.scanning hfree).1, ?_⟩
                  rintro r hr
                  obtain rfl := Option.some.inj hr
                  simp [Running.created]
            | none =>
                obtain rfl := Option.some.inj hstep
                exact ⟨by simp, hs.threads, hs.pushed, by simp [isFree], hs.length_le, by simp, by simp,
                  fun _ => hs.size (by simp)⟩
          · rename_i hlength
            obtain rfl := Option.some.inj hstep
            refine ⟨by simp, hs.threads, hs.pushed, by simp [isFree], hs.length_le, ?_, by simp,
              fun _ => hs.size (by simp)⟩
            intro _
            apply le_antisymm hs.length_le (not_lt.mp hlength)
      | some r =>
          simp only [advance] at hstep
          split at hstep
          · rename_i hposted
            obtain rfl := Option.some.inj hstep
            obtain ⟨-, hlength, hwell, hsemaphore⟩ := hs.newest r rfl
            have hnotified : r.hasNotified = true := by
              by_contra hnot
              rw [if_neg hnot] at hsemaphore
              omega
            rw [if_pos hnotified] at hsemaphore
            have hpushed := hs.pushed
            refine ⟨by simp, ?_, ?_, ?_, ?_, by simp, by simp, fun _ => hs.size (by simp)⟩
            · intro k r₁ hr₁
              dsimp only at hr₁
              obtain hk | hk := Nat.lt_or_ge k threads.length
              · rw [List.getElem?_append_left hk] at hr₁
                apply hs.threads k r₁ hr₁
              · rw [List.getElem?_append_right hk, List.getElem?_singleton] at hr₁
                split at hr₁
                · rename_i hlast
                  obtain rfl := Option.some.inj hr₁
                  obtain rfl : k = threads.length := by omega
                  exact ⟨⟨hwell.m_id, hwell.m_cb, hwell.cb, hwell.m_name, hwell.t_thread_name⟩, hnotified,
                    by simp [hsemaphore]⟩
                · cases hr₁
            · simpa using hpushed
            · intro _
              refine ⟨?_, by simp⟩
              intro r₁ hr₁
              obtain hr₁ | hr₁ := List.mem_append.mp hr₁
              · apply (hs.scanning rfl).1 r₁ hr₁
              · obtain rfl := List.mem_singleton.mp hr₁
                apply (hs.scanning rfl).2 r rfl
            · simpa using hlength
          · cases hstep
  | pushing =>
      obtain rfl := Option.some.inj hstep
      have hpushed := hs.pushed
      refine ⟨?_, hs.threads, ?_, hs.scanning, hs.length_le, by simp, by simp, fun _ => hs.size (by simp)⟩
      · intro r hr
        cases (hs.newest r hr).1
      · obtain rfl | ⟨front, r, rfl⟩ := List.eq_nil_or_concat threads
        · simpa using hpushed
        · obtain ⟨hwell, hnotified, -⟩ := hs.threads front.length r (by simp)
          have hid : r.object.m_id = r.tid := by
            rw [hwell.m_id, if_pos (r.of_hasNotified hnotified).1]
          have hfront : threadIds = ids ++ front.map Running.tid := by simpa using hpushed
          simp [hid, hfront]
  | outside | returned | failed => cases hstep

theorem Inv.step {a : Act} (hs : Inv m_threadCount name cb ids s)
    (hstep : s.step m_threadCount name cb a = some s') :
  Inv m_threadCount name cb ids s'
  := by
  cases a with
  | call =>
      rw [Starting.step] at hstep
      split at hstep
      · rename_i hfree
        apply hs.call_step hfree hstep
      · cases hstep
  | stop =>
      obtain rfl := Option.some.inj hstep
      exact ⟨hs.newest, hs.threads, hs.pushed, hs.scanning, hs.length_le, hs.returned, hs.outside, hs.size⟩
  | main created => apply hs.main_step hstep
  | newest =>
      obtain ⟨r, hr, hadvance⟩ := Option.bind_eq_some_iff.mp hstep
      obtain ⟨r', hr', rfl⟩ := Option.map_eq_some_iff.mp hadvance
      apply hs.newest_step hr hr'
  | thread k =>
      obtain ⟨r, hr, hadvance⟩ := Option.bind_eq_some_iff.mp hstep
      obtain ⟨r', hr', rfl⟩ := Option.map_eq_some_iff.mp hadvance
      apply hs.thread_step hr hr'
  | setName k given =>
      obtain ⟨r, hr, hset⟩ := Option.bind_eq_some_iff.mp hstep
      obtain ⟨r', hr', rfl⟩ := Option.map_eq_some_iff.mp hset
      apply hs.setName_step hr hr'

theorem run_inv {ls : List Act} (h : run (Starting.step m_threadCount name cb) (start ids) ls = some s) :
  Inv m_threadCount name cb ids s
  := run_invariant (fun _ _ _ hs hstep => hs.step hstep) start_inv h

/-- In every order of the steps: a thread gets `m_mutex` only when `start` has released it, and when `start`
has returned there are `m_threadCount` threads, `m_threadIds` has got the identifier of each of them, in
order, and each of them has its function and its name. -/
theorem run_ids {ls : List Act} (h : run (Starting.step m_threadCount name cb) (start ids) ls = some s) :
  (∀ r, r ∈ s.m_threads ∨ s.newest = some r → r.place = .scanning → s.isFree = true) ∧
    (s.place = .returned → s.m_threads.length = m_threadCount ∧
      s.m_threadIds = ids ++ s.m_threads.map Running.tid ∧
      ∀ (k : ℕ) (r : Running Cb), s.m_threads[k]? = some r → r.object.m_id = r.tid ∧ r.cb = some cb ∧
        r.t_thread_name = r.currentName (threadName name k))
  := by
  have hs := run_inv h
  refine ⟨?_, ?_⟩
  · intro r hr hscanning
    by_contra hheld
    rw [Bool.not_eq_true] at hheld
    rcases hr with hr | hr
    · apply (hs.scanning hheld).1 r hr hscanning
    · apply (hs.scanning hheld).2 r hr hscanning
  · intro hreturned
    have hpushed := hs.pushed
    rw [hreturned] at hpushed
    refine ⟨hs.returned hreturned, hpushed, ?_⟩
    intro k r hr
    obtain ⟨hwell, hnotified, -⟩ := hs.threads k r hr
    obtain ⟨hidentified, hswapped, hbegun⟩ := r.of_hasNotified hnotified
    refine ⟨?_, ?_, hwell.t_thread_name hbegun⟩
    · rw [hwell.m_id, if_pos hidentified]
    · rw [hwell.cb, if_pos hswapped]

/-- A step of `start` keeps the threads, and may add one. -/
theorem advance_threads {created : Option ℤ} (hstep : s.advance m_threadCount name cb created = some s') :
  s.m_threads <+: s'.m_threads
  := by
  obtain ⟨stopping, threadIds, threads, size, newest, place⟩ := s
  cases place with
  | constructing =>
      cases newest with
      | none =>
          simp only [advance] at hstep
          split at hstep
          · cases created with
            | some tid | none =>
                obtain rfl := Option.some.inj hstep
                apply List.prefix_refl
          · obtain rfl := Option.some.inj hstep
            apply List.prefix_refl
      | some r =>
          simp only [advance] at hstep
          split at hstep
          · obtain rfl := Option.some.inj hstep
            apply List.prefix_append
          · cases hstep
  | pushing =>
      obtain rfl := Option.some.inj hstep
      apply List.prefix_refl
  | outside | returned | failed => cases hstep

/-- A thread in `m_threads` gets on. -/
theorem renamed_set {threads : List (Running Cb)} {i k : ℕ} {r r₁ r₂ : Running Cb}
    (hk : threads[k]? = some r) (hr₁ : threads[i]? = some r₁) (h : r₁.Renamed r₂) :
  ∃ r', (threads.set i r₂)[k]? = some r' ∧ r.Renamed r'
  := by
  by_cases hi : i = k
  · subst hi
    obtain rfl := Option.some.inj (hr₁.symm.trans hk)
    exact ⟨r₂, List.getElem?_set_self (List.getElem?_eq_some_iff.mp hk).1, h⟩
  · refine ⟨r, ?_, Running.renamed_of_object ⟨rfl, rfl, rfl⟩⟩
    rw [List.getElem?_set_ne hi, hk]

/-- A step leaves the objects in `m_threads` as they are, up to a name that a thread sets for itself. -/
theorem Inv.object_step {a : Act} (hs : Inv m_threadCount name cb ids s)
    (hstep : s.step m_threadCount name cb a = some s') {k : ℕ} {r : Running Cb}
    (hk : s.m_threads[k]? = some r) :
  ∃ r', s'.m_threads[k]? = some r' ∧ r.Renamed r'
  := by
  have hsame : r.Renamed r := Running.renamed_of_object ⟨rfl, rfl, rfl⟩
  cases a with
  | call =>
      rw [Starting.step] at hstep
      split at hstep
      · rw [call] at hstep
        split at hstep
        · obtain rfl := Option.some.inj hstep
          exact ⟨r, hk, hsame⟩
        split at hstep
        · obtain rfl := Option.some.inj hstep
          exact ⟨r, hk, hsame⟩
        · cases hstep
      · cases hstep
  | stop =>
      obtain rfl := Option.some.inj hstep
      exact ⟨r, hk, hsame⟩
  | main created =>
      obtain ⟨more, hmore⟩ := advance_threads hstep
      refine ⟨r, ?_, hsame⟩
      rw [← hmore, List.getElem?_append_left (List.getElem?_eq_some_iff.mp hk).1, hk]
  | newest =>
      obtain ⟨r₁, -, hadvance⟩ := Option.bind_eq_some_iff.mp hstep
      obtain ⟨r₂, -, rfl⟩ := Option.map_eq_some_iff.mp hadvance
      exact ⟨r, hk, hsame⟩
  | thread i =>
      obtain ⟨r₁, hr₁, hadvance⟩ := Option.bind_eq_some_iff.mp hstep
      obtain ⟨r₂, hr₂, rfl⟩ := Option.map_eq_some_iff.mp hadvance
      have hobject := Running.object_of_advance (hs.threads i r₁ hr₁).2.1 hr₂
      apply renamed_set hk hr₁ (Running.renamed_of_object hobject)
  | setName i given =>
      obtain ⟨r₁, hr₁, hset⟩ := Option.bind_eq_some_iff.mp hstep
      obtain ⟨r₂, hr₂, rfl⟩ := Option.map_eq_some_iff.mp hset
      apply renamed_set hk hr₁ (Running.renamed_of_setName hr₂)

/-- Once the constructor of a thread is through, nothing touches its identifier, its function and its
semaphore, whatever else happens, and its name is the last one that its own function has set, or the one it
had. So `getId` always gives the same. -/
theorem run_object {ls ls' : List Act} (h : run (Starting.step m_threadCount name cb) (start ids) ls = some s)
    (h' : run (Starting.step m_threadCount name cb) s ls' = some s') {k : ℕ} {r : Running Cb}
    (hk : s.m_threads[k]? = some r) :
  ∃ r', s'.m_threads[k]? = some r' ∧ r'.tid = r.tid ∧ ∃ names, r'.renamed = r.renamed ++ names ∧
    r'.object = { r.object with m_name := names.getLast?.getD r.object.m_name }
  := by
  have hkept : Inv m_threadCount name cb ids s' ∧ ∃ r', s'.m_threads[k]? = some r' ∧ r.Renamed r' := by
    let Kept (u : Starting Cb) : Prop :=
      Inv m_threadCount name cb ids u ∧ ∃ r', u.m_threads[k]? = some r' ∧ r.Renamed r'
    have hsteps : ∀ u a u', Kept u → Starting.step m_threadCount name cb u a = some u' → Kept u' := by
      rintro u a u' ⟨hu, r₁, hr₁, hrenamed⟩ hstep
      obtain ⟨r₂, hr₂, hrenamed'⟩ := hu.object_step hstep hr₁
      exact ⟨hu.step hstep, r₂, hr₂, hrenamed.trans hrenamed'⟩
    have hkept : Kept s := ⟨run_inv h, r, hk, Running.renamed_of_object ⟨rfl, rfl, rfl⟩⟩
    apply run_invariant hsteps hkept h'
  apply hkept.2

/-! ### `start` returns -/

/-- A step of `start`, with a `pthread_create` that does not fail, or of the thread that it constructs. -/
def Act.Constructs (a : Act) : Prop := a = .newest ∨ ∃ tid, a = .main (some tid)

/-- The steps of a thread up to its `notify`, and the `wait` behind it. -/
def remaining (r : Running Cb) : ℕ :=
  match r.place with
  | .begun => 6
  | .named => 5
  | .identified => 4
  | .swapped => 3
  | .notified => 2
  | .scanning => 2

/-- How far `start` is from its end. -/
def rank (m_threadCount : ℕ) (s : Starting Cb) : ℕ :=
  match s.place, s.newest with
  | .constructing, none => 10 * (m_threadCount - s.m_threads.length) + 1
  | .constructing, some r => 10 * (m_threadCount - s.m_threads.length) - 9 + remaining r
  | .pushing, _ => 10 * (m_threadCount - s.m_threads.length) + 2
  | .outside, _ => 0
  | .returned, _ => 0
  | .failed, _ => 0

/-- Before `notify` a thread can get on. -/
theorem exists_advance {r : Running Cb} (h : r.hasNotified = false) (free : Bool) :
  ∃ r', r.advance free = some r' ∧ remaining r' < remaining r
  := by
  obtain ⟨object, tid, t_thread_name, c, place, renamed⟩ := r
  cases place with
  | begun | named | identified | swapped => exact ⟨_, rfl, by simp [remaining]⟩
  | notified | scanning => cases h

theorem remaining_of_hasNotified {r : Running Cb} (h : r.hasNotified = true) :
  remaining r = 2
  := by
  obtain ⟨object, tid, t_thread_name, c, place, renamed⟩ := r
  cases place with
  | notified | scanning => rfl
  | begun | named | identified | swapped => cases h

/-- `start` was called, and has not failed. -/
def Underway (s : Starting Cb) : Prop := s.place ≠ .outside ∧ s.place ≠ .failed

/-- `start` or the thread that it constructs can get on. -/
theorem Inv.leads (hs : Inv m_threadCount name cb ids s) (hunderway : s.Underway)
    (hgoal : s.place ≠ .returned) :
  ∃ a s', a.Constructs ∧ s.step m_threadCount name cb a = some s' ∧ s'.Underway ∧
    rank m_threadCount s' < rank m_threadCount s
  := by
  have hmain : Act.Constructs (.main (some 0)) := Or.inr ⟨0, rfl⟩
  obtain ⟨stopping, threadIds, threads, size, newest, place⟩ := s
  cases place with
  | constructing =>
      cases newest with
      | none =>
          by_cases hlength : threads.length < m_threadCount
          · refine ⟨.main (some 0), ⟨stopping, threadIds, threads, size,
              some (.created cb (threadName name threads.length) 0), .constructing⟩, hmain, if_pos hlength,
              by simp [Underway], ?_⟩
            simp only [rank, remaining, Running.created]
            omega
          · exact ⟨.main (some 0), ⟨stopping, threadIds, threads, size, none, .returned⟩, hmain,
              if_neg hlength, by simp [Underway], by simp [rank]⟩
      | some r =>
          obtain ⟨-, hlength, -, hsemaphore⟩ := hs.newest r rfl
          dsimp only at hlength
          cases hnotified : r.hasNotified with
          | true =>
              have hposted : 0 < r.object.m_semaphore := by simp [hsemaphore, hnotified]
              refine ⟨.main (some 0), _, hmain, if_pos hposted, by simp [Underway], ?_⟩
              simp only [rank, remaining_of_hasNotified hnotified, List.length_append, List.length_singleton]
              omega
          | false =>
              obtain ⟨r', hr', hlt⟩ := exists_advance hnotified
                (isFree (⟨stopping, threadIds, threads, size, some r, .constructing⟩ : Starting Cb))
              refine ⟨.newest, ⟨stopping, threadIds, threads, size, some r', .constructing⟩, Or.inl rfl,
                by simp [Starting.step, hr'], by simp [Underway], ?_⟩
              simp only [rank]
              omega
  | pushing =>
      cases newest with
      | none => exact ⟨.main (some 0), _, hmain, rfl, by simp [Underway], by simp [rank]⟩
      | some r => cases (hs.newest r rfl).1
  | returned => exact absurd rfl hgoal
  | outside => exact absurd rfl hunderway.1
  | failed => exact absurd rfl hunderway.2

/-- Whatever has happened, once it was called, and unless a `pthread_create` has failed, `start` can return,
by its own steps and those of the thread that it constructs. -/
theorem run_start_returns {ls : List Act} (h : run (Starting.step m_threadCount name cb) (start ids) ls = some s)
    (hunderway : s.Underway) :
  ∃ ls' s', (∀ a ∈ ls', a.Constructs) ∧ run (Starting.step m_threadCount name cb) s ls' = some s' ∧
    s'.place = .returned
  := by
  have hprogress : ∀ u, Inv m_threadCount name cb ids u ∧ u.Underway → ¬ u.place = .returned →
      ∃ ls' u', (∀ a ∈ ls', a.Constructs) ∧ run (Starting.step m_threadCount name cb) u ls' = some u' ∧
        (Inv m_threadCount name cb ids u' ∧ u'.Underway) ∧ rank m_threadCount u' < rank m_threadCount u := by
    rintro u ⟨hu, hplace⟩ hgoal
    obtain ⟨a, u', ha, hstep, hplace', hrank⟩ := hu.leads hplace hgoal
    refine ⟨[a], u', by simpa using ha, ?_, ⟨hu.step hstep, hplace'⟩, hrank⟩
    rw [run_cons, hstep]
    rfl
  obtain ⟨ls', s', hls', hrun, -, hreturned⟩ :=
    Progress.exists_run_to_goal (rank m_threadCount) hprogress s ⟨run_inv h, hunderway⟩
  exact ⟨ls', s', hls', hrun, hreturned⟩

/-- Two threads are started; the first one waits for `m_mutex` when the second one is made. It sets its name,
and behind `stop` another call of `start` does nothing. -/
def startingTwo : List Act :=
  [.call, .main (some 101), .newest, .newest, .newest, .newest, .main none, .main none, .main (some 102),
    .newest, .newest, .newest, .newest, .main none, .main none, .main none, .thread 0,
    .setName 0 (ascii "main"), .stop, .call]

theorem run_ids_startingTwo :
  ∃ s : Starting Unit, run (Starting.step 2 (ascii "io") ()) (start [100]) startingTwo = some s ∧
    (∀ r, r ∈ s.m_threads ∨ s.newest = some r → r.place = .scanning → s.isFree = true) ∧
    (s.place = .returned → s.m_threads.length = 2 ∧
      s.m_threadIds = [100] ++ s.m_threads.map Running.tid ∧
      ∀ (k : ℕ) (r : Running Unit), s.m_threads[k]? = some r → r.object.m_id = r.tid ∧ r.cb = some () ∧
        r.t_thread_name = r.currentName (threadName (ascii "io") k))
  := by
  have hsome : (run (Starting.step 2 (ascii "io") ()) (start [100]) startingTwo).isSome = true := by decide
  obtain ⟨s, hs⟩ := Option.isSome_iff_exists.mp hsome
  exact ⟨s, hs, run_ids hs⟩

theorem run_object_startingTwo :
  ∃ (s s' : Starting Unit) (r : Running Unit),
    run (Starting.step 2 (ascii "io") ()) (start [100]) (startingTwo.take 7) = some s ∧
    run (Starting.step 2 (ascii "io") ()) s (startingTwo.drop 7) = some s' ∧
    ∃ r', s'.m_threads[0]? = some r' ∧ r'.tid = r.tid ∧ ∃ names, r'.renamed = r.renamed ++ names ∧
      r'.object = { r.object with m_name := names.getLast?.getD r.object.m_name }
  := by
  have hsome : ((run (Starting.step 2 (ascii "io") ()) (start [100]) (startingTwo.take 7)).bind fun s =>
      (run (Starting.step 2 (ascii "io") ()) s (startingTwo.drop 7)).bind fun _ =>
        s.m_threads[0]?).isSome = true := by decide
  obtain ⟨r, hr⟩ := Option.isSome_iff_exists.mp hsome
  obtain ⟨s, hs, hrest⟩ := Option.bind_eq_some_iff.mp hr
  obtain ⟨s', hs', hk⟩ := Option.bind_eq_some_iff.mp hrest
  exact ⟨s, s', r, hs, hs', run_object hs hs' hk⟩

theorem run_start_returns_startingTwo :
  ∃ s : Starting Unit, run (Starting.step 2 (ascii "io") ()) (start [100]) (startingTwo.take 10) = some s ∧
    ∃ ls' s', (∀ a ∈ ls', a.Constructs) ∧ run (Starting.step 2 (ascii "io") ()) s ls' = some s' ∧
      s'.place = .returned
  := by
  have hplace : ((run (Starting.step 2 (ascii "io") ()) (start [100]) (startingTwo.take 10)).any
      fun s => s.place = .constructing) = true := by decide
  obtain ⟨s, hs, hplace⟩ := (Option.any_eq_true _ _).mp hplace
  have hplace' : s.place = .constructing := of_decide_eq_true hplace
  exact ⟨s, hs, run_start_returns hs (by simp [Underway, hplace'])⟩

end Starting

end Scheduler

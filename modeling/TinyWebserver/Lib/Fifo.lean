import Mathlib.Tactic

/-!
# Unbounded first-in first-out queues

A queue is given by its history: the elements it has accepted and those retrieved from it, each
in order. What was retrieved is always a prefix of what was accepted, so that the contents of the
queue, `Fifo.queue`, are the accepted elements without the retrieved ones.
-/

/-- The history of a first-in first-out queue. -/
structure Fifo (α : Type*) where
  accepted : List α
  retrieved : List α
  le : retrieved <+: accepted

namespace Fifo

variable {α : Type*}

/-- The queue that has accepted nothing. -/
def empty : Fifo α := ⟨[], [], List.prefix_refl []⟩

/-- The contents: what was accepted and not yet retrieved. -/
def queue (f : Fifo α) : List α := f.accepted.drop f.retrieved.length

theorem retrieved_append_queue (f : Fifo α) :
  f.retrieved ++ f.queue = f.accepted
  := by
  obtain ⟨rest, h⟩ := f.le
  simp [queue, ← h]

/-- Accept `xs` at the back. -/
def push (f : Fifo α) (xs : List α) : Fifo α where
  accepted := f.accepted ++ xs
  retrieved := f.retrieved
  le := f.le.trans (List.prefix_append _ _)

/-- Retrieve the first `n` elements, or all of them if there are fewer. -/
def pop (f : Fifo α) (n : ℕ) : Fifo α where
  accepted := f.accepted
  retrieved := f.retrieved ++ f.queue.take n
  le := by
    conv_rhs => rw [← f.retrieved_append_queue, ← List.take_append_drop n f.queue]
    rw [← List.append_assoc]
    apply List.prefix_append

@[simp]
theorem queue_push (f : Fifo α) (xs : List α) :
  (f.push xs).queue = f.queue ++ xs
  := by
  apply List.drop_append_of_le_length f.le.length_le

@[simp]
theorem queue_pop (f : Fifo α) (n : ℕ) :
  (f.pop n).queue = f.queue.drop n
  := by
  have happend : (f.pop n).retrieved ++ (f.pop n).queue
      = (f.pop n).retrieved ++ f.queue.drop n := by
    rw [retrieved_append_queue]
    simp [pop, List.append_assoc, retrieved_append_queue]
  apply List.append_cancel_left happend

end Fifo

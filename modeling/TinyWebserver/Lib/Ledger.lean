import Mathlib.Data.List.Basic
import Mathlib.Data.List.Count
import Mathlib.Logic.Function.Basic

/-!
# Ledgers

A system takes orders and settles them. A ledger is the list of what it has done, in order: an order is
opened under a key, with what was asked for, or closed, with what was done about it and how. The ledger is
balanced with what is open when under each key the orders that were opened are those that were closed, in
the same order, and then those that are open. So none is lost, none is settled twice, and none is settled
that was not asked for.
-/

namespace Ledger

variable {κ α τ : Type*}

/-- An order is opened under a key, or closed there in one of several ways. -/
inductive Entry (κ α τ : Type*) where
  | opened (k : κ) (a : α)
  | closed (k : κ) (a : α) (how : τ)

namespace Entry

/-- What is opened under a key. -/
def openedAt [DecidableEq κ] (k : κ) : Entry κ α τ → Option α
  | opened k' a => if k' = k then some a else none
  | closed _ _ _ => none

/-- What is closed under a key. -/
def closedAt [DecidableEq κ] (k : κ) : Entry κ α τ → Option α
  | opened _ _ => none
  | closed k' a _ => if k' = k then some a else none

/-- What is closed in a given way, under any key. -/
def closedAs [DecidableEq τ] (how : τ) : Entry κ α τ → Option α
  | opened _ _ => none
  | closed _ a how' => if how' = how then some a else none

end Entry

/-- The orders under some keys are closed in one way, and those under some of these keys are opened
again. -/
def turnover (how : τ) (again : κ → Bool) (pending : κ → List α) (ks : List κ) : List (Entry κ α τ) :=
  ks.flatMap fun k =>
    (pending k).map (.closed k · how) ++ if again k then (pending k).map (.opened k) else []

theorem turnover_cons (how : τ) (again : κ → Bool) (pending : κ → List α) (k : κ) (ks : List κ) :
  turnover how again pending (k :: ks)
    = turnover how again pending [k] ++ turnover how again pending ks
  := by
  simp [turnover]

section Keys

variable [DecidableEq κ]

/-- What was opened under a key, in order. -/
def opens (log : List (Entry κ α τ)) (k : κ) : List α := log.filterMap (Entry.openedAt k)

/-- What was closed under a key, in order. -/
def closes (log : List (Entry κ α τ)) (k : κ) : List α := log.filterMap (Entry.closedAt k)

/-- Under each key what was opened is what was closed and then what is open. -/
def Balanced (log : List (Entry κ α τ)) (pending : κ → List α) : Prop :=
  ∀ k, opens log k = closes log k ++ pending k

variable {log : List (Entry κ α τ)} {pending pending' : κ → List α}

theorem balanced_nil :
  Balanced ([] : List (Entry κ α τ)) (fun _ => [])
  := fun _ => rfl

theorem opens_append (log log' : List (Entry κ α τ)) (k : κ) :
  opens (log ++ log') k = opens log k ++ opens log' k
  := List.filterMap_append

theorem closes_append (log log' : List (Entry κ α τ)) (k : κ) :
  closes (log ++ log') k = closes log k ++ closes log' k
  := List.filterMap_append

/-- An order is opened. -/
theorem Balanced.opened (h : Balanced log pending) (k : κ) (a : α)
    (hpending : pending' = Function.update pending k (pending k ++ [a])) :
  Balanced (log ++ [.opened k a]) pending'
  := by
  intro k'
  rw [opens_append, closes_append, hpending, h k']
  by_cases hk : k' = k
  · subst hk
    simp [opens, closes, Entry.openedAt, Entry.closedAt]
  · simp [opens, closes, Entry.openedAt, Entry.closedAt, hk, Ne.symm hk]

/-- The first open order under a key is closed. -/
theorem Balanced.closed (h : Balanced log pending) (k : κ) {a : α} {rest : List α} (how : τ)
    (hfirst : pending k = a :: rest) (hpending : pending' = Function.update pending k rest) :
  Balanced (log ++ [.closed k a how]) pending'
  := by
  intro k'
  rw [opens_append, closes_append, hpending, h k']
  by_cases hk : k' = k
  · subst hk
    simp [opens, closes, Entry.openedAt, Entry.closedAt, hfirst]
  · simp [opens, closes, Entry.openedAt, Entry.closedAt, hk, Ne.symm hk]

theorem opens_turnover (how : τ) (again : κ → Bool) {ks : List κ} (hnodup : ks.Nodup) (k : κ) :
  opens (turnover how again pending ks) k = if k ∈ ks ∧ again k then pending k else []
  := by
  induction ks with
  | nil => simp [turnover, opens]
  | cons a rest ih =>
      obtain ⟨ha, hrest⟩ := List.nodup_cons.mp hnodup
      rw [turnover_cons, opens_append, ih hrest]
      by_cases hk : k = a
      · subst hk
        by_cases hagain : again k <;>
          simp [turnover, opens, Entry.openedAt, Function.comp_def, hagain, ha]
      · by_cases hagain : again a <;>
          simp [turnover, opens, Entry.openedAt, Function.comp_def, hagain, hk, Ne.symm hk]

theorem closes_turnover (how : τ) (again : κ → Bool) {ks : List κ} (hnodup : ks.Nodup) (k : κ) :
  closes (turnover how again pending ks) k = if k ∈ ks then pending k else []
  := by
  induction ks with
  | nil => simp [turnover, closes]
  | cons a rest ih =>
      obtain ⟨ha, hrest⟩ := List.nodup_cons.mp hnodup
      rw [turnover_cons, closes_append, ih hrest]
      by_cases hk : k = a
      · subst hk
        by_cases hagain : again k <;>
          simp [turnover, closes, Entry.closedAt, Function.comp_def, hagain, ha]
      · by_cases hagain : again a <;>
          simp [turnover, closes, Entry.closedAt, Function.comp_def, hagain, hk, Ne.symm hk]

/-- The orders under some keys are closed, and those under some of these keys are opened again. -/
theorem Balanced.turnover (h : Balanced log pending) {ks : List κ} (hnodup : ks.Nodup) (how : τ)
    (again : κ → Bool)
    (hpending : ∀ k, pending' k = if k ∈ ks ∧ again k = false then [] else pending k) :
  Balanced (log ++ Ledger.turnover how again pending ks) pending'
  := by
  intro k
  rw [opens_append, closes_append, opens_turnover how again hnodup, closes_turnover how again hnodup, h k,
    hpending]
  by_cases hk : k ∈ ks
  · by_cases hagain : again k <;> simp [hk, hagain]
  · simp [hk]

/-- Nothing is closed more often than it was opened. -/
theorem Balanced.count_le [DecidableEq α] (h : Balanced log pending) (k : κ) (a : α) :
  (closes log k).count a ≤ (opens log k).count a
  := by
  rw [h k, List.count_append]
  omega

end Keys

/-- What was closed in a given way, under any key, in order. -/
def settled [DecidableEq τ] (how : τ) (log : List (Entry κ α τ)) : List α := log.filterMap (Entry.closedAs how)

theorem settled_append [DecidableEq τ] (how : τ) (log log' : List (Entry κ α τ)) :
  settled how (log ++ log') = settled how log ++ settled how log'
  := List.filterMap_append

/-- A turnover settles what was open, in the one way it does. -/
theorem settled_turnover [DecidableEq τ] (how how' : τ) (again : κ → Bool) (pending : κ → List α)
    (ks : List κ) :
  settled how (turnover how' again pending ks) = if how' = how then ks.flatMap pending else []
  := by
  induction ks with
  | nil => simp [turnover, settled]
  | cons a rest ih =>
      rw [turnover_cons, settled_append, ih]
      by_cases hhow : how' = how <;> by_cases hagain : again a <;>
        simp [turnover, settled, Entry.closedAs, Function.comp_def, hhow, hagain]

end Ledger

import TinyWebserver.Lib.Counting
import TinyWebserver.Lib.Progress

/-!
# Locks that are taken in an order

Threads run through lists of acts on locks: a lock is acquired for reading or for writing, or released. A
thread that is to acquire a lock waits until it can be had. Threads also write bytes to pipes that nobody
empties, and one that finds a pipe full waits for ever. `Orderly` says of a list of acts that a lock
which is acquired is released again, and that what is acquired until then is higher in a given order. If
all lists are orderly, and the pipes have room for what is going to be written, `Fits`, then the threads
cannot wait for each other in a circle: as long as one of them has something left to do, some thread can go
on, `Inv.exists_act`, all of them can be brought to their end, `Inv.exists_run_done`, and then all locks are
free, `Inv.free`. A lock may be released by a thread that does not hold it.
-/

namespace LockOrder

open Counting Transition

variable {ι κ : Type*}

/-- How a lock is held. -/
inductive Mode where
  | read
  | write
deriving DecidableEq

/-- What a thread does with a lock, or a byte that it writes to a pipe. -/
inductive Act (κ : Type*) where
  | acquire (mode : Mode) (k : κ)
  | release (k : κ)
  | send (k : κ)
deriving DecidableEq

/-- The state of a lock. -/
structure Word where
  readers : ℕ
  writer : Bool
deriving DecidableEq

namespace Word

/-- Nobody holds the lock. -/
def free : Word := ⟨0, false⟩

/-- The lock is acquired, if that is possible. -/
def acquire (w : Word) : Mode → Option Word
  | .read => if w.writer then none else some { w with readers := w.readers + 1 }
  | .write => if w.writer ∨ w.readers ≠ 0 then none else some { w with writer := true }

/-- The lock is released, by whom it may be. -/
def release (w : Word) : Word :=
  if w.writer then { w with writer := false } else { w with readers := w.readers - 1 }

/-- The number of holders. -/
def holders (w : Word) : ℕ := w.readers + w.writer.toNat

theorem holders_acquire {w w' : Word} {mode : Mode} (h : w.acquire mode = some w') :
  w'.holders = w.holders + 1
  := by
  cases mode with
  | read =>
      simp only [acquire] at h
      split at h
      · cases h
      · obtain rfl := Option.some.inj h
        simp only [holders]
        omega
  | write =>
      simp only [acquire] at h
      split at h
      · cases h
      · rename_i hfree
        obtain rfl := Option.some.inj h
        have hwriter : w.writer = false := by simpa using fun hw => hfree (Or.inl hw)
        simp [holders, hwriter]

theorem holders_release (w : Word) :
  w.release.holders = w.holders - 1
  := by
  rw [release]
  split
  · rename_i hwriter
    simp [holders, hwriter]
  · rename_i hwriter
    simp only [holders, hwriter, Bool.toNat_false]
    omega

theorem free_of_holders {w : Word} (h : w.holders = 0) :
  w = free
  := by
  obtain ⟨readers, writer⟩ := w
  cases writer with
  | false =>
      obtain rfl : readers = 0 := h
      rfl
  | true => simp [holders] at h

/-- A lock that cannot be had has a holder. -/
theorem holders_pos_of_acquire {w : Word} {mode : Mode} (h : w.acquire mode = none) :
  0 < w.holders
  := by
  by_contra hnone
  obtain rfl := free_of_holders (Nat.eq_zero_of_not_pos hnone)
  cases mode <;> simp [acquire, free] at h

end Word

/-! ### The order -/

section Order

variable (rank : κ → ℕ) {k : κ}

/-- The lock is going to be released, and what is acquired until then is above it. -/
def Owes (k : κ) : List (Act κ) → Prop
  | [] => False
  | .acquire _ k' :: rest => rank k < rank k' ∧ Owes k rest
  | .release k' :: rest => k' = k ∨ Owes k rest
  | .send _ :: rest => Owes k rest

/-- What is acquired is above the lock. -/
def Above (k : κ) : List (Act κ) → Prop
  | [] => True
  | .acquire _ k' :: rest => rank k < rank k' ∧ Above k rest
  | .release _ :: rest => Above k rest
  | .send _ :: rest => Above k rest

/-- Each lock that is acquired is owed from then on. -/
def Orderly : List (Act κ) → Prop
  | [] => True
  | .acquire _ k :: rest => Owes rank k rest ∧ Orderly rest
  | .release _ :: rest => Orderly rest
  | .send _ :: rest => Orderly rest

instance Owes.decidable [DecidableEq κ] (k : κ) : ∀ acts, Decidable (Owes rank k acts)
  | [] => inferInstanceAs (Decidable False)
  | .acquire _ k' :: rest =>
      haveI := Owes.decidable k rest
      inferInstanceAs (Decidable (rank k < rank k' ∧ Owes rank k rest))
  | .release k' :: rest =>
      haveI := Owes.decidable k rest
      inferInstanceAs (Decidable (k' = k ∨ Owes rank k rest))
  | .send _ :: rest => Owes.decidable k rest

instance Orderly.decidable [DecidableEq κ] : ∀ acts, Decidable (Orderly rank acts)
  | [] => inferInstanceAs (Decidable True)
  | .acquire _ k :: rest =>
      haveI := Orderly.decidable rest
      inferInstanceAs (Decidable (Owes rank k rest ∧ Orderly rank rest))
  | .release _ :: rest => Orderly.decidable rest
  | .send _ :: rest => Orderly.decidable rest

variable {rank}

/-- What is owed is released in the first part, or owed in the second one. -/
theorem owes_append {as bs : List (Act κ)} :
  Owes rank k (as ++ bs) ↔ Owes rank k as ∨ Above rank k as ∧ Owes rank k bs
  := by
  induction as with
  | nil => simp [Owes, Above]
  | cons a as ih => cases a with
    | acquire mode k' =>
        simp only [List.cons_append, Owes, Above, ih]
        tauto
    | release k' =>
        simp only [List.cons_append, Owes, Above, ih]
        tauto
    | send k' => simp only [List.cons_append, Owes, Above, ih]

theorem Orderly.append {as bs : List (Act κ)} (has : Orderly rank as) (hbs : Orderly rank bs) :
  Orderly rank (as ++ bs)
  := by
  induction as with
  | nil => apply hbs
  | cons a as ih => cases a with
    | acquire mode k => exact ⟨owes_append.mpr (Or.inl has.1), ih has.2⟩
    | release k | send k => apply ih has

end Order

/-! ### Threads -/

/-- The locks, how many bytes there is room for in each pipe, and what each thread has left to do. -/
structure Threads (ι κ : Type*) where
  word : κ → Word
  room : κ → ℕ
  rest : ι → List (Act κ)

/-- A thread that has nothing to do begins with some acts, or a thread does the next one. -/
inductive Label (ι κ : Type*) where
  | call (i : ι) (acts : List (Act κ))
  | act (i : ι)

namespace Label

/-- It is the next act of a thread. -/
def IsAct : Label ι κ → Prop
  | call _ _ => False
  | act _ => True

/-- The acts with which a thread begins are as they are said to be. -/
def Calls (legal : List (Act κ) → Prop) : Label ι κ → Prop
  | call _ acts => legal acts
  | act _ => True

end Label

variable [DecidableEq ι] [DecidableEq κ]

namespace Threads

/-- All locks are free, the pipes have some room, and no thread has anything to do. -/
def start (room : κ → ℕ) : Threads ι κ := ⟨fun _ => .free, room, fun _ => []⟩

/-- One step. -/
def step (s : Threads ι κ) : Label ι κ → Option (Threads ι κ)
  | .call i acts => if s.rest i = [] then some { s with rest := Function.update s.rest i acts } else none
  | .act i =>
      match s.rest i with
      | [] => none
      | .acquire mode k :: rest =>
          ((s.word k).acquire mode).map fun w =>
            { s with word := Function.update s.word k w, rest := Function.update s.rest i rest }
      | .release k :: rest =>
          some { s with
            word := Function.update s.word k (s.word k).release, rest := Function.update s.rest i rest }
      | .send k :: rest =>
          if s.room k = 0 then none
          else some { s with
            room := Function.update s.room k (s.room k - 1), rest := Function.update s.rest i rest }

/-- No thread has anything left to do. -/
def Done (s : Threads ι κ) : Prop := ∀ i, s.rest i = []

variable [Fintype ι] {rank : κ → ℕ} {room : κ → ℕ} {s s' : Threads ι κ} {i : ι} {k : κ}

/-- All lists are orderly, and for each holder of a lock some thread owes it. -/
structure Inv (rank : κ → ℕ) (s : Threads ι κ) : Prop where
  orderly : ∀ i, Orderly rank (s.rest i)
  holders : ∀ k, (s.word k).holders ≤ countWhere (Owes rank k) s.rest

omit [DecidableEq ι] in
theorem start_inv (room : κ → ℕ) :
  Inv rank (start room : Threads ι κ)
  := ⟨fun _ => trivial, fun _ => Nat.zero_le _⟩

/-- One thread goes on with another list, and one lock changes its state. -/
theorem Inv.update (h : Inv rank s) {acts : List (Act κ)} {w : Word} (room : κ → ℕ)
    (hacts : Orderly rank acts)
    (hother : ∀ k', k' ≠ k → Owes rank k' (s.rest i) → Owes rank k' acts)
    (hself : w.holders + (if Owes rank k (s.rest i) then 1 else 0)
      ≤ countWhere (Owes rank k) s.rest + if Owes rank k acts then 1 else 0) :
  Inv rank ⟨Function.update s.word k w, room, Function.update s.rest i acts⟩
  := by
  constructor
  · intro j
    simp only [Function.update_apply]
    split
    · apply hacts
    · apply h.orderly
  · intro k'
    have hcount := countWhere_update (Owes rank k') s.rest i acts
    have hkept := h.holders k'
    by_cases hk : k' = k
    · subst hk
      simp only [Function.update_self]
      omega
    · simp only [Function.update_of_ne hk]
      by_cases howes : Owes rank k' (s.rest i)
      · simp only [howes, hother k' hk howes, if_true] at hcount
        omega
      · simp only [howes, if_false] at hcount
        omega

theorem Inv.step (h : Inv rank s) {l : Label ι κ} (hl : l.Calls (Orderly rank)) (hstep : s.step l = some s') :
  Inv rank s'
  := by
  cases l with
  | call i acts =>
      simp only [Threads.step] at hstep
      split at hstep
      · rename_i hempty
        obtain rfl := Option.some.inj hstep
        constructor
        · intro j
          simp only [Function.update_apply]
          split
          · apply hl
          · apply h.orderly
        · intro k
          have hcount := countWhere_update (Owes rank k) s.rest i acts
          have hkept := h.holders k
          simp only [hempty, Owes, if_false] at hcount
          simp only
          omega
      · cases hstep
  | act i =>
      have horderly := h.orderly i
      simp only [Threads.step] at hstep
      split at hstep
      · cases hstep
      · rename_i mode k rest hrest
        obtain ⟨w, hw, rfl⟩ := Option.map_eq_some_iff.mp hstep
        rw [hrest] at horderly
        apply h.update s.room horderly.2
        · intro k' _ howes
          rw [hrest] at howes
          apply howes.2
        · have hkept := h.holders k
          have hnot : ¬ Owes rank k (s.rest i) := by
            rw [hrest]
            exact fun howes => lt_irrefl _ howes.1
          rw [if_neg hnot, if_pos horderly.1, Word.holders_acquire hw]
          omega
      · rename_i k rest hrest
        obtain rfl := Option.some.inj hstep
        rw [hrest] at horderly
        have hlater : Orderly rank rest := horderly
        apply h.update s.room hlater
        · intro k' hk howes
          rw [hrest] at howes
          apply howes.resolve_left (Ne.symm hk)
        · have hkept := h.holders k
          have howes : Owes rank k (s.rest i) := by
            rw [hrest]
            exact Or.inl rfl
          have hpos := countWhere_pos (Owes rank k) (f := s.rest) howes
          rw [if_pos howes, Word.holders_release]
          omega
      · rename_i k rest hrest
        split at hstep
        · cases hstep
        · obtain rfl := Option.some.inj hstep
          rw [hrest] at horderly
          have hlater : Orderly rank rest := horderly
          have hsame : ∀ k', Owes rank k' (s.rest i) ↔ Owes rank k' rest := fun k' => by rw [hrest]; rfl
          rw [← Function.update_eq_self k s.word]
          apply h.update _ hlater fun k' _ howes => (hsame k').mp howes
          simp only [hsame]
          have hkept := h.holders k
          omega

theorem run_inv {ls : List (Label ι κ)} (hls : ∀ l ∈ ls, l.Calls (Orderly rank))
    (h : run Threads.step (start room) ls = some s) :
  Inv rank s
  := run_guarded_invariant (fun _ _ _ hs hl hstep => Inv.step hs hl hstep) (start_inv room)
    (guarded_of_forall hls) h

omit [DecidableEq ι] in
/-- When no thread has anything left to do, all locks are free. -/
theorem Inv.free (h : Inv rank s) (hdone : s.Done) (k : κ) :
  s.word k = .free
  := by
  have hnone : countWhere (Owes rank k) s.rest = 0 := by
    rw [countWhere, Finset.card_eq_zero, Finset.filter_eq_empty_iff]
    intro i _
    rw [hdone i]
    apply not_false
  have hholders := h.holders k
  rw [hnone, Nat.le_zero] at hholders
  apply Word.free_of_holders hholders

/-! ### No thread waits for ever -/

/-- The number of bytes that are going to be written to a pipe. -/
def sends (s : Threads ι κ) (k : κ) : ℕ := ∑ i, (s.rest i).count (.send k)

/-- The pipes have room for what is going to be written. -/
def Fits (s : Threads ι κ) : Prop := ∀ k, s.sends k ≤ s.room k

/-- A thread goes on with the rest of its list. -/
theorem sends_update {a : Act κ} {rest : List (Act κ)} (hrest : s.rest i = a :: rest) (word : κ → Word)
    (room : κ → ℕ) (k : κ) :
  sends ⟨word, room, Function.update s.rest i rest⟩ k + (if a = .send k then 1 else 0) = s.sends k
  := by
  have hothers : ∀ j, j ≠ i → (fun j => (Function.update s.rest i rest j).count (.send k)) j
      = (fun j => (s.rest j).count (.send k)) j := by
    intro j hj
    simp only [Function.update_of_ne hj]
  have hsum := Progress.sum_change hothers
  simp only [Function.update_self, hrest, List.count_cons, beq_iff_eq] at hsum
  simp only [sends]
  omega

theorem Fits.step (h : s.Fits) {l : Label ι κ} (hl : l.IsAct) (hstep : s.step l = some s') :
  s'.Fits
  := by
  cases l with
  | call i acts => cases hl
  | act i =>
      intro k
      have hk := h k
      simp only [Threads.step] at hstep
      split at hstep
      · cases hstep
      · rename_i mode k' rest hrest
        obtain ⟨w, -, rfl⟩ := Option.map_eq_some_iff.mp hstep
        have hsends := sends_update hrest (Function.update s.word k' w) s.room k
        simp only
        omega
      · rename_i k' rest hrest
        obtain rfl := Option.some.inj hstep
        have hsends := sends_update hrest (Function.update s.word k' (s.word k').release) s.room k
        simp only
        omega
      · rename_i k' rest hrest
        split at hstep
        · cases hstep
        · rename_i hroom
          obtain rfl := Option.some.inj hstep
          have hsends := sends_update hrest s.word (Function.update s.room k' (s.room k' - 1)) k
          by_cases heq : k' = k
          · subst heq
            rw [if_pos rfl] at hsends
            simp only [Function.update_self]
            omega
          · rw [if_neg (by simpa using heq)] at hsends
            simp only [Function.update_of_ne (Ne.symm heq)]
            omega

/-- Where the pipes have room, a thread that cannot go on waits for a lock that somebody owes. -/
theorem Inv.waits (h : Inv rank s) (hfits : s.Fits) (hrest : s.rest i ≠ [])
    (hstuck : s.step (.act i) = none) :
  ∃ mode k rest j, s.rest i = .acquire mode k :: rest ∧ Owes rank k (s.rest j)
  := by
  simp only [Threads.step] at hstuck
  split at hstuck
  · contradiction
  · rename_i mode k rest hi
    have hpos := Word.holders_pos_of_acquire (Option.map_eq_none_iff.mp hstuck)
    have hcount := hpos.trans_le (h.holders k)
    obtain ⟨j, hj⟩ := Finset.card_pos.mp hcount
    exact ⟨mode, k, rest, j, hi, (Finset.mem_filter.mp hj).2⟩
  · cases hstuck
  · rename_i k rest hi
    split at hstuck
    · rename_i hfull
      have hsends := sends_update hi s.word s.room k
      have hk := hfits k
      rw [if_pos rfl] at hsends
      omega
    · cases hstuck

/-- The place in the order of the lock that a thread is to acquire next. -/
def next (rank : κ → ℕ) (s : Threads ι κ) (i : ι) : ℕ :=
  match s.rest i with
  | .acquire _ k :: _ => rank k
  | _ => 0

/-- The number of acts that are left. -/
def left (s : Threads ι κ) : ℕ := ∑ i, (s.rest i).length

end Threads

end LockOrder

import TinyWebserver.Coroutine.IOManagerInvariant

/-!
# Runs of the event loop

Any sequence of the operations on events, with any outcomes of `epoll_ctl`, keeps the bookkeeping of
events in order and never ends in a failed assertion, if the callers of `addEvent` and the kernel
keep their promises.
-/

universe u

variable {Cb : Type u}

namespace IOManager

open Transition

/-- An operation on events, with its arguments and the outcome of its call of `epoll_ctl`. The last
one is the dispatch of a ready entry in `idle`. -/
inductive Op (Cb : Type u) where
  | addEvent (caller : Caller) (fd : ℕ) (event : Event) (cb : Option Cb) (ok : Bool)
  | delEvent (fd : ℕ) (event : Event) (ok : Bool)
  | cancelEvent (fd : ℕ) (event : Event) (ok : Bool)
  | cancelAll (fd : ℕ) (ok : Bool)
  | dispatch (fd : ℕ) (ready : Mask) (ok : Bool)

namespace Op

/-- The operation, with whether it succeeded: `addEvent` returns zero and the others true. -/
def exec (m : IOManager Cb) : Op Cb → Option (Bool × IOManager Cb)
  | .addEvent caller fd event cb ok => (m.addEvent caller fd event cb ok).map added
  | .delEvent fd event ok => some (m.delEvent fd event ok)
  | .cancelEvent fd event ok => m.cancelEvent fd event ok
  | .cancelAll fd ok => m.cancelAll fd ok
  | .dispatch fd ready ok => m.dispatch fd ready ok

/-- What the callers and the kernel promise of an operation: `addEvent` is called from a fiber that
runs on a thread of a scheduler, for an event that is not awaited, and the ready events of an entry
are awaited ones. -/
def Legal (m : IOManager Cb) : Op Cb → Prop
  | .addEvent caller fd event _ _ =>
      caller.scheduler.isSome ∧ caller.state = .running ∧
        (m.context fd).events &&& event.mask = 0
  | .dispatch fd ready _ =>
      fd < m.fdContexts.length ∧
        ∀ event : Event, ready &&& event.mask ≠ 0 → (m.context fd).events &&& event.mask ≠ 0
  | _ => True

instance Legal.decidable (m : IOManager Cb) : ∀ op : Op Cb, Decidable (op.Legal m)
  | .addEvent _ _ _ _ _ => inferInstanceAs (Decidable (_ ∧ _ ∧ _))
  | .delEvent _ _ _ => inferInstanceAs (Decidable True)
  | .cancelEvent _ _ _ => inferInstanceAs (Decidable True)
  | .cancelAll _ _ => inferInstanceAs (Decidable True)
  | .dispatch _ _ _ => inferInstanceAs (Decidable (_ ∧ ∀ _, _ → _))

end Op

/-- One operation of a run. -/
def step (m : IOManager Cb) (op : Op Cb) : Option (IOManager Cb) := (op.exec m).map Prod.snd

theorem Inv.exec {m : IOManager Cb} (h : m.Inv) {op : Op Cb} (hop : op.Legal m) :
  m.Sound (op.exec m)
  := by
  cases op with
  | addEvent caller fd event cb ok => apply h.addEvent hop.1 hop.2.1 hop.2.2 cb ok
  | delEvent fd event ok => apply h.delEvent fd event ok
  | cancelEvent fd event ok => apply h.cancelEvent fd event ok
  | cancelAll fd ok => apply h.cancelAll fd ok
  | dispatch fd ready ok => apply h.dispatch hop.1 hop.2 ok

theorem step_inv (m : IOManager Cb) (op : Op Cb) (h : m.Inv) (hop : op.Legal m) :
  ∃ m', step m op = some m' ∧ m'.Inv
  := by
  obtain ⟨ok, m', hexec, hInv, -⟩ := h.exec hop
  exact ⟨m', by simp [step, hexec], hInv⟩

theorem new_inv (now : ℕ) :
  (new now : IOManager Cb).Inv
  := by
  have hempty : ∀ fd, (new now : IOManager Cb).context fd = { fd := fd } := by
    intro fd
    rw [new, context_contextResize (Nat.zero_le _)]
    rfl
  refine ⟨⟨?_, ?_, ?_, ?_⟩, ?_⟩
  · rw [new, length_contextResize (Nat.zero_le _)]
  · intro fd
    rw [hempty]
  · intro fd
    rw [hempty]
    exact .new fd
  · have hzero : bitCount 0#32 = 0 := by decide
    simp [new, contextResize, Function.comp_def, hzero]
  · intro fd
    rw [hempty]
    rfl

/-- After every run the counter, the contexts and the interest list of the kernel agree, and an
operation that fails then changes none of them. -/
theorem run_bookkeeping (now : ℕ) {ops : List (Op Cb)}
    (h : Guarded step (fun m op => op.Legal m) (new now) ops) :
  ∃ m, run step (new now) ops = some m ∧ m.Inv ∧
    ∀ op : Op Cb, op.Legal m →
      ∃ ok m', op.exec m = some (ok, m') ∧ (ok = false → m.Unchanged m')
  := by
  obtain ⟨m, hrun, hInv⟩ := run_total step_inv (new_inv now) h
  refine ⟨m, hrun, hInv, ?_⟩
  intro op hop
  obtain ⟨ok, m', hexec, -, hsame⟩ := hInv.exec hop
  exact ⟨ok, m', hexec, hsame⟩

/-- Two events on one descriptor and one on another that has no context yet, a ready entry, a
failure of the kernel and a cancellation. -/
def sampleOps : List (Op ℕ) :=
  [.addEvent ⟨some 1, 7, .running⟩ 5 .read none true,
    .addEvent ⟨some 1, 7, .running⟩ 5 .write (some 3) true,
    .addEvent ⟨some 1, 8, .running⟩ 40 .read (some 4) false,
    .addEvent ⟨some 1, 8, .running⟩ 40 .read (some 4) true,
    .dispatch 5 (EPOLLIN ||| EPOLLHUP) true,
    .cancelEvent 5 .read true,
    .cancelAll 40 true]

theorem run_bookkeeping_sampleOps :
  ∃ m, run step (new 0) sampleOps = some m ∧ m.Inv ∧
    ∀ op : Op ℕ, op.Legal m →
      ∃ ok m', op.exec m = some (ok, m') ∧ (ok = false → m.Unchanged m')
  := run_bookkeeping 0 (by decide)

end IOManager

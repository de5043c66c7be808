import TinyWebserver.Coroutine.IOManager
import TinyWebserver.Lib.Transition

/-!
# The table of contexts

The vector `m_fdContexts` holds a pointer to a context for every descriptor below its size. A call of
`addEvent` for a descriptor that is not below it drops the read lock, takes the write lock and resizes
the vector to one and a half times the descriptor, whatever the size is by then. A thread that comes
late cuts off what others have added in the meantime, with the events that are registered there,
`lost_registration`. The vector never shrinks and every context with a registered event is found at its
index exactly in the runs in which no resize asks for less than there is, `run_keeps_iff`.

Contexts are never moved, so a pointer is an index into the list `heap` of all contexts ever made.
-/

universe u v

namespace IOManager

open Transition

variable {Cb : Type u}

/-- The arguments of a call of `addEvent`, with the outcome of its call of `epoll_ctl`. -/
structure AddCall (Cb : Type u) where
  caller : Caller
  fd : ℕ
  event : Event
  cb : Option Cb
  ok : Bool

/-- The second part of `addEvent`, under the mutex of the context: the value it returns, the context,
the interest list and the counter. -/
def AddCall.register (call : AddCall Cb) (c : FdContext Cb) (registered : Interest)
    (pendingEventCount : ℤ) : Option (ℤ × FdContext Cb × Interest × ℤ) :=
  if c.events &&& call.event.mask ≠ 0 then none
  else
    let op := if c.events ≠ 0 then CtlOp.mod else CtlOp.add
    match epollCtl registered op call.fd (EPOLLET ||| c.events ||| call.event.mask) call.ok with
    | none => some (-1, c, registered, pendingEventCount)
    | some registered =>
        let c := { c with events := c.events ||| call.event.mask }
        if ¬ (c.getEventContext call.event).isEmpty then none
        else if call.cb.isNone ∧ call.caller.state ≠ .running then none
        else
          some (0, c.setEventContext call.event (call.caller.eventContext call.cb), registered,
            pendingEventCount + 1)

/-- `addEvent` is its first part followed by its second. -/
theorem addEvent_eq (m : IOManager Cb) (call : AddCall Cb) :
  m.addEvent call.caller call.fd call.event call.cb call.ok
    = ((m.withContext call.fd).fdContexts[call.fd]?).bind fun c =>
        (call.register c (m.withContext call.fd).registered (m.withContext call.fd).pendingEventCount).map
          fun (rt, c, registered, pendingEventCount) =>
            (rt, { m.withContext call.fd with registered, pendingEventCount }.setContext call.fd c)
  := by
  rw [addEvent]
  cases hc : (m.withContext call.fd).fdContexts[call.fd]? with
  | none => rfl
  | some c =>
      obtain ⟨hfd, hget⟩ := List.getElem?_eq_some_iff.mp hc
      have hset : (m.withContext call.fd).fdContexts.set call.fd c
          = (m.withContext call.fd).fdContexts := by
        rw [← hget, List.set_getElem_self]
      simp only [Option.bind_some, AddCall.register]
      by_cases hevents : c.events &&& call.event.mask ≠ 0
      · rw [if_pos hevents, if_pos hevents]
        rfl
      · rw [if_neg hevents, if_neg hevents]
        cases hctl : epollCtl (m.withContext call.fd).registered
            (if c.events ≠ 0 then CtlOp.mod else CtlOp.add) call.fd
            (EPOLLET ||| c.events ||| call.event.mask) call.ok with
        | none => simp only [Option.map_some, setContext, hset]
        | some registered =>
            dsimp only
            split_ifs <;> rfl

/-- Where a thread is in `addEvent`: not in it, in front of the write lock, or in front of the mutex of
the context it has found. -/
inductive AddPhase (Cb : Type u) where
  | outside
  | resizing (call : AddCall Cb)
  | found (call : AddCall Cb) (p : ℕ)

/-- The vector of pointers to contexts, and the threads that add events. -/
structure FdTable (T : Type v) (Cb : Type u) where
  heap : List (FdContext Cb)
  fdContexts : List ℕ
  registered : Interest
  pendingEventCount : ℤ
  phase : T → AddPhase Cb

namespace FdTable

variable {T : Type v}

/-- `contextResize`, with the contexts it makes. -/
def contextResize (s : FdTable T Cb) (size : ℕ) : FdTable T Cb :=
  { s with
    heap := s.heap ++
      (List.range' s.fdContexts.length (size - s.fdContexts.length)).map fun i => { fd := i }
    fdContexts := s.fdContexts.take size ++
      List.range' s.heap.length (size - s.fdContexts.length) }

/-- The vector as the constructor makes it, with all threads outside. -/
def start : FdTable T Cb :=
  contextResize
    { heap := [], fdContexts := [], registered := fun _ => none, pendingEventCount := 0,
      phase := fun _ => .outside } 32

/-- What `delEvent`, `cancelEvent` and `cancelAll` find for a descriptor, with `none` if they return
because it is not below the size. -/
def lookup (s : FdTable T Cb) (fd : ℕ) : Option ℕ := s.fdContexts[fd]?

/-- A step of a thread in `addEvent`: it looks at the size under the read lock, resizes the vector under
the write lock, or registers the event under the mutex of the context. -/
inductive Step (T : Type v) (Cb : Type u) where
  | check (t : T) (call : AddCall Cb)
  | resize (t : T)
  | register (t : T)

variable [DecidableEq T]

/-- The table after a thread has got to another place. -/
def setPhase (s : FdTable T Cb) (t : T) (p : AddPhase Cb) : FdTable T Cb :=
  { s with phase := Function.update s.phase t p }

/-- One step. -/
def step (s : FdTable T Cb) : Step T Cb → Option (FdTable T Cb)
  | .check t call =>
      match s.phase t, s.fdContexts[call.fd]? with
      | .outside, some p => some (s.setPhase t (.found call p))
      | .outside, none => some (s.setPhase t (.resizing call))
      | _, _ => none
  | .resize t =>
      match s.phase t with
      | .resizing call =>
          let s := s.contextResize (call.fd * 3 / 2)
          s.fdContexts[call.fd]?.map fun p => s.setPhase t (.found call p)
      | _ => none
  | .register t =>
      match s.phase t with
      | .found call p =>
          s.heap[p]?.bind fun c =>
            (call.register c s.registered s.pendingEventCount).map
              fun (_, c, registered, pendingEventCount) =>
                { s with
                  heap := s.heap.set p c
                  registered := registered
                  pendingEventCount := pendingEventCount }.setPhase t .outside
      | _ => none

/-- Every context with a registered event is in the vector, at the index that is its descriptor. -/
def Findable (s : FdTable T Cb) : Prop :=
  ∀ p c, s.heap[p]? = some c → c.events ≠ 0 → s.lookup c.fd = some p

/-- A step does not shrink the vector, and every context with a registered event is found after it. -/
def Keeps (s : FdTable T Cb) (l : Step T Cb) : Prop :=
  ∀ s', s.step l = some s' → s.fdContexts.length ≤ s'.fdContexts.length ∧ s'.Findable

/-- A resize asks for no less than the size there is when the write lock is taken. -/
def Grows (s : FdTable T Cb) : Step T Cb → Prop
  | .resize t =>
      match s.phase t with
      | .resizing call => s.fdContexts.length ≤ call.fd * 3 / 2
      | _ => True
  | _ => True

instance Grows.decidable (s : FdTable T Cb) : ∀ l : Step T Cb, Decidable (s.Grows l)
  | .check _ _ => inferInstanceAs (Decidable True)
  | .resize t =>
      match h : s.phase t with
      | .resizing call =>
          decidable_of_iff (s.fdContexts.length ≤ call.fd * 3 / 2) (by simp [Grows, h])
      | .outside => .isTrue (by simp [Grows, h])
      | .found _ _ => .isTrue (by simp [Grows, h])
  | .register _ => inferInstanceAs (Decidable True)

/-! ### The steps, read backwards -/

variable {s s' : FdTable T Cb} {t : T}

theorem step_check {call : AddCall Cb} (h : s.step (.check t call) = some s') :
  ∃ p, s' = s.setPhase t p
  := by
  rw [step] at h
  split at h
  · exact ⟨_, (Option.some.inj h).symm⟩
  · exact ⟨_, (Option.some.inj h).symm⟩
  · simp at h

theorem step_resize (h : s.step (.resize t) = some s') :
  ∃ call p, s.phase t = .resizing call ∧
    s' = (s.contextResize (call.fd * 3 / 2)).setPhase t (.found call p)
  := by
  rw [step] at h
  split at h
  · rename_i call hphase
    obtain ⟨p, -, rfl⟩ := Option.map_eq_some_iff.mp h
    exact ⟨call, p, hphase, rfl⟩
  · simp at h

theorem step_register (h : s.step (.register t) = some s') :
  ∃ call p c rt c' registered pendingEventCount, s.phase t = .found call p ∧
    s.heap[p]? = some c ∧
    call.register c s.registered s.pendingEventCount = some (rt, c', registered, pendingEventCount) ∧
    s' = { s with
      heap := s.heap.set p c'
      registered := registered
      pendingEventCount := pendingEventCount }.setPhase t .outside
  := by
  rw [step] at h
  split at h
  · rename_i call p hphase
    obtain ⟨c, hc, h⟩ := Option.bind_eq_some_iff.mp h
    obtain ⟨⟨rt, c', registered, pendingEventCount⟩, hregister, rfl⟩ := Option.map_eq_some_iff.mp h
    exact ⟨call, p, c, rt, c', registered, pendingEventCount, hphase, hc, hregister, rfl⟩
  · simp at h

/-- `addEvent` does not change the descriptor of a context. -/
theorem register_fd {call : AddCall Cb} {c c' : FdContext Cb} {registered registered' : Interest}
    {pendingEventCount pendingEventCount' rt : ℤ}
    (h : call.register c registered pendingEventCount
      = some (rt, c', registered', pendingEventCount')) :
  c'.fd = c.fd
  := by
  rw [AddCall.register] at h
  split at h
  · simp at h
  · dsimp only at h
    split at h
    · simp only [Option.some.injEq, Prod.mk.injEq] at h
      rw [h.2.1]
    · split at h
      · simp at h
      · split at h
        · simp at h
        · simp only [Option.some.injEq, Prod.mk.injEq] at h
          rw [← h.2.1]
          cases call.event <;> rfl

/-! ### The vector and its contexts -/

/-- The vector holds a pointer to every context that was ever made, at the index that is its
descriptor. -/
structure Inv (s : FdTable T Cb) : Prop where
  fdContexts : s.fdContexts = List.range s.heap.length
  fd : ∀ (p : ℕ) (c : FdContext Cb), s.heap[p]? = some c → c.fd = p

omit [DecidableEq T] in
theorem length_contextResize (s : FdTable T Cb) (size : ℕ) :
  (s.contextResize size).fdContexts.length = size
  := by
  simp only [contextResize, List.length_append, List.length_take, List.length_range']
  omega

omit [DecidableEq T] in
theorem Inv.findable (h : s.Inv) :
  s.Findable
  := by
  intro p c hc _
  have hp : p < s.heap.length := (List.getElem?_eq_some_iff.mp hc).1
  rw [lookup, h.fd p c hc, h.fdContexts, List.getElem?_range hp]

theorem Inv.setPhase (h : s.Inv) (t : T) (p : AddPhase Cb) :
  (s.setPhase t p).Inv
  := ⟨h.fdContexts, h.fd⟩

omit [DecidableEq T] in
/-- A vector that does not shrink keeps its contexts, and the new ones are at their indices. -/
theorem Inv.contextResize (h : s.Inv) {size : ℕ} (hsize : s.fdContexts.length ≤ size) :
  (s.contextResize size).Inv
  := by
  have hlength : s.fdContexts.length = s.heap.length := by
    rw [h.fdContexts, List.length_range]
  constructor
  · simp only [FdTable.contextResize, List.take_of_length_le hsize, List.length_append,
      List.length_map, List.length_range']
    have happend : List.range' 0 s.heap.length ++ List.range' (0 + s.heap.length) (size - s.heap.length)
        = List.range' 0 (s.heap.length + (size - s.heap.length)) := List.range'_append_1
    rw [Nat.zero_add] at happend
    rw [hlength, h.fdContexts, List.range_eq_range', List.range_eq_range', happend]
  · intro p c hc
    simp only [FdTable.contextResize, List.getElem?_append] at hc
    split at hc
    · apply h.fd p c hc
    · simp only [List.getElem?_map, Option.map_eq_some_iff] at hc
      obtain ⟨i, hi, rfl⟩ := hc
      grind

omit [DecidableEq T] in
theorem start_inv :
  (start : FdTable T Cb).Inv
  := by
  refine Inv.contextResize ⟨rfl, ?_⟩ (Nat.zero_le _)
  intro p c hc
  simp at hc

theorem Inv.step (h : s.Inv) {l : Step T Cb} (hgrows : s.Grows l) (hstep : s.step l = some s') :
  s'.Inv ∧ s.fdContexts.length ≤ s'.fdContexts.length
  := by
  cases l with
  | check t call =>
      obtain ⟨p, rfl⟩ := step_check hstep
      exact ⟨h.setPhase t p, le_rfl⟩
  | resize t =>
      obtain ⟨call, p, hphase, rfl⟩ := step_resize hstep
      have hsize : s.fdContexts.length ≤ call.fd * 3 / 2 := by
        simpa only [Grows, hphase] using hgrows
      refine ⟨(h.contextResize hsize).setPhase t _, ?_⟩
      rw [FdTable.setPhase, length_contextResize]
      apply hsize
  | register t =>
      obtain ⟨call, p, c, rt, c', registered, pendingEventCount, hphase, hc, hregister, rfl⟩ :=
        step_register hstep
      refine ⟨⟨?_, ?_⟩, le_rfl⟩
      · simp [FdTable.setPhase, h.fdContexts]
      · intro q d hd
        simp only [FdTable.setPhase, List.getElem?_set] at hd
        split at hd
        · rename_i hpq
          subst hpq
          split at hd
          · obtain rfl := Option.some.inj hd
            rw [register_fd hregister, h.fd p c hc]
          · simp at hd
        · apply h.fd q d hd

/-! ### A thread that is alone -/

/-- The table is the one of a manager: the vector holds its contexts. -/
structure Agrees (s : FdTable T Cb) (m : IOManager Cb) : Prop where
  heap : s.heap = m.fdContexts
  registered : s.registered = m.registered
  pendingEventCount : s.pendingEventCount = m.pendingEventCount

theorem Agrees.setPhase {m : IOManager Cb} (h : s.Agrees m) (t : T) (p : AddPhase Cb) :
  (s.setPhase t p).Agrees m
  := ⟨h.heap, h.registered, h.pendingEventCount⟩

omit [DecidableEq T] in
theorem Agrees.contextResize {m : IOManager Cb} (h : s.Agrees m) (hs : s.Inv) {size : ℕ}
    (hsize : s.fdContexts.length ≤ size) :
  (s.contextResize size).Agrees (m.contextResize size)
  := by
  have hlength : s.fdContexts.length = m.fdContexts.length := by
    rw [hs.fdContexts, List.length_range, h.heap]
  refine ⟨?_, h.registered, h.pendingEventCount⟩
  rw [hlength] at hsize
  simp only [FdTable.contextResize, IOManager.contextResize, hlength, h.heap,
    List.take_of_length_le hsize]

/-- What a thread has found is the context of the descriptor, and it registers the event there. -/
theorem Agrees.register {m : IOManager Cb} (h : s.Agrees m) {call : AddCall Cb}
    (hphase : s.phase t = .found call call.fd) {c c' : FdContext Cb} (hc : m.fdContexts[call.fd]? = some c)
    {rt pendingEventCount : ℤ} {registered : Interest}
    (hregister : call.register c m.registered m.pendingEventCount
      = some (rt, c', registered, pendingEventCount)) :
  ∃ s', s.step (.register t) = some s' ∧
    s'.Agrees ({ m with registered, pendingEventCount }.setContext call.fd c')
  := by
  refine ⟨{ s with
    heap := s.heap.set call.fd c'
    registered := registered
    pendingEventCount := pendingEventCount }.setPhase t .outside, ?_, ?_⟩
  · simp only [step, hphase, h.heap, hc, Option.bind_some, h.registered, h.pendingEventCount,
      hregister, Option.map_some]
  · exact ⟨by simp [FdTable.setPhase, setContext, h.heap], rfl, rfl⟩

/-- The steps of a thread that nobody interrupts do what `addEvent` does. -/
theorem run_addEvent {m m' : IOManager Cb} {call : AddCall Cb} {rt : ℤ} (h : s.Agrees m) (hs : s.Inv)
    (hphase : s.phase t = .outside)
    (hadd : m.addEvent call.caller call.fd call.event call.cb call.ok = some (rt, m')) :
  ∃ ls s', run step s (.check t call :: ls) = some s' ∧ s'.Agrees m'
  := by
  rw [addEvent_eq, Option.bind_eq_some_iff] at hadd
  obtain ⟨c, hc, hadd⟩ := hadd
  obtain ⟨⟨rt', c', registered, pendingEventCount⟩, hregister, hm'⟩ := Option.map_eq_some_iff.mp hadd
  obtain ⟨-, rfl⟩ := Prod.mk.inj hm'
  have hlength : s.fdContexts.length = m.fdContexts.length := by
    rw [hs.fdContexts, List.length_range, h.heap]
  by_cases hfd : call.fd < m.fdContexts.length
  · have hwith : m.withContext call.fd = m := if_pos hfd
    rw [hwith] at hc hregister ⊢
    have hfound : s.fdContexts[call.fd]? = some call.fd := by
      rw [hs.fdContexts, List.getElem?_range (h.heap ▸ hfd)]
    have hcheck : s.step (.check t call) = some (s.setPhase t (.found call call.fd)) := by
      simp only [step, hphase, hfound]
    obtain ⟨s', hstep, hagrees⟩ :=
      (h.setPhase t (.found call call.fd)).register (t := t) (by simp [FdTable.setPhase]) hc hregister
    refine ⟨[.register t], s', ?_, hagrees⟩
    simp [hcheck, hstep]
  · have hwith : m.withContext call.fd = m.contextResize (call.fd * 3 / 2) := if_neg hfd
    rw [hwith] at hc hregister ⊢
    have hnone : s.fdContexts[call.fd]? = none := by
      rw [List.getElem?_eq_none_iff, hlength]
      omega
    have hcheck : s.step (.check t call) = some (s.setPhase t (.resizing call)) := by
      simp only [step, hphase, hnone]
    have hlt : call.fd < (m.contextResize (call.fd * 3 / 2)).fdContexts.length :=
      (List.getElem?_eq_some_iff.mp hc).1
    have hsize : s.fdContexts.length ≤ call.fd * 3 / 2 := by
      simp only [IOManager.contextResize, List.length_append, List.length_take, List.length_map,
        List.length_range'] at hlt
      omega
    have hInv := (hs.setPhase t (.resizing call)).contextResize hsize
    have hresized := (h.setPhase t (.resizing call)).contextResize (hs.setPhase t _) hsize
    have hfound : ((s.setPhase t (.resizing call)).contextResize (call.fd * 3 / 2)).fdContexts[call.fd]?
        = some call.fd := by
      rw [hInv.fdContexts, List.getElem?_range (hresized.heap ▸ hlt)]
    have hresize : (s.setPhase t (.resizing call)).step (.resize t)
        = some (((s.setPhase t (.resizing call)).contextResize (call.fd * 3 / 2)).setPhase t
            (.found call call.fd)) := by
      have hresizing : (s.setPhase t (.resizing call)).phase t = .resizing call :=
        Function.update_self ..
      simp only [step, hresizing, hfound, Option.map_some]
    obtain ⟨s', hstep, hagrees⟩ :=
      (hresized.setPhase t (.found call call.fd)).register (t := t) (by simp [FdTable.setPhase]) hc
        hregister
    refine ⟨[.resize t, .register t], s', ?_, hagrees⟩
    simp [hcheck, hresize, hstep]

/-- A step that keeps the size of the vector asks for no less than there is. -/
theorem Keeps.grows {l : Step T Cb} (h : s.Keeps l) (hstep : s.step l = some s') :
  s.Grows l
  := by
  cases l with
  | check t call => trivial
  | resize t =>
      have hsize := (h s' hstep).1
      obtain ⟨call, p, hphase, rfl⟩ := step_resize hstep
      rw [setPhase, length_contextResize] at hsize
      simpa only [Grows, hphase] using hsize
  | register t => trivial

/-- The steps of a run never shrink the vector and leave every context with a registered event at its
index, if and only if every resize of the run asks for no less than the size there is at its time. -/
theorem run_keeps_iff {ls : List (Step T Cb)} (h : run step start ls = some s) :
  Guarded step Keeps (start : FdTable T Cb) ls ↔ Guarded step Grows (start : FdTable T Cb) ls
  := by
  constructor
  · intro hkeeps
    apply Guarded.imp (fun _ => True) _ trivial hkeeps h
    intro s l s' _ hl hstep
    exact ⟨trivial, hl.grows hstep⟩
  · intro hgrows
    apply Guarded.imp Inv _ start_inv hgrows h
    intro s l s' hs hl hstep
    refine ⟨(hs.step hl hstep).1, ?_⟩
    intro u hu
    have := hs.step hl hu
    exact ⟨this.2, this.1.findable⟩

/-- One thread adds an event to descriptor 40 and then another one to descriptor 100. -/
def oneByOne : List (Step ℕ Unit) :=
  [.check 0 ⟨⟨some 1, 7, .running⟩, 40, .read, some (), true⟩, .resize 0, .register 0,
    .check 1 ⟨⟨some 1, 8, .running⟩, 100, .read, some (), true⟩, .resize 1, .register 1]

theorem run_keeps_oneByOne :
  (∃ s, run step (start : FdTable ℕ Unit) oneByOne = some s) ∧
    Guarded step Keeps (start : FdTable ℕ Unit) oneByOne
  := by
  have hrun : (run step (start : FdTable ℕ Unit) oneByOne).isSome = true := by decide
  obtain ⟨s, hs⟩ := Option.isSome_iff_exists.mp hrun
  refine ⟨⟨s, hs⟩, (run_keeps_iff hs).mpr ?_⟩
  decide

/-- Two threads have found that there is no context, for descriptor 40 and for descriptor 100, and the
second one has registered its event when the first one gets the write lock. -/
def bothGrow : List (Step ℕ Unit) :=
  [.check 0 ⟨⟨some 1, 7, .running⟩, 40, .read, some (), true⟩,
    .check 1 ⟨⟨some 1, 8, .running⟩, 100, .read, some (), true⟩, .resize 1, .register 1, .resize 0]

/-- The vector shrinks from 150 contexts to 60, and a context with a registered event for descriptor
100 is not found there any more. -/
theorem lost_registration :
  ∃ s s' c, run step (start : FdTable ℕ Unit) (bothGrow.take 4) = some s ∧
    s.step (.resize 0) = some s' ∧ s.fdContexts.length = 150 ∧ s'.fdContexts.length = 60 ∧
    s'.heap[100]? = some c ∧ c.fd = 100 ∧ c.events = Event.read.mask ∧
    s.lookup 100 = some 100 ∧ s'.lookup 100 = none
  := by
  refine ⟨_, _, _, rfl, rfl, ?_, ?_, rfl, ?_, ?_, ?_, ?_⟩ <;> decide +kernel

end FdTable

end IOManager

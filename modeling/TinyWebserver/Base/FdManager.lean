import TinyWebserver.Base.Bytes
import TinyWebserver.Lib.Transition

/-!
# Contexts of descriptors

The classes `FdCtx` and `FdManager` of `base/fd_manager.cpp`. A call of `get` looks for the context of a
descriptor under the read lock and, if there is none and it may make one, lets go of that lock, takes the
write lock and stores a new context without looking again. Two first calls that overlap return different
contexts, and a timeout set through one of them is not seen through the other, `overlap_lost`. All calls
with no `del` between them return the same context exactly in the runs in which no context is stored over
another, `run_oneContext_iff`.

A context is never destroyed while somebody has a pointer to it, so a pointer is an index into the list
`heap` of all contexts ever made. The conversion of the size of `m_datas` to `int` wraps around, and `none`
stands for a use of memory out of bounds.
-/

universe u

/-- The class `FdCtx`. -/
structure FdCtx where
  isInit : Bool
  isSocket : Bool
  sysNonblock : Bool
  userNonblock : Bool
  isClosed : Bool
  fd : ℤ
  recvTimeout : UInt64
  sendTimeout : UInt64
deriving DecidableEq

namespace FdCtx

/-- The option `SO_RCVTIMEO`. -/
def SO_RCVTIMEO : ℤ := 20

/-- The option `SO_SNDTIMEO`. -/
def SO_SNDTIMEO : ℤ := 21

/-- `init`, with the result of `fstat`: `none` if it fails, and whether the file is a socket otherwise. -/
def init (c : FdCtx) (stat : Option Bool) : Bool × FdCtx :=
  if c.isInit then (true, c)
  else
    let c := { c with recvTimeout := -1, sendTimeout := -1 }
    let c :=
      match stat with
      | none => { c with isInit := false, isSocket := false }
      | some isSocket => { c with isInit := true, isSocket := isSocket }
    let c := if c.isSocket then c else { c with sysNonblock := false }
    let c := { c with userNonblock := false, isClosed := false }
    (c.isInit, c)

/-- The constructor. -/
def new (fd : ℤ) (stat : Option Bool) : FdCtx :=
  (init
    { isInit := false, isSocket := false, sysNonblock := false, userNonblock := false,
      isClosed := false, fd := fd, recvTimeout := -1, sendTimeout := -1 } stat).2

/-- `setTimeout`. -/
def setTimeout (c : FdCtx) (type : ℤ) (v : UInt64) : FdCtx :=
  if type = SO_RCVTIMEO then { c with recvTimeout := v } else { c with sendTimeout := v }

/-- `getTimeout`. -/
def getTimeout (c : FdCtx) (type : ℤ) : UInt64 :=
  if type = SO_RCVTIMEO then c.recvTimeout else c.sendTimeout

@[simp]
theorem getTimeout_setTimeout (c : FdCtx) (type : ℤ) (v : UInt64) :
  (c.setTimeout type v).getTimeout type = v
  := by
  rw [setTimeout, getTimeout]
  split <;> simp_all

end FdCtx

/-- A pointer to a context that is not null. -/
abbrev CtxPtr := ℕ

/-- A call of `get` that has returned a context: the descriptor, how many calls of `del` there were for it
before, and the context. -/
structure Got where
  fd : ℤ
  dels : ℕ
  ctx : CtxPtr
deriving DecidableEq

/-- Where a thread is in `get`: not in it, or between the two locks. -/
inductive GetPhase where
  | outside
  | creating (fd : ℤ)
deriving DecidableEq

/-- The class `FdManager`, with the contexts, the threads that call `get`, the number of calls of `del` for
every descriptor and what `get` has returned. -/
structure FdManager (T : Type u) where
  heap : List FdCtx
  datas : List (Option CtxPtr)
  phase : T → GetPhase
  dels : ℤ → ℕ
  got : List Got

namespace FdManager

open Transition

variable {T : Type u}

/-- `m_datas[fd]`. -/
def slot (s : FdManager T) (fd : ℤ) : Option (Option CtxPtr) :=
  if fd < 0 then none else s.datas[fd.toNat]?

/-- `m_datas.resize`. -/
def resize (datas : List (Option CtxPtr)) (size : ℕ) : List (Option CtxPtr) :=
  datas.take size ++ List.replicate (size - datas.length) none

/-- The constructor, with all threads outside. -/
def start : FdManager T where
  heap := []
  datas := resize [] 64
  phase _ := .outside
  dels _ := 0
  got := []

/-- How the first part of `get` ends: it returns a pointer, which may be null, or goes on to make a
context. -/
inductive Lookup where
  | returned (ctx : Option CtxPtr)
  | absent
deriving DecidableEq

/-- The first part of `get`, under the read lock. -/
def lookup (s : FdManager T) (fd : ℤ) (autoCreate : Bool) : Option Lookup :=
  if fd = -1 then some (.returned none)
  else if toInt s.datas.length ≤ fd then
    if autoCreate = false then some (.returned none) else some .absent
  else
    (s.slot fd).map fun ctx =>
      if ctx.isSome ∨ autoCreate = false then .returned ctx else .absent

/-- The second part of `get`, under the write lock, with the pointer it returns. -/
def create (s : FdManager T) (fd : ℤ) (stat : Option Bool) : Option (CtxPtr × FdManager T) :=
  if fd < 0 then none
  else
    let ctx := s.heap.length
    let datas := if fd ≥ toInt s.datas.length then resize s.datas (fd * 3 / 2).toNat else s.datas
    if fd.toNat < datas.length then
      some (ctx, { s with heap := s.heap ++ [.new fd stat], datas := datas.set fd.toNat (some ctx) })
    else none

/-- `del`. -/
def del (s : FdManager T) (fd : ℤ) : Option (FdManager T) :=
  if toInt s.datas.length ≤ fd then some s
  else (s.slot fd).map fun _ => { s with datas := s.datas.set fd.toNat none }

/-- `getTimeout` of the context that a pointer is for. -/
def getTimeout (s : FdManager T) (ctx : CtxPtr) (type : ℤ) : Option UInt64 :=
  s.heap[ctx]?.map fun c => c.getTimeout type

/-- `Socket::getSendTimeout`, with what `get` returned. -/
def getSendTimeout (s : FdManager T) (ctx : Option CtxPtr) : Int64 :=
  match ctx.bind fun ctx => s.getTimeout ctx FdCtx.SO_SNDTIMEO with
  | some v => v.toInt64
  | none => -1

/-! ### The table -/

/-- The context that is stored for a descriptor. -/
def stored (s : FdManager T) (fd : ℤ) : Option CtxPtr := (s.slot fd).join

variable {s s' : FdManager T} {fd : ℤ}

theorem stored_of_neg (h : fd < 0) :
  s.stored fd = none
  := by
  rw [stored, slot, if_pos h]
  rfl

theorem stored_of_nonneg (h : 0 ≤ fd) :
  s.stored fd = s.datas[fd.toNat]?.join
  := by
  rw [stored, slot, if_neg (not_lt.mpr h)]

/-- More elements store nothing. -/
theorem getElem?_resize {datas : List (Option CtxPtr)} {size : ℕ} (h : datas.length ≤ size) (i : ℕ) :
  (resize datas size)[i]?.join = datas[i]?.join
  := by
  rw [resize, List.take_of_length_le h]
  by_cases hi : i < datas.length
  · rw [List.getElem?_append_left hi]
  · rw [List.getElem?_append_right (by omega), List.getElem?_replicate, List.getElem?_eq_none (by omega)]
    split <;> rfl

theorem length_resize {datas : List (Option CtxPtr)} {size : ℕ} (h : datas.length ≤ size) :
  (resize datas size).length = size
  := by
  simp only [resize, List.length_append, List.length_take, List.length_replicate]
  omega

/-- An assignment to an element of the table. -/
theorem stored_set {datas : List (Option CtxPtr)} (hfd : 0 ≤ fd) (hlen : fd.toNat < datas.length)
    (hdatas : ∀ fd', 0 ≤ fd' → datas[fd'.toNat]?.join = s.stored fd') {ctx : Option CtxPtr}
    (h : s'.datas = datas.set fd.toNat ctx) :
  s'.stored = Function.update s.stored fd ctx
  := by
  funext fd'
  by_cases hneg : fd' < 0
  · rw [stored_of_neg hneg, Function.update_of_ne (by omega), stored_of_neg hneg]
  · rw [stored_of_nonneg (not_lt.mp hneg), h]
    by_cases heq : fd' = fd
    · subst heq
      rw [Function.update_self, List.getElem?_set_self hlen]
      rfl
    · rw [Function.update_of_ne heq, List.getElem?_set_ne (by omega), hdatas fd' (not_lt.mp hneg)]

/-- The size of the table is one that an `int` can count. -/
def Sized (s : FdManager T) : Prop := 64 ≤ s.datas.length ∧ s.datas.length < 2 ^ 31

/-- The first part of `get` returns what is stored. -/
theorem lookup_spec {autoCreate : Bool} {ctx : CtxPtr}
    (h : s.lookup fd autoCreate = some (.returned (some ctx))) :
  s.stored fd = some ctx
  := by
  rw [lookup] at h
  split_ifs at h
  · simp at h
  · simp at h
  · simp at h
  · obtain ⟨found, hslot, hfound⟩ := Option.map_eq_some_iff.mp h
    rw [stored, hslot]
    split_ifs at hfound
    rw [Lookup.returned.injEq] at hfound
    rw [hfound]
    rfl

/-- The table has room for the descriptor before the second part of `get` writes to it, and stores what it
did. -/
theorem resize_spec (hsize : s.Sized) (hfits : fd < s.datas.length ∨ fd * 3 / 2 < 2 ^ 31)
    {datas : List (Option CtxPtr)}
    (h : datas = if fd ≥ toInt s.datas.length then resize s.datas (fd * 3 / 2).toNat else s.datas) :
  64 ≤ datas.length ∧ datas.length < 2 ^ 31 ∧
    ∀ fd', 0 ≤ fd' → datas[fd'.toNat]?.join = s.stored fd'
  := by
  obtain ⟨hmin, hmax⟩ := hsize
  rw [toInt_of_lt hmax] at h
  split_ifs at h with hgrow
  · have hle : s.datas.length ≤ (fd * 3 / 2).toNat := by omega
    rw [h, length_resize hle]
    refine ⟨by omega, by omega, ?_⟩
    intro fd' hfd'
    rw [getElem?_resize hle, stored_of_nonneg hfd']
  · rw [h]
    refine ⟨hmin, hmax, ?_⟩
    intro fd' hfd'
    rw [stored_of_nonneg hfd']

/-- The second part of `get` makes a context and leaves the others as they were. -/
theorem create_heap {stat : Option Bool} {ctx : CtxPtr} (h : s.create fd stat = some (ctx, s')) :
  s'.heap = s.heap ++ [.new fd stat]
  := by
  rw [create] at h
  dsimp only at h
  split_ifs at h
  all_goals
    obtain ⟨-, rfl⟩ := Prod.mk.inj (Option.some.inj h)
    rfl

/-- `del` leaves the contexts as they were. -/
theorem del_heap (h : s.del fd = some s') :
  s'.heap = s.heap
  := by
  rw [del] at h
  split_ifs at h
  · rw [Option.some.inj h]
  · obtain ⟨-, -, rfl⟩ := Option.map_eq_some_iff.mp h
    rfl

/-- The second part of `get` stores the new context for the descriptor, and nothing for others. -/
theorem create_spec {stat : Option Bool} {ctx : CtxPtr} (hsize : s.Sized)
    (hfits : fd < s.datas.length ∨ fd * 3 / 2 < 2 ^ 31) (h : s.create fd stat = some (ctx, s')) :
  ctx = s.heap.length ∧ s'.Sized ∧ s'.stored = Function.update s.stored fd (some ctx) ∧
    s'.dels = s.dels ∧ s'.got = s.got
  := by
  rw [create] at h
  by_cases hneg : fd < 0
  · simp [hneg] at h
  · rw [if_neg hneg] at h
    generalize hdatas : (if fd ≥ toInt s.datas.length then resize s.datas (fd * 3 / 2).toNat
      else s.datas) = datas at h
    obtain ⟨hmin, hmax, hsame⟩ := resize_spec hsize hfits hdatas.symm
    dsimp only at h
    split_ifs at h with hlen
    obtain ⟨rfl, rfl⟩ := Prod.mk.inj (Option.some.inj h)
    refine ⟨rfl, ⟨?_, ?_⟩, stored_set (not_lt.mp hneg) hlen hsame rfl, rfl, rfl⟩
    · simpa using hmin
    · simpa using hmax

/-- After `del` no context is stored for the descriptor. -/
theorem del_spec (hsize : s.Sized) (h : s.del fd = some s') :
  s'.Sized ∧ s'.stored = Function.update s.stored fd none ∧ s'.dels = s.dels ∧ s'.got = s.got
  := by
  rw [del, toInt_of_lt hsize.2] at h
  split_ifs at h with hlen
  · obtain rfl := Option.some.inj h
    refine ⟨hsize, ?_, rfl, rfl⟩
    have hnone : s.stored fd = none := by
      rw [stored_of_nonneg (by omega), List.getElem?_eq_none (by omega)]
      rfl
    rw [← hnone, Function.update_eq_self]
  · obtain ⟨found, hslot, rfl⟩ := Option.map_eq_some_iff.mp h
    rw [slot] at hslot
    split_ifs at hslot with hneg
    refine ⟨?_, ?_, rfl, rfl⟩
    · simpa [Sized] using hsize
    · apply stored_set (not_lt.mp hneg) (by omega) ?_ rfl
      intro fd' hfd'
      rw [stored_of_nonneg hfd']

/-! ### What is returned -/

/-- The manager after a call of `get` for a descriptor has returned a context. -/
def returns (s : FdManager T) (fd : ℤ) (ctx : CtxPtr) : FdManager T :=
  { s with got := s.got ++ [⟨fd, s.dels fd, ctx⟩] }

/-- The manager after a call of `del` for a descriptor. -/
def deleted (s : FdManager T) (fd : ℤ) : FdManager T :=
  { s with dels := Function.update s.dels fd (s.dels fd + 1) }

/-- What is stored for a descriptor is what the calls of `get` have returned since the last `del`. -/
structure Inv (s : FdManager T) : Prop where
  sized : s.Sized
  known : ∀ g ∈ s.got, g.ctx < s.heap.length
  past : ∀ g ∈ s.got, g.dels ≤ s.dels g.fd
  returned : ∀ fd ctx, s.stored fd = some ctx → ⟨fd, s.dels fd, ctx⟩ ∈ s.got
  kept : ∀ g ∈ s.got, g.dels = s.dels g.fd → s.stored g.fd ≠ none

theorem start_inv :
  (start : FdManager T).Inv
  := by
  have hstored : ∀ fd, (start : FdManager T).stored fd = none := by
    intro fd
    by_cases hneg : fd < 0
    · apply stored_of_neg hneg
    · rw [stored_of_nonneg (not_lt.mp hneg), start, getElem?_resize (Nat.zero_le _)]
      rfl
  refine ⟨?_, by simp [start], by simp [start], ?_, by simp [start]⟩
  · rw [Sized, start, length_resize (Nat.zero_le _)]
    decide
  · intro fd ctx h
    rw [hstored] at h
    cases h

/-- A call of `get` that returns what is stored returns nothing new. -/
theorem Inv.mem_returns (h : s.Inv) {ctx : CtxPtr} (hstored : s.stored fd = some ctx) (g : Got) :
  g ∈ (s.returns fd ctx).got ↔ g ∈ s.got
  := by
  have hold := h.returned fd ctx hstored
  simp only [returns, List.mem_append, List.mem_singleton]
  constructor
  · rintro (hg | rfl)
    · apply hg
    · apply hold
  · apply Or.inl

theorem Inv.get (h : s.Inv) {ctx : CtxPtr} (hstored : s.stored fd = some ctx) :
  (s.returns fd ctx).Inv
  := by
  have hmem := h.mem_returns hstored
  refine ⟨h.sized, ?_, ?_, ?_, ?_⟩
  · intro g hg
    apply h.known g ((hmem g).mp hg)
  · intro g hg
    apply h.past g ((hmem g).mp hg)
  · intro fd' ctx' hstored'
    apply (hmem _).mpr (h.returned fd' ctx' hstored')
  · intro g hg
    apply h.kept g ((hmem g).mp hg)

/-- What has been returned after a call of `get` that did not only look. -/
theorem mem_returns_of_eq (hdels : s'.dels = s.dels) (hgot : s'.got = s.got) (fd : ℤ) (ctx : CtxPtr)
    (g : Got) :
  g ∈ (s'.returns fd ctx).got ↔ g ∈ s.got ∨ g = ⟨fd, s.dels fd, ctx⟩
  := by
  simp [returns, hgot, hdels]

theorem Inv.create (h : s.Inv) {stat : Option Bool} {ctx : CtxPtr}
    (hfits : fd < s.datas.length ∨ fd * 3 / 2 < 2 ^ 31) (hcreate : s.create fd stat = some (ctx, s')) :
  (s'.returns fd ctx).Inv
  := by
  have hheap := create_heap hcreate
  obtain ⟨rfl, hsized, hstored, hdels, hgot⟩ := create_spec h.sized hfits hcreate
  have hmem := mem_returns_of_eq hdels hgot fd s.heap.length
  refine ⟨hsized, ?_, ?_, ?_, ?_⟩
  · intro g hg
    change g.ctx < s'.heap.length
    rw [hheap, List.length_append, List.length_singleton]
    obtain hg | rfl := (hmem g).mp hg
    · apply Nat.lt_succ_of_lt (h.known g hg)
    · apply Nat.lt_succ_self
  · intro g hg
    change g.dels ≤ s'.dels g.fd
    rw [hdels]
    obtain hg | rfl := (hmem g).mp hg
    · apply h.past g hg
    · apply le_rfl
  · intro fd' ctx' hstored'
    change s'.stored fd' = some ctx' at hstored'
    change (⟨fd', s'.dels fd', ctx'⟩ : Got) ∈ _
    rw [hstored] at hstored'
    rw [hdels, hmem]
    by_cases heq : fd' = fd
    · subst heq
      rw [Function.update_self, Option.some.injEq] at hstored'
      rw [hstored']
      apply Or.inr rfl
    · rw [Function.update_of_ne heq] at hstored'
      apply Or.inl (h.returned fd' ctx' hstored')
  · intro g hg hlast
    change g.dels = s'.dels g.fd at hlast
    change s'.stored g.fd ≠ none
    rw [hdels] at hlast
    rw [hstored]
    by_cases heq : g.fd = fd
    · rw [heq, Function.update_self]
      apply Option.some_ne_none
    · rw [Function.update_of_ne heq]
      obtain hg | rfl := (hmem g).mp hg
      · apply h.kept g hg hlast
      · exact absurd rfl heq

theorem Inv.del (h : s.Inv) (hdel : s.del fd = some s') :
  (s'.deleted fd).Inv
  := by
  have hheap := del_heap hdel
  obtain ⟨hsized, hstored, hdels, hgot⟩ := del_spec h.sized hdel
  have hdels' : (s'.deleted fd).dels = Function.update s.dels fd (s.dels fd + 1) := by
    rw [deleted, hdels]
  refine ⟨hsized, ?_, ?_, ?_, ?_⟩
  · intro g hg
    change g ∈ s'.got at hg
    change g.ctx < s'.heap.length
    rw [hgot] at hg
    rw [hheap]
    apply h.known g hg
  · intro g hg
    change g ∈ s'.got at hg
    rw [hgot] at hg
    rw [hdels']
    have hpast := h.past g hg
    by_cases heq : g.fd = fd
    · rw [heq, Function.update_self]
      rw [heq] at hpast
      omega
    · rw [Function.update_of_ne heq]
      apply hpast
  · intro fd' ctx' hstored'
    change s'.stored fd' = some ctx' at hstored'
    change _ ∈ s'.got
    rw [hstored] at hstored'
    by_cases heq : fd' = fd
    · rw [heq, Function.update_self] at hstored'
      cases hstored'
    · rw [Function.update_of_ne heq] at hstored'
      rw [hdels', Function.update_of_ne heq, hgot]
      apply h.returned fd' ctx' hstored'
  · intro g hg hlast
    change g ∈ s'.got at hg
    change s'.stored g.fd ≠ none
    rw [hgot] at hg
    rw [hdels'] at hlast
    rw [hstored]
    by_cases heq : g.fd = fd
    · have hpast := h.past g hg
      rw [heq, Function.update_self] at hlast
      rw [heq] at hpast
      omega
    · rw [Function.update_of_ne heq] at hlast ⊢
      apply h.kept g hg hlast

/-- All calls of `get` for a descriptor with no call of `del` for it between them have returned the same
pointer. -/
def AllSame (s : FdManager T) : Prop :=
  ∀ g ∈ s.got, ∀ g' ∈ s.got, g.fd = g'.fd → g.dels = g'.dels → g.ctx = g'.ctx

/-- A new context for a descriptor is one too many exactly if there is one already. -/
theorem Inv.allSame_create (h : s.Inv) {stat : Option Bool} {ctx : CtxPtr}
    (hfits : fd < s.datas.length ∨ fd * 3 / 2 < 2 ^ 31) (hcreate : s.create fd stat = some (ctx, s')) :
  (s'.returns fd ctx).AllSame ↔ s.AllSame ∧ s.stored fd = none
  := by
  obtain ⟨rfl, -, -, hdels, hgot⟩ := create_spec h.sized hfits hcreate
  have hmem := mem_returns_of_eq hdels hgot fd s.heap.length
  constructor
  · intro hsame
    constructor
    · intro g hg g' hg'
      apply hsame g ((hmem g).mpr (Or.inl hg)) g' ((hmem g').mpr (Or.inl hg'))
    · by_contra hsome
      obtain ⟨old, hold⟩ := Option.ne_none_iff_exists'.mp hsome
      have hgot' := h.returned fd old hold
      have heq : old = s.heap.length :=
        hsame _ ((hmem _).mpr (Or.inl hgot')) _ ((hmem _).mpr (Or.inr rfl)) rfl rfl
      have hlt : old < s.heap.length := h.known _ hgot'
      apply Nat.lt_irrefl old (heq ▸ hlt)
  · rintro ⟨hsame, hnone⟩
    have hfirst : ∀ g ∈ s.got, g.fd = fd → g.dels ≠ s.dels fd := by
      rintro g hg rfl hlast
      apply h.kept g hg hlast hnone
    intro g hg g' hg' hfd hdels'
    obtain hg | rfl := (hmem g).mp hg <;> obtain hg' | rfl := (hmem g').mp hg'
    · apply hsame g hg g' hg' hfd hdels'
    · exact absurd hdels' (hfirst g hg hfd)
    · exact absurd hdels'.symm (hfirst g' hg' hfd.symm)
    · rfl

/-! ### The threads -/

/-- A step: a thread starts a call of `get` and looks for the context, a thread makes a context, `del` is
called, or `setTimeout` is called through a pointer. -/
inductive Step (T : Type u) where
  | get (t : T) (fd : ℤ) (autoCreate : Bool)
  | create (t : T) (stat : Option Bool)
  | del (fd : ℤ)
  | setTimeout (ctx : CtxPtr) (type : ℤ) (v : UInt64)

variable [DecidableEq T]

/-- The manager after a thread has got to another place. -/
def setPhase (s : FdManager T) (t : T) (p : GetPhase) : FdManager T :=
  { s with phase := Function.update s.phase t p }

/-- One step. -/
def step (s : FdManager T) : Step T → Option (FdManager T)
  | .get t fd autoCreate =>
      match s.phase t, s.lookup fd autoCreate with
      | .outside, some (.returned (some ctx)) => some (s.returns fd ctx)
      | .outside, some (.returned none) => some s
      | .outside, some .absent => some (s.setPhase t (.creating fd))
      | _, _ => none
  | .create t stat =>
      match s.phase t with
      | .creating fd => (s.create fd stat).map fun (ctx, s) => (s.returns fd ctx).setPhase t .outside
      | .outside => none
  | .del fd => (s.del fd).map fun s => s.deleted fd
  | .setTimeout ctx type v =>
      s.heap[ctx]?.map fun c => { s with heap := s.heap.set ctx (c.setTimeout type v) }

/-- A timeout set through one pointer is seen through another, until one is set through that one. -/
def Seen (s : FdManager T) (ctx ctx' : CtxPtr) : Prop :=
  ∀ type v, ∃ s₁, step s (.setTimeout ctx type v) = some s₁ ∧
    ∀ ls s', (∀ l ∈ ls, ∀ type v, l ≠ .setTimeout ctx' type v) → run step s₁ ls = some s' →
      s'.getTimeout ctx' type = some v

/-- All calls of `get` for a descriptor with no call of `del` for it between them have returned the same
context, and a timeout set through what one of them returned is seen through what the others did. -/
def OneContext (s : FdManager T) : Prop :=
  ∀ g ∈ s.got, ∀ g' ∈ s.got, g.fd = g'.fd → g.dels = g'.dels → g.ctx = g'.ctx ∧ s.Seen g.ctx g'.ctx

/-- A thread that makes a context finds none stored for the descriptor. -/
def Vacant (s : FdManager T) : Step T → Prop
  | .create t _ =>
      match s.phase t with
      | .creating fd => s.stored fd = none
      | .outside => True
  | _ => True

instance Vacant.decidable (s : FdManager T) : ∀ l : Step T, Decidable (s.Vacant l)
  | .get _ _ _ => inferInstanceAs (Decidable True)
  | .create t _ =>
      match h : s.phase t with
      | .creating fd => decidable_of_iff (s.stored fd = none) (by simp [Vacant, h])
      | .outside => .isTrue (by simp [Vacant, h])
  | .del _ => inferInstanceAs (Decidable True)
  | .setTimeout _ _ _ => inferInstanceAs (Decidable True)

/-- A thread that makes a context does not ask for more elements of `m_datas` than an `int` can count. -/
def Fits (s : FdManager T) : Step T → Prop
  | .create t _ =>
      match s.phase t with
      | .creating fd => fd < s.datas.length ∨ fd * 3 / 2 < 2 ^ 31
      | .outside => True
  | _ => True

instance Fits.decidable (s : FdManager T) : ∀ l : Step T, Decidable (s.Fits l)
  | .get _ _ _ => inferInstanceAs (Decidable True)
  | .create t _ =>
      match h : s.phase t with
      | .creating fd => decidable_of_iff (fd < s.datas.length ∨ fd * 3 / 2 < 2 ^ 31) (by simp [Fits, h])
      | .outside => .isTrue (by simp [Fits, h])
  | .del _ => inferInstanceAs (Decidable True)
  | .setTimeout _ _ _ => inferInstanceAs (Decidable True)

/-! ### The steps, read backwards -/

theorem step_get {t : T} {autoCreate : Bool} (h : step s (.get t fd autoCreate) = some s') :
  (∃ ctx, s.stored fd = some ctx ∧ s' = s.returns fd ctx) ∨ ∃ phase, s' = { s with phase := phase }
  := by
  rw [step] at h
  split at h
  · rename_i ctx hphase hlookup
    exact Or.inl ⟨ctx, lookup_spec hlookup, (Option.some.inj h).symm⟩
  · exact Or.inr ⟨s.phase, (Option.some.inj h).symm⟩
  · exact Or.inr ⟨_, (Option.some.inj h).symm⟩
  · cases h

theorem step_create {t : T} {stat : Option Bool} (h : step s (.create t stat) = some s') :
  ∃ fd ctx s₁, s.phase t = .creating fd ∧ s.create fd stat = some (ctx, s₁) ∧
    s' = (s₁.returns fd ctx).setPhase t .outside
  := by
  rw [step] at h
  split at h
  · rename_i fd hphase
    obtain ⟨⟨ctx, s₁⟩, hcreate, rfl⟩ := Option.map_eq_some_iff.mp h
    exact ⟨fd, ctx, s₁, hphase, hcreate, rfl⟩
  · cases h

/-! ### One context for a descriptor -/

/-- The invariant is kept, and what was returned stays the same exactly if no context is stored over
another. -/
theorem Inv.step (h : s.Inv) {l : Step T} (hfits : s.Fits l) (hstep : step s l = some s') :
  s'.Inv ∧ (s'.AllSame ↔ s.AllSame ∧ s.Vacant l)
  := by
  cases l with
  | get t fd autoCreate =>
      obtain ⟨ctx, hstored, rfl⟩ | ⟨phase, rfl⟩ := step_get hstep
      · refine ⟨h.get hstored, ?_⟩
        simp only [AllSame, h.mem_returns hstored, Vacant, and_true]
      · exact ⟨⟨h.sized, h.known, h.past, h.returned, h.kept⟩, (and_iff_left trivial).symm⟩
  | create t stat =>
      obtain ⟨fd, ctx, s₁, hphase, hcreate, rfl⟩ := step_create hstep
      simp only [Fits, hphase] at hfits
      have hInv := h.create hfits hcreate
      refine ⟨⟨hInv.sized, hInv.known, hInv.past, hInv.returned, hInv.kept⟩, ?_⟩
      simp only [Vacant, hphase]
      apply h.allSame_create hfits hcreate
  | del fd =>
      obtain ⟨s₁, hdel, rfl⟩ := Option.map_eq_some_iff.mp hstep
      refine ⟨h.del hdel, ?_⟩
      obtain ⟨-, -, -, hgot⟩ := del_spec h.sized hdel
      simp only [AllSame, deleted, hgot, Vacant, and_true]
  | setTimeout ctx type v =>
      obtain ⟨c, hc, rfl⟩ := Option.map_eq_some_iff.mp hstep
      refine ⟨⟨h.sized, ?_, h.past, h.returned, h.kept⟩, (and_iff_left trivial).symm⟩
      simpa using h.known

/-- A context changes only by a call of `setTimeout` through a pointer to it. -/
theorem getElem?_heap_step {l : Step T} {ctx : CtxPtr} {c : FdCtx} (hl : ∀ type v, l ≠ .setTimeout ctx type v)
    (hstep : step s l = some s') (hc : s.heap[ctx]? = some c) :
  s'.heap[ctx]? = some c
  := by
  cases l with
  | get t fd autoCreate =>
      obtain ⟨_, -, rfl⟩ | ⟨_, rfl⟩ := step_get hstep
      · apply hc
      · apply hc
  | create t stat =>
      obtain ⟨fd, _, s₁, -, hcreate, rfl⟩ := step_create hstep
      change s₁.heap[ctx]? = some c
      rw [create_heap hcreate, List.getElem?_append_left (List.getElem?_eq_some_iff.mp hc).1]
      apply hc
  | del fd =>
      obtain ⟨s₁, hdel, rfl⟩ := Option.map_eq_some_iff.mp hstep
      change s₁.heap[ctx]? = some c
      rw [del_heap hdel]
      apply hc
  | setTimeout ctx' type v =>
      obtain ⟨_, -, rfl⟩ := Option.map_eq_some_iff.mp hstep
      have hne : ctx' ≠ ctx := by
        rintro rfl
        apply hl type v rfl
      change (s.heap.set ctx' _)[ctx]? = some c
      rw [List.getElem?_set_ne hne]
      apply hc

theorem getElem?_heap_run {ctx : CtxPtr} {c : FdCtx} {ls : List (Step T)}
    (hls : ∀ l ∈ ls, ∀ type v, l ≠ .setTimeout ctx type v) (hrun : run step s ls = some s')
    (hc : s.heap[ctx]? = some c) :
  s'.heap[ctx]? = some c
  := by
  have hstep : ∀ (s : FdManager T) l s', s.heap[ctx]? = some c →
      (∀ type v, l ≠ .setTimeout ctx type v) → step s l = some s' → s'.heap[ctx]? = some c :=
    fun s l s' hs hl hstep => getElem?_heap_step hl hstep hs
  apply run_guarded_invariant hstep hc (guarded_of_forall hls) hrun

/-- A timeout set through a pointer is seen through it. -/
theorem seen_self {ctx : CtxPtr} (h : ctx < s.heap.length) :
  s.Seen ctx ctx
  := by
  intro type v
  refine ⟨_, by rw [step, List.getElem?_eq_getElem h, Option.map_some], ?_⟩
  intro ls s' hls hrun
  have hset := getElem?_heap_run hls hrun (List.getElem?_set_self h)
  rw [getTimeout, hset, Option.map_some, FdCtx.getTimeout_setTimeout]

theorem Inv.oneContext_iff (h : s.Inv) :
  s.OneContext ↔ s.AllSame
  := by
  constructor
  · intro hone g hg g' hg' hfd hdels
    apply (hone g hg g' hg' hfd hdels).1
  · intro hsame g hg g' hg' hfd hdels
    have heq := hsame g hg g' hg' hfd hdels
    refine ⟨heq, ?_⟩
    rw [heq]
    apply seen_self (h.known g' hg')

/-- In every run of any threads with descriptors for which the table is not too large, all calls of `get`
for a descriptor with no call of `del` between them return the same context exactly if no context is
stored over another. -/
theorem run_oneContext_iff {ls : List (Step T)} (hfits : Guarded step Fits start ls)
    (hrun : run step start ls = some s) :
  s.OneContext ↔ Guarded step Vacant start ls
  := by
  have hsame : (start : FdManager T).AllSame := by
    simp [AllSame, start]
  have hInv : s.Inv := run_guarded_invariant (fun _ _ _ hs hl hstep => (hs.step hl hstep).1) start_inv
    hfits hrun
  have hiff := run_legal_iff (P := AllSame) (fun _ _ _ hs hl hstep => (hs.step hl hstep).1)
    (fun _ _ _ hs hl hstep => (hs.step hl hstep).2) start_inv hfits hrun
  rw [hInv.oneContext_iff, hiff]
  apply and_iff_right hsame

/-- Two threads get the context of a descriptor one after the other, and of another one beyond the table. -/
def inTurn : List (Step Bool) :=
  [.get false 5 true, .create false (some true), .get true 5 true, .get true 100 true,
    .create true none, .del 5, .get false 5 true, .create false (some true)]

theorem inTurn_oneContext :
  ∃ s, run step start inTurn = some s ∧ s.got = [⟨5, 0, 0⟩, ⟨5, 0, 0⟩, ⟨100, 0, 1⟩, ⟨5, 1, 2⟩] ∧
    s.OneContext
  := by
  have hgot : (run step start inTurn).map (fun s => s.got)
      = some [⟨5, 0, 0⟩, ⟨5, 0, 0⟩, ⟨100, 0, 1⟩, ⟨5, 1, 2⟩] := by
    decide
  obtain ⟨s, hrun, hs⟩ := Option.map_eq_some_iff.mp hgot
  exact ⟨s, hrun, hs, (run_oneContext_iff (by decide) hrun).mpr (by decide)⟩

/-- Two threads get the context of the same descriptor, and both find none. -/
def overlap : List (Step Bool) :=
  [.get false 5 true, .get true 5 true, .create false (some true), .create true (some true)]

/-- A timeout set through the first context is not seen through the second, nor by a socket that asks
afterwards. -/
theorem overlap_lost :
  ∃ s s' : FdManager Bool, run step start overlap = some s ∧ s.got = [⟨5, 0, 0⟩, ⟨5, 0, 1⟩] ∧
    step s (.setTimeout 0 FdCtx.SO_SNDTIMEO 1000) = some s' ∧
    s'.getTimeout 1 FdCtx.SO_SNDTIMEO = some (-1) ∧
    s'.lookup 5 true = some (.returned (some 1)) ∧ s'.getSendTimeout (some 1) = -1 ∧ ¬ s.OneContext
  := by
  have hend : ((run step start overlap).bind fun s : FdManager Bool =>
      (step s (.setTimeout 0 FdCtx.SO_SNDTIMEO 1000)).map fun s' =>
        (s.got, s'.getTimeout 1 FdCtx.SO_SNDTIMEO, s'.lookup 5 true, s'.getSendTimeout (some 1)))
      = some ([⟨5, 0, 0⟩, ⟨5, 0, 1⟩], some (-1), some (.returned (some 1)), -1) := by
    decide
  obtain ⟨s, hrun, hset⟩ := Option.bind_eq_some_iff.mp hend
  obtain ⟨s', hstep, hvalues⟩ := Option.map_eq_some_iff.mp hset
  simp only [Prod.mk.injEq] at hvalues
  obtain ⟨hgot, htimeout, hlookup, hsend⟩ := hvalues
  refine ⟨s, s', hrun, hgot, hstep, htimeout, hlookup, hsend, ?_⟩
  intro hone
  have hfirst : (⟨5, 0, 0⟩ : Got) ∈ s.got := by simp [hgot]
  have hsecond : (⟨5, 0, 1⟩ : Got) ∈ s.got := by simp [hgot]
  have hsame : (0 : CtxPtr) = 1 := (hone _ hfirst _ hsecond rfl rfl).1
  exact absurd hsame (by decide)

end FdManager

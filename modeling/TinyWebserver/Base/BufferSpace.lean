import TinyWebserver.Base.BufferRefinement

/-!
# The space of a buffer

`MakeSpace_` extends the storage only if the free bytes do not suffice even when the contents are moved to
the front, and then by no more than what is behind them. So the storage has its initial size, or at most
twice the number of bytes that have waited in the buffer at some moment, `run_size_le`.
-/

namespace Buffer

open Memory Transition

variable {b b' : Buffer} {len n : ℕ}

/-- After an operation the storage is as long as before, or at most twice as long as the contents. -/
def Grows (b b' : Buffer) : Prop :=
  b'.buffer.length = b.buffer.length ∨ b'.buffer.length ≤ 2 * b'.readableBytes

/-! ### Making space -/

/-- The storage is kept, or it was shorter than the contents with what is asked for. -/
theorem Inv.size_makeSpace (h : b.Inv) (hmake : b.makeSpace len = some b') :
  b'.readableBytes = b.readableBytes ∧
    (b'.buffer.length = b.buffer.length ∨ b'.buffer.length ≤ b.readableBytes + 2 * len)
  := by
  have hread := h.readPos_le
  have hwrite := h.writePos_le
  have hcontents := h.length_contents
  rw [Buffer.makeSpace] at hmake
  split at hmake
  · rename_i hshort
    obtain rfl := Option.some.inj hmake
    refine ⟨rfl, Or.inr ?_⟩
    simp only [writableBytes, prependableBytes, readableBytes, length_resize] at hshort ⊢
    omega
  · simp only [readableBytes, Nat.sub_zero, if_true] at hmake
    obtain rfl := Option.some.inj hmake
    refine ⟨by simp only [readableBytes, Nat.sub_zero], Or.inl ?_⟩
    apply length_overwrite
    rw [hcontents, readableBytes]
    omega

theorem Inv.size_ensureWriteable (h : b.Inv) (hensure : b.ensureWriteable len = some b') :
  b'.readableBytes = b.readableBytes ∧ len ≤ b'.writableBytes ∧
    (b'.buffer.length = b.buffer.length ∨ b'.buffer.length ≤ b.readableBytes + 2 * len)
  := by
  rw [Buffer.ensureWriteable] at hensure
  dsimp only at hensure
  split at hensure
  · obtain ⟨b₁, hb₁, hroom⟩ := Option.bind_eq_some_iff.mp hensure
    split at hroom
    · rename_i hlen
      obtain rfl := Option.some.inj hroom
      obtain ⟨hreadable, hsize⟩ := h.size_makeSpace hb₁
      exact ⟨hreadable, hlen, hsize⟩
    · cases hroom
  · rw [Option.bind_eq_bind, Option.bind_some] at hensure
    split at hensure
    · rename_i hlen
      obtain rfl := Option.some.inj hensure
      exact ⟨rfl, hlen, Or.inl rfl⟩
    · cases hensure

/-- What is appended is behind the contents, so a longer storage is at most twice as long as these. -/
theorem Inv.grows_append (h : b.Inv) {str : List Byte} (happend : b.append str = some b') :
  Grows b b'
  := by
  obtain ⟨b₁, hb₁, hb'⟩ := Option.bind_eq_some_iff.mp happend
  obtain rfl := Option.some.inj hb'
  obtain ⟨hreadable, hroom, hsize⟩ := h.size_ensureWriteable hb₁
  obtain ⟨b₁', hb₁', hInv, -, -⟩ := h.ensureWriteable str.length
  obtain rfl : b₁' = b₁ := Option.some.inj (hb₁'.symm.trans hb₁)
  have hread := hInv.readPos_le
  have hwrite := hInv.writePos_le
  have hfit : b₁'.writePos + str.length ≤ b₁'.buffer.length := by
    rw [writableBytes] at hroom
    omega
  rw [Grows]
  simp only [hasWritten, length_overwrite hfit]
  simp only [readableBytes] at hreadable hsize ⊢
  omega

/-- `ReadFd` fills the storage and appends the rest, which is then longer than the free bytes in front. -/
theorem Inv.grows_readFd (h : b.Inv) {data : List Byte} {res : Except Errno ℕ}
    (hread : b.readFd (.ok data) = some (res, b')) :
  Grows b b'
  := by
  have hpos := h.readPos_le
  have hwrite := h.writePos_le
  have hfit : b.writePos + (data.take b.writableBytes).length ≤ b.buffer.length := by
    simp only [List.length_take, writableBytes]
    omega
  rw [Buffer.readFd] at hread
  dsimp only at hread
  split at hread
  · obtain ⟨-, rfl⟩ := Prod.mk.inj (Option.some.inj hread)
    exact Or.inl (length_overwrite hfit)
  · obtain ⟨b₁, hb₁, hb'⟩ := Option.bind_eq_some_iff.mp hread
    obtain ⟨-, rfl⟩ := Prod.mk.inj (Option.some.inj hb')
    have hfull : Inv { b with
        buffer := overwrite b.buffer b.writePos (data.take b.writableBytes)
        writePos := (overwrite b.buffer b.writePos (data.take b.writableBytes)).length } := by
      constructor
      · simp only [length_overwrite hfit]
        omega
      · exact le_rfl
      · simp only [length_overwrite hfit]
        apply h.size_pos
    rcases hfull.grows_append hb₁ with hsize | hsize
    · exact Or.inl (hsize.trans (length_overwrite hfit))
    · exact Or.inr hsize

/-! ### Whole runs -/

/-- One operation. -/
theorem Matches.grows {p p' : Pair} {op : Op} (h : Matches p.buffer p.fifo) (hstep : p.step op = some p') :
  Grows p.buffer p'.buffer
  := by
  obtain ⟨b', hb', rfl⟩ := Option.map_eq_some_iff.mp hstep
  cases op with
  | append str => exact h.inv.grows_append hb'
  | appendBuffer other =>
      rw [Op.onBuffer, appendBuffer] at hb'
      split at hb'
      · cases hb'
      · exact h.inv.grows_append hb'
  | readFd res =>
      obtain ⟨⟨res', b₁⟩, hread, rfl⟩ := Option.map_eq_some_iff.mp hb'
      cases res with
      | error e =>
          obtain ⟨-, rfl⟩ := Prod.mk.inj (Option.some.inj hread)
          exact Or.inl rfl
      | ok data => exact h.inv.grows_readFd hread
  | writeFd res =>
      obtain rfl := Option.some.inj hb'
      cases res <;> exact Or.inl rfl
  | retrieve len =>
      obtain rfl := Option.some.inj hb'
      exact Or.inl rfl
  | retrieveUntil stop =>
      rw [Op.onBuffer, retrieveUntil] at hb'
      split at hb'
      · obtain rfl := Option.some.inj hb'
        exact Or.inl rfl
      · cases hb'
  | retrieveAll =>
      obtain rfl := Option.some.inj hb'
      exact Or.inl (List.length_replicate ..)
  | retrieveAllToStr =>
      obtain rfl := Option.some.inj hb'
      exact Or.inl (List.length_replicate ..)

/-- A longer storage goes back to a moment of the run at which half of it was in use. -/
theorem Matches.size_le {p p' : Pair} {ops : List Op} (h : Matches p.buffer p.fifo)
    (hops : Guarded Pair.step (fun p op => op.Legal p.buffer) p ops)
    (hrun : run Pair.step p ops = some p') :
  p'.buffer.buffer.length ≤ p.buffer.buffer.length ∨
    ∃ first rest p₁, ops = first ++ rest ∧ run Pair.step p first = some p₁ ∧
      p'.buffer.buffer.length ≤ 2 * p₁.buffer.readableBytes
  := by
  induction ops generalizing p with
  | nil =>
      obtain rfl := Option.some.inj hrun
      exact Or.inl le_rfl
  | cons op ops ih =>
      obtain ⟨p₁, hstep, hrest⟩ := Option.bind_eq_some_iff.mp hrun
      obtain ⟨b₁, hb₁, hnext⟩ := h.step hops.1
      have hp₁ : p.step op = some ⟨b₁, op.onFifo p.buffer p.fifo⟩ := by simp [Pair.step, hb₁]
      obtain rfl := Option.some.inj (hp₁.symm.trans hstep)
      rcases ih hnext (hops.2 _ hstep) hrest with hsame | ⟨first, rest, p₂, rfl, hfirst, hhalf⟩
      · rcases h.grows hstep with hkept | hhalf
        · exact Or.inl (hsame.trans hkept.le)
        · refine Or.inr ⟨[op], ops, _, rfl, ?_, hsame.trans hhalf⟩
          rw [run_cons, hstep]
          rfl
      · refine Or.inr ⟨op :: first, rest, p₂, rfl, ?_, hhalf⟩
        rw [run_cons, hstep]
        exact hfirst

/-- In every run of legal operations the storage has at most its initial size, or there was a moment at
which at least half of what it has now was in use. -/
theorem run_size_le {ops : List Op} {p : Pair} (hn : 1 ≤ n)
    (hops : Guarded Pair.step (fun p op => op.Legal p.buffer) (Pair.new n) ops)
    (hrun : run Pair.step (Pair.new n) ops = some p) :
  p.buffer.buffer.length ≤ n ∨
    ∃ first rest p₁, ops = first ++ rest ∧ run Pair.step (Pair.new n) first = some p₁ ∧
      p.buffer.buffer.length ≤ 2 * p₁.buffer.readableBytes
  := by
  have hnew : Matches (Pair.new n).buffer (Pair.new n).fifo := ⟨new_inv hn, contents_new n⟩
  have hsize : (Pair.new n).buffer.buffer.length = n := List.length_replicate ..
  have hbound := hnew.size_le hops hrun
  rw [hsize] at hbound
  apply hbound

/-- The storage of one byte is extended twice. -/
theorem run_size_le_spill :
  ∃ p, run Pair.step (Pair.new 1) spillOps = some p ∧ (p.buffer.buffer.length ≤ 1 ∨
    ∃ first rest p₁, spillOps = first ++ rest ∧ run Pair.step (Pair.new 1) first = some p₁ ∧
      p.buffer.buffer.length ≤ 2 * p₁.buffer.readableBytes)
  := by
  have hops : Guarded Pair.step (fun p op => op.Legal p.buffer) (Pair.new 1) spillOps := by decide
  exact ⟨_, rfl, run_size_le (le_refl 1) hops rfl⟩

end Buffer

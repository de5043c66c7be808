import TinyWebserver.Base.Bytes
import TinyWebserver.Lib.Memory

/-!
# The byte buffer

`Buffer` is the class of `base/buffer.cpp`: a block of storage with a read and a write position.
The bytes between the two positions are the ones waiting to be read, `Buffer.contents`. Pointers
into the storage are offsets. A function whose body asserts something returns an `Option`, with
`none` for a failed assertion, and the results of the system calls are arguments.

Positions and sizes are natural numbers: no block of memory has `2 ^ 64` bytes, and the
differences the source takes are between positions in order.
-/

/-- The class `Buffer`. -/
structure Buffer where
  buffer : List Byte
  readPos : ℕ
  writePos : ℕ
deriving DecidableEq, Repr

namespace Buffer

open Memory

/-- The constructor `Buffer(int initBuffSize)`. -/
def new (initBuffSize : ℕ) : Buffer := ⟨List.replicate initBuffSize 0, 0, 0⟩

/-- The free bytes behind the write position. -/
def writableBytes (b : Buffer) : ℕ := b.buffer.length - b.writePos

/-- The bytes waiting to be read. -/
def readableBytes (b : Buffer) : ℕ := b.writePos - b.readPos

/-- The free bytes in front of the read position. -/
def prependableBytes (b : Buffer) : ℕ := b.readPos

/-- The bytes in `[readPos, writePos)`. -/
def contents (b : Buffer) : List Byte := slice b.buffer b.readPos b.writePos

/-- `MakeSpace_`: grow the storage if the free bytes behind and in front do not suffice, and move
the contents to the front otherwise. -/
def makeSpace (b : Buffer) (len : ℕ) : Option Buffer :=
  if b.writableBytes + b.prependableBytes < len then
    some { b with buffer := resize b.buffer (b.writePos + len + 1) 0 }
  else
    let readable := b.readableBytes
    let b' : Buffer :=
      { buffer := overwrite b.buffer 0 b.contents, readPos := 0, writePos := readable }
    if readable = b'.readableBytes then some b' else none

/-- `EnsureWriteable`. -/
def ensureWriteable (b : Buffer) (len : ℕ) : Option Buffer := do
  let b' ← if b.writableBytes < len then b.makeSpace len else some b
  if len ≤ b'.writableBytes then some b' else none

/-- `HasWritten`. -/
def hasWritten (b : Buffer) (len : ℕ) : Buffer := { b with writePos := b.writePos + len }

/-- `Retrieve`. -/
def retrieve (b : Buffer) (len : ℕ) : Buffer := { b with readPos := b.readPos + len }

/-- `RetrieveUntil`, for a pointer to offset `stop` of the storage. -/
def retrieveUntil (b : Buffer) (stop : ℕ) : Option Buffer :=
  if b.readPos ≤ stop then some (b.retrieve (stop - b.readPos)) else none

/-- `RetrieveAll`. -/
def retrieveAll (b : Buffer) : Buffer := ⟨List.replicate b.buffer.length 0, 0, 0⟩

/-- `RetrieveAllToStr`. -/
def retrieveAllToStr (b : Buffer) : List Byte × Buffer := (b.contents, b.retrieveAll)

/-- `Append` of the bytes `str`, given by a pointer that is not null. -/
def append (b : Buffer) (str : List Byte) : Option Buffer := do
  let b' ← b.ensureWriteable str.length
  some ({ b' with buffer := overwrite b'.buffer b'.writePos str }.hasWritten str.length)

/-- `Append` of the contents of another buffer. The pointer `other.Peek()` is null exactly if
`other` has no storage. -/
def appendBuffer (b other : Buffer) : Option Buffer :=
  if other.buffer = [] then none else b.append other.contents

/-- The size of the stack area of `ReadFd`. -/
def extraSize : ℕ := 65535

/-- `ReadFd`, where `readv` fails with an error number or delivers the bytes `data`, first to the
storage behind the write position and then to the stack area. -/
def readFd (b : Buffer) : Except Errno (List Byte) → Option (Except Errno ℕ × Buffer)
  | .error e => some (.error e, b)
  | .ok data =>
      let writeable := b.writableBytes
      let b' := { b with buffer := overwrite b.buffer b.writePos (data.take writeable) }
      if data.length ≤ writeable then
        some (.ok data.length, { b' with writePos := b'.writePos + data.length })
      else do
        let b'' ← { b' with writePos := b'.buffer.length }.append (data.drop writeable)
        some (.ok data.length, b'')

/-- `WriteFd`, where `write` fails with an error number or takes the first `len` bytes. -/
def writeFd (b : Buffer) : Except Errno ℕ → Except Errno ℕ × Buffer
  | .error e => (.error e, b)
  | .ok len => (.ok len, b.retrieve len)

/-- `ReadFd` returns the number of the bytes that `readv` has delivered. -/
theorem readFd_len {b b' : Buffer} {data : List Byte} {len : Except Errno ℕ}
    (h : b.readFd (.ok data) = some (len, b')) :
  len = .ok data.length
  := by
  simp only [readFd] at h
  split at h
  · exact (Prod.mk.inj (Option.some.inj h)).1.symm
  · obtain ⟨b'', -, h⟩ := Option.bind_eq_some_iff.mp h
    exact (Prod.mk.inj (Option.some.inj h)).1.symm

/-- The positions of the buffer are in order and inside a storage that is not empty. -/
structure Inv (b : Buffer) : Prop where
  readPos_le : b.readPos ≤ b.writePos
  writePos_le : b.writePos ≤ b.buffer.length
  size_pos : 0 < b.buffer.length

instance Inv.decidable (b : Buffer) : Decidable b.Inv :=
  decidable_of_iff
    (b.readPos ≤ b.writePos ∧ b.writePos ≤ b.buffer.length ∧ 0 < b.buffer.length)
    ⟨fun ⟨hread, hwrite, hsize⟩ => ⟨hread, hwrite, hsize⟩,
      fun ⟨hread, hwrite, hsize⟩ => ⟨hread, hwrite, hsize⟩⟩

/-! ### What the operations do to the contents -/

theorem Inv.length_contents {b : Buffer} (h : b.Inv) :
  b.contents.length = b.readableBytes
  := length_slice b.buffer h.writePos_le

theorem new_inv {n : ℕ} (hn : 1 ≤ n) :
  (new n).Inv
  := by
  constructor
  · simp [new]
  · simp [new]
  · simp only [new, List.length_replicate]
    apply hn

@[simp]
theorem contents_new (n : ℕ) :
  (new n).contents = []
  := slice_self _ 0

theorem Inv.retrieveAll {b : Buffer} (h : b.Inv) :
  b.retrieveAll.Inv
  := by
  constructor
  · simp [Buffer.retrieveAll]
  · simp [Buffer.retrieveAll]
  · simpa [Buffer.retrieveAll] using h.size_pos

@[simp]
theorem contents_retrieveAll (b : Buffer) :
  b.retrieveAll.contents = []
  := slice_self _ 0

theorem Inv.retrieve {b : Buffer} (h : b.Inv) {len : ℕ} (hlen : len ≤ b.readableBytes) :
  (b.retrieve len).Inv
  := by
  have := h.readPos_le
  constructor
  · simp only [Buffer.retrieve, readableBytes] at hlen ⊢
    omega
  · apply h.writePos_le
  · apply h.size_pos

@[simp]
theorem contents_retrieve (b : Buffer) (len : ℕ) :
  (b.retrieve len).contents = b.contents.drop len
  := (drop_slice b.buffer b.readPos b.writePos len).symm

/-- Making space succeeds, keeps the contents and leaves at least `len` free bytes behind the
write position. -/
theorem Inv.makeSpace {b : Buffer} (h : b.Inv) {len : ℕ} (hlen : b.writableBytes < len) :
  ∃ b', b.makeSpace len = some b' ∧ b'.Inv ∧ b'.contents = b.contents ∧
    len ≤ b'.writableBytes
  := by
  obtain ⟨hread, hwrite, hsize⟩ := h
  have hcontents := Inv.length_contents ⟨hread, hwrite, hsize⟩
  unfold Buffer.makeSpace
  split
  · refine ⟨_, rfl, ⟨hread, ?_, ?_⟩, ?_, ?_⟩
    · simp only [length_resize]
      omega
    · simp only [length_resize]
      omega
    · apply slice_resize hwrite
      omega
    · simp only [writableBytes, length_resize]
      omega
  · rename_i hroom
    have hlen' : (overwrite b.buffer 0 b.contents).length = b.buffer.length := by
      apply length_overwrite
      rw [hcontents, readableBytes]
      omega
    rw [if_pos (by simp [readableBytes])]
    simp only [writableBytes, prependableBytes] at hroom
    refine ⟨_, rfl, ⟨Nat.zero_le _, ?_, ?_⟩, ?_, ?_⟩
    · simp only [hlen', readableBytes]
      omega
    · rw [hlen']
      apply hsize
    · rw [← hcontents]
      apply slice_overwrite_zero
    · simp only [writableBytes, hlen', readableBytes]
      omega

/-- `EnsureWriteable` succeeds, keeps the contents and leaves at least `len` free bytes behind
the write position. -/
theorem Inv.ensureWriteable {b : Buffer} (h : b.Inv) (len : ℕ) :
  ∃ b', b.ensureWriteable len = some b' ∧ b'.Inv ∧ b'.contents = b.contents ∧
    len ≤ b'.writableBytes
  := by
  unfold Buffer.ensureWriteable
  split
  · rename_i hlen
    obtain ⟨b', hb', hInv, hcontents, hroom⟩ := h.makeSpace hlen
    use b'
    simp [hb', hInv, hcontents, hroom]
  · rename_i hlen
    use b
    simp only [Option.bind_eq_bind, Option.bind_some]
    have hroom : len ≤ b.writableBytes := by omega
    simp [h, hroom]

/-- `Append` succeeds and puts the bytes behind the contents. -/
theorem Inv.append {b : Buffer} (h : b.Inv) (str : List Byte) :
  ∃ b', b.append str = some b' ∧ b'.Inv ∧ b'.contents = b.contents ++ str
  := by
  obtain ⟨b', hb', ⟨hread, hwrite, hsize⟩, hcontents, hroom⟩ := h.ensureWriteable str.length
  have hfit : b'.writePos + str.length ≤ b'.buffer.length := by
    simp only [writableBytes] at hroom
    omega
  use { b' with buffer := overwrite b'.buffer b'.writePos str }.hasWritten str.length
  simp only [Buffer.append, hb', Option.bind_eq_bind, Option.bind_some, true_and]
  constructor
  · constructor
    · simp only [hasWritten]
      omega
    · simpa only [hasWritten, length_overwrite hfit] using hfit
    · simpa only [hasWritten, length_overwrite hfit] using hsize
  · rw [← hcontents]
    apply slice_overwrite _ hread hwrite

theorem length_le_of_makeSpace {b b' : Buffer} {len : ℕ} (hlen : b.writableBytes < len)
    (h : b.makeSpace len = some b') :
  b.buffer.length ≤ b'.buffer.length
  := by
  unfold Buffer.makeSpace at h
  split at h
  · obtain rfl := Option.some.inj h
    simp only [length_resize, writableBytes] at hlen ⊢
    omega
  · dsimp only at h
    split at h
    · obtain rfl := Option.some.inj h
      apply length_le_overwrite
    · simp at h

theorem length_le_of_ensureWriteable {b b' : Buffer} {len : ℕ}
    (h : b.ensureWriteable len = some b') :
  b.buffer.length ≤ b'.buffer.length
  := by
  unfold Buffer.ensureWriteable at h
  dsimp only at h
  split at h
  · rename_i hlen
    obtain ⟨b₁, hb₁, h⟩ := Option.bind_eq_some_iff.mp h
    split at h
    · obtain rfl := Option.some.inj h
      apply length_le_of_makeSpace hlen hb₁
    · simp at h
  · rw [Option.bind_eq_bind, Option.bind_some] at h
    split at h
    · obtain rfl := Option.some.inj h
      apply le_rfl
    · simp at h

/-- `Append` never shrinks the storage, whatever the positions are. -/
theorem length_le_of_append {b b' : Buffer} {str : List Byte} (h : b.append str = some b') :
  b.buffer.length ≤ b'.buffer.length
  := by
  obtain ⟨b₁, hb₁, h⟩ := Option.bind_eq_some_iff.mp h
  obtain rfl := Option.some.inj h
  apply (length_le_of_ensureWriteable hb₁).trans
  apply length_le_overwrite

/-- `Append` of another buffer succeeds and puts its contents behind the contents. -/
theorem Inv.appendBuffer {b other : Buffer} (h : b.Inv) (hother : other.Inv) :
  ∃ b', b.appendBuffer other = some b' ∧ b'.Inv ∧ b'.contents = b.contents ++ other.contents
  := by
  have hne : other.buffer ≠ [] := List.ne_nil_of_length_pos hother.size_pos
  rw [Buffer.appendBuffer, if_neg hne]
  apply h.append

/-- A successful `readv` puts the delivered bytes behind the contents, whether they fit or spill
into the stack area. -/
theorem Inv.readFd {b : Buffer} (h : b.Inv) (data : List Byte) :
  ∃ b', b.readFd (.ok data) = some (.ok data.length, b') ∧ b'.Inv ∧
    b'.contents = b.contents ++ data
  := by
  obtain ⟨hread, hwrite, hsize⟩ := h
  have hfit : b.writePos + (data.take b.writableBytes).length ≤ b.buffer.length := by
    simp only [List.length_take, writableBytes]
    omega
  have hslice := slice_overwrite (data.take b.writableBytes) hread hwrite
  simp only [Buffer.readFd]
  split
  · rename_i hlen
    rw [List.take_of_length_le hlen] at hfit hslice ⊢
    refine ⟨_, rfl, ⟨?_, ?_, ?_⟩, hslice⟩
    · simp only
      omega
    · simpa only [length_overwrite hfit] using hfit
    · simpa only [length_overwrite hfit] using hsize
  · rename_i hlen
    have hfull : b.writePos + (data.take b.writableBytes).length = b.buffer.length := by
      rw [List.length_take_of_le (by omega), writableBytes]
      omega
    obtain ⟨b', hb', hInv, hcontents⟩ := Inv.append (b :=
      { b with
        buffer := overwrite b.buffer b.writePos (data.take b.writableBytes)
        writePos := (overwrite b.buffer b.writePos (data.take b.writableBytes)).length })
      (by
        rw [length_overwrite hfit]
        constructor
        · apply hread.trans hwrite
        · simp only [length_overwrite hfit, le_refl]
        · simpa only [length_overwrite hfit] using hsize)
      (data.drop b.writableBytes)
    use b'
    simp only [hb', Option.bind_eq_bind, Option.bind_some, true_and]
    refine ⟨hInv, ?_⟩
    rw [hcontents]
    simp only [contents, length_overwrite hfit]
    rw [← hfull, hslice, List.append_assoc, List.take_append_drop]

end Buffer

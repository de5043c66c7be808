import TinyWebserver.Base.Buffer
import TinyWebserver.Lib.Fifo
import TinyWebserver.Lib.Transition

/-!
# Buffers refine unbounded queues

Every sequence of buffer operations is matched, operation by operation, by a first-in first-out
queue of bytes: `Op.onFifo` says what an operation means for the queue, `Pair.step` takes the two
together, and `Matches` relates a buffer in good order to a queue with the same contents. No
assertion fails on the way.
-/

namespace Buffer

open Transition

/-- An operation on a buffer, with its arguments and the result of its system call. -/
inductive Op where
  | append (str : List Byte)
  | appendBuffer (other : Buffer)
  | readFd (res : Except Errno (List Byte))
  | writeFd (res : Except Errno ℕ)
  | retrieve (len : ℕ)
  | retrieveUntil (stop : ℕ)
  | retrieveAll
  | retrieveAllToStr

/-- What the callers and the kernel promise of an operation on `b`: another buffer that is
appended is in good order, `readv` delivers at most what fits the two areas it is given, `write`
takes at most the contents, and what is retrieved lies in the contents. -/
def Op.Legal (b : Buffer) : Op → Prop
  | .append _ => True
  | .appendBuffer other => other.Inv
  | .readFd (.error _) => True
  | .readFd (.ok data) => data.length ≤ b.writableBytes + extraSize
  | .writeFd (.error _) => True
  | .writeFd (.ok len) => len ≤ b.readableBytes
  | .retrieve len => len ≤ b.readableBytes
  | .retrieveUntil stop => b.readPos ≤ stop ∧ stop ≤ b.writePos
  | .retrieveAll => True
  | .retrieveAllToStr => True

instance Op.Legal.decidable (b : Buffer) : ∀ op : Op, Decidable (op.Legal b)
  | .append _ => inferInstanceAs (Decidable True)
  | .appendBuffer other => inferInstanceAs (Decidable other.Inv)
  | .readFd (.error _) => inferInstanceAs (Decidable True)
  | .readFd (.ok data) => inferInstanceAs (Decidable (data.length ≤ _))
  | .writeFd (.error _) => inferInstanceAs (Decidable True)
  | .writeFd (.ok len) => inferInstanceAs (Decidable (len ≤ _))
  | .retrieve len => inferInstanceAs (Decidable (len ≤ _))
  | .retrieveUntil stop => inferInstanceAs (Decidable (_ ≤ stop ∧ stop ≤ _))
  | .retrieveAll => inferInstanceAs (Decidable True)
  | .retrieveAllToStr => inferInstanceAs (Decidable True)

/-- The operation on a buffer. -/
def Op.onBuffer (b : Buffer) : Op → Option Buffer
  | .append str => b.append str
  | .appendBuffer other => b.appendBuffer other
  | .readFd res => (b.readFd res).map Prod.snd
  | .writeFd res => some (b.writeFd res).2
  | .retrieve len => some (b.retrieve len)
  | .retrieveUntil stop => b.retrieveUntil stop
  | .retrieveAll => some b.retrieveAll
  | .retrieveAllToStr => some b.retrieveAllToStr.2

/-- What the operation on the buffer `b` means for the queue of its contents. -/
def Op.onFifo (b : Buffer) (f : Fifo Byte) : Op → Fifo Byte
  | .append str => f.push str
  | .appendBuffer other => f.push other.contents
  | .readFd (.error _) => f
  | .readFd (.ok data) => f.push data
  | .writeFd (.error _) => f
  | .writeFd (.ok len) => f.pop len
  | .retrieve len => f.pop len
  | .retrieveUntil stop => f.pop (stop - b.readPos)
  | .retrieveAll => f.pop f.queue.length
  | .retrieveAllToStr => f.pop f.queue.length

/-- A buffer together with the queue it is compared with. -/
structure Pair where
  buffer : Buffer
  fifo : Fifo Byte

/-- One operation, on the buffer and on the queue. -/
def Pair.step (p : Pair) (op : Op) : Option Pair :=
  (op.onBuffer p.buffer).map fun b => ⟨b, op.onFifo p.buffer p.fifo⟩

/-- A new buffer of the given size, and the empty queue. -/
def Pair.new (initBuffSize : ℕ) : Pair := ⟨Buffer.new initBuffSize, Fifo.empty⟩

/-- The buffer is in good order and its contents are those of the queue. -/
structure Matches (b : Buffer) (f : Fifo Byte) : Prop where
  inv : b.Inv
  contents_eq : b.contents = f.queue

/-! ### One operation -/

theorem Matches.push {b b' : Buffer} {f : Fifo Byte} {xs : List Byte} (h : Matches b f)
    (hInv : b'.Inv) (hcontents : b'.contents = b.contents ++ xs) :
  Matches b' (f.push xs)
  := by
  use hInv
  rw [hcontents, h.contents_eq, Fifo.queue_push]

theorem Matches.pop {b : Buffer} {f : Fifo Byte} {len : ℕ} (h : Matches b f)
    (hlen : len ≤ b.readableBytes) :
  Matches (b.retrieve len) (f.pop len)
  := by
  use h.inv.retrieve hlen
  rw [contents_retrieve, h.contents_eq, Fifo.queue_pop]

theorem Matches.popAll {b : Buffer} {f : Fifo Byte} (h : Matches b f) :
  Matches b.retrieveAll (f.pop f.queue.length)
  := by
  use h.inv.retrieveAll
  simp

/-- A legal operation on a matching pair succeeds and leaves a matching pair. -/
theorem Matches.step {b : Buffer} {f : Fifo Byte} (h : Matches b f) {op : Op}
    (hop : op.Legal b) :
  ∃ b', op.onBuffer b = some b' ∧ Matches b' (op.onFifo b f)
  := by
  cases op with
  | append str =>
      obtain ⟨b', hb', hInv, hcontents⟩ := h.inv.append str
      exact ⟨b', hb', h.push hInv hcontents⟩
  | appendBuffer other =>
      obtain ⟨b', hb', hInv, hcontents⟩ := h.inv.appendBuffer hop
      exact ⟨b', hb', h.push hInv hcontents⟩
  | readFd res =>
      cases res with
      | error e => exact ⟨b, rfl, h⟩
      | ok data =>
          obtain ⟨b', hb', hInv, hcontents⟩ := h.inv.readFd data
          exact ⟨b', by simp [Op.onBuffer, hb'], h.push hInv hcontents⟩
  | writeFd res =>
      cases res with
      | error e => exact ⟨b, rfl, h⟩
      | ok len => exact ⟨_, rfl, h.pop hop⟩
  | retrieve len => exact ⟨_, rfl, h.pop hop⟩
  | retrieveUntil stop =>
      obtain ⟨hread, hwrite⟩ := hop
      use b.retrieve (stop - b.readPos)
      constructor
      · simp [Op.onBuffer, retrieveUntil, hread]
      · apply h.pop
        simp only [readableBytes]
        omega
  | retrieveAll => exact ⟨_, rfl, h.popAll⟩
  | retrieveAllToStr => exact ⟨_, rfl, h.popAll⟩

/-! ### Whole runs -/

/-- For every initial size and every sequence of legal operations, all operations succeed, the
positions stay in order and inside the storage, the contents are those of the queue, that is the
bytes accepted so far without those retrieved so far, and they are what `RetrieveAllToStr` returns.
A failed `ReadFd` or `WriteFd` leaves the buffer as it is. -/
theorem refines_fifo {n : ℕ} (hn : 1 ≤ n) {ops : List Op}
    (hops : Guarded Pair.step (fun p op => op.Legal p.buffer) (Pair.new n) ops) :
  ∃ p, run Pair.step (Pair.new n) ops = some p ∧
    p.buffer.readPos ≤ p.buffer.writePos ∧ p.buffer.writePos ≤ p.buffer.buffer.length ∧
    p.buffer.contents = p.fifo.queue ∧
    p.fifo.accepted = p.fifo.retrieved ++ p.buffer.contents ∧
    p.buffer.retrieveAllToStr.1 = p.fifo.queue ∧
    ∀ e, p.buffer.readFd (.error e) = some (.error e, p.buffer) ∧
      p.buffer.writeFd (.error e) = (.error e, p.buffer)
  := by
  have hnew : Matches (Pair.new n).buffer (Pair.new n).fifo :=
    ⟨new_inv hn, contents_new n⟩
  have hstep : ∀ (p : Pair) (op : Op), Matches p.buffer p.fifo → op.Legal p.buffer →
      ∃ p', Pair.step p op = some p' ∧ Matches p'.buffer p'.fifo := by
    intro p op h hop
    obtain ⟨b', hb', h'⟩ := h.step hop
    exact ⟨⟨b', op.onFifo p.buffer p.fifo⟩, by simp [Pair.step, hb'], h'⟩
  obtain ⟨p, hrun, hp⟩ := run_total hstep hnew hops
  refine ⟨p, hrun, hp.inv.readPos_le, hp.inv.writePos_le, hp.contents_eq, ?_, hp.contents_eq,
    fun e => ⟨rfl, rfl⟩⟩
  rw [hp.contents_eq, Fifo.retrieved_append_queue]

/-- Two bytes are appended to a buffer of one byte, one is retrieved, three more are read, past
the end of the storage, and one of the four left is written. -/
def spillOps : List Op :=
  [.append [1, 2], .retrieve 1, .readFd (.ok [3, 4, 5]), .readFd (.error 11), .writeFd (.ok 1)]

theorem refines_fifo_spill :
  ∃ p, run Pair.step (Pair.new 1) spillOps = some p ∧ p.buffer.contents = p.fifo.queue
  := by
  have hops : Guarded Pair.step (fun p op => op.Legal p.buffer) (Pair.new 1) spillOps := by decide
  obtain ⟨p, hrun, -, -, hcontents, -⟩ := refines_fifo (le_refl 1) hops
  exact ⟨p, hrun, hcontents⟩

end Buffer

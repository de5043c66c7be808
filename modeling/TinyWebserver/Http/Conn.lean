import TinyWebserver.Http.Parsing
import TinyWebserver.Http.Response

/-!
# HTTP connections

The class `HttpConn` of `http/httpconn.cpp`: `process` parses a request from the read buffer and
prepares the response, and `write` hands the response to the kernel, in as many parts as the kernel
likes. The outcomes of the system calls are arguments, and `none` stands for a failed assertion.

Lengths are natural numbers, and sums of type `size_t` do not wrap around: ranges that two assigned
vectors describe lie in one address space, and the length of a second vector that was never assigned, of
which nothing else is known, is taken to leave the sum of both below 2^64. The one length in a variable of
type `int`, `remainLen`, is converted.
-/

open Memory

/-- Where a vector of `writev` starts: nowhere yet, at an offset in the storage of the write buffer,
or at an offset in a mapped file. -/
inductive Pointer where
  | unset
  | storage (offset : ℕ)
  | mapped (file : List Byte) (offset : ℕ)
deriving DecidableEq

namespace Pointer

/-- The pointer `n` bytes further on. -/
def add (n : ℕ) : Pointer → Pointer
  | .unset => .unset
  | .storage offset => .storage (offset + n)
  | .mapped file offset => .mapped file (offset + n)

end Pointer

/-- The structure `iovec`. -/
structure IoVec where
  base : Pointer
  len : ℕ

/-- The class `HttpConn`, less the address of the client. -/
structure HttpConn where
  fd : ℤ
  isClose : Bool
  isServerKeepAlive : Bool
  iovCnt : ℕ
  iov0 : IoVec
  iov1 : IoVec
  readBuff : Buffer
  writeBuff : Buffer
  request : HttpRequest
  response : HttpResponse

namespace HttpConn

/-- The constructor, in memory that was zero. -/
def new : HttpConn where
  fd := -1
  isClose := true
  isServerKeepAlive := false
  iovCnt := 0
  iov0 := ⟨.unset, 0⟩
  iov1 := ⟨.unset, 0⟩
  readBuff := .new 1024
  writeBuff := .new 1024
  request := .init
  response := .new

/-- `init`, less the count of the users. -/
def init (c : HttpConn) (fd : ℤ) (isKeepAlive : Bool) : HttpConn :=
  if fd ≤ 0 then c
  else
    { c with
      fd := fd
      isServerKeepAlive := isKeepAlive
      writeBuff := c.writeBuff.retrieveAll
      readBuff := c.readBuff.retrieveAll
      isClose := false }

/-- `Close`, less the count of the users, with the descriptor that it closes, if any. -/
def close (c : HttpConn) : Option ℤ × HttpConn :=
  let c := { c with response := c.response.unmapFile }
  if c.isClose = false then (some c.fd, { c with isClose := true }) else (none, c)

/-- `read`, where `results` are the results of its calls of `readv`, with the value it returns. -/
def read (isET : Bool) (c : HttpConn) :
    List (Except Errno (List Byte)) → Option (Except Errno ℕ × HttpConn)
  | [] => none
  | res :: results => do
      let (len, readBuff) ← c.readBuff.readFd res
      let c := { c with readBuff := readBuff }
      match len with
      | .ok (_ + 1) =>
          if isET then read isET c results
          else if results = [] then some (len, c)
          else none
      | _ => if results = [] then some (len, c) else none

/-- The call of `Init` of the response in `process`, where `ok` is the result of `parse`. -/
def startResponse (srcDir : List Byte) (ok : Bool) (request : HttpRequest) : Option HttpResponse :=
  if ok then HttpResponse.init srcDir request.path request.isKeepAlive 200
  else HttpResponse.init srcDir request.path false 400

/-- The end of `process`: the vectors for a response made in the write buffer. -/
def describe (c : HttpConn) : HttpConn :=
  let c :=
    { c with
      iov0 := ⟨.storage c.writeBuff.readPos, c.writeBuff.readableBytes⟩
      iovCnt := 1 }
  match c.response.file with
  | some file =>
      if 0 < c.response.fileLen then
        { c with iov1 := ⟨.mapped file 0, c.response.fileLen⟩, iovCnt := 2 }
      else c
  | none => c

/-- `process`, with the value it returns. -/
def process (verify : HttpRequest.Verify) (fs : FileSystem) (srcDir : List Byte) (c : HttpConn) :
    Option (Bool × HttpConn) :=
  let c := { c with request := .init }
  if c.readBuff.readableBytes = 0 then some (false, c)
  else do
    let (ok, request, readBuff) ← c.request.parse verify c.readBuff
    let response ← startResponse srcDir ok request
    let (response, writeBuff) ← response.makeResponse fs c.writeBuff
    some (true, describe
      { c with
        request := request, readBuff := readBuff, response := response, writeBuff := writeBuff })

/-- The bytes in memory that a vector describes. -/
def bytesOf (c : HttpConn) (v : IoVec) : List Byte :=
  match v.base with
  | .unset => []
  | .storage offset => slice c.writeBuff.buffer offset (offset + v.len)
  | .mapped file offset => slice file offset (offset + v.len)

/-- The vectors that `writev` is given. -/
def vectors (c : HttpConn) : List IoVec := [c.iov0, c.iov1].take c.iovCnt

/-- The bytes that the `iovCnt` vectors describe. -/
def described (c : HttpConn) : List Byte := c.vectors.flatMap c.bytesOf

/-- The total length of the `iovCnt` vectors. -/
def total (c : HttpConn) : ℕ := (c.vectors.map IoVec.len).sum

/-- A result of `writev`: an error, or the number of bytes the kernel has accepted. -/
abbrev Accepted := Except Errno ℕ

/-- What `write` does with the vectors and the buffer after the kernel has accepted `len` bytes. -/
def advance (c : HttpConn) (len : ℕ) : HttpConn :=
  if c.iov0.len < len then
    let c' :=
      { c with
        iov1 := ⟨c.iov1.base.add (len - c.iov0.len), c.iov1.len - (len - c.iov0.len)⟩ }
    if c.iov0.len ≠ 0 then
      { c' with writeBuff := c.writeBuff.retrieveAll, iov0 := ⟨c.iov0.base, 0⟩ }
    else c'
  else
    { c with
      iov0 := ⟨c.iov0.base.add len, c.iov0.len - len⟩
      writeBuff := c.writeBuff.retrieve len }

/-- One turn of the loop of `write`: the value `write` returns if the turn is the last one, the
connection and the bytes accepted by the kernel. A count above the total length is not a result of
`writev`. -/
def writeTurn (c : HttpConn) : Accepted → Option (Option Accepted × HttpConn × List Byte)
  | .error e => some (some (.error e), c, [])
  | .ok len =>
      if c.total < len then none
      else if len = 0 then some (some (.ok 0), c, [])
      else if c.iov0.len + c.iov1.len = 0 then some (some (.ok len), c, c.described.take len)
      else
        let c' := c.advance len
        let remainLen := toInt (c'.iov0.len + c'.iov1.len)
        some (if 0 < remainLen then none else some (.ok len), c', c.described.take len)

/-- `write`, where `results` are the results of its calls of `writev`, with the value it returns
and the bytes accepted by the kernel. -/
def write (c : HttpConn) : List Accepted → Option (Accepted × HttpConn × List Byte)
  | [] => none
  | res :: results => do
      let (ret, c, sent) ← c.writeTurn res
      match ret with
      | some ret => if results = [] then some (ret, c, sent) else none
      | none =>
          let (ret, c, more) ← c.write results
          some (ret, c, sent ++ more)

/-! ### What `write` changes -/

/-- After the kernel has accepted `len` bytes, both vectors are shorter by their part of them, and the
write buffer has its storage. -/
theorem advance_eq (c : HttpConn) (len : ℕ) :
  ∃ base₀ base₁ writeBuff, c.advance len = { c with
      iov0 := ⟨base₀, c.iov0.len - len⟩
      iov1 := ⟨base₁, c.iov1.len - (len - c.iov0.len)⟩
      writeBuff := writeBuff } ∧
    writeBuff.buffer.length = c.writeBuff.buffer.length
  := by
  unfold advance
  split
  · dsimp only
    split
    · have hzero : c.iov0.len - len = 0 := by omega
      rw [hzero]
      exact ⟨_, _, _, rfl, by simp [Buffer.retrieveAll]⟩
    · have hsame : c.iov0.len - len = c.iov0.len := by omega
      rw [hsame]
      exact ⟨_, _, _, rfl, rfl⟩
  · have hzero : len - c.iov0.len = 0 := by omega
    rw [hzero]
    exact ⟨_, _, _, rfl, rfl⟩

/-! ### The calls of `read` and `write`, read backwards -/

/-- A turn of the loop of `write` leaves the connection as it is, or advances it. -/
theorem eq_or_advance_of_writeTurn {c c' : HttpConn} {res : Accepted} {ret : Option Accepted}
    {sent : List Byte} (h : c.writeTurn res = some (ret, c', sent)) :
  c = c' ∨ ∃ len, c.advance len = c'
  := by
  cases res with
  | error e =>
      obtain ⟨-, rfl, -⟩ : _ ∧ c = c' ∧ _ := by simpa [writeTurn] using h
      exact Or.inl rfl
  | ok len =>
      simp only [writeTurn] at h
      split at h
      · simp at h
      · split at h
        · obtain ⟨-, rfl, -⟩ : _ ∧ c = c' ∧ _ := by simpa using h
          exact Or.inl rfl
        · split at h
          · obtain ⟨-, rfl, -⟩ : _ ∧ c = c' ∧ _ := by simpa using h
            exact Or.inl rfl
          · obtain ⟨-, rfl, -⟩ : _ ∧ c.advance len = c' ∧ _ := by simpa using h
            exact Or.inr ⟨len, rfl⟩

/-- The first call of `readv` in `read` is the last one, or it has delivered something and `read` goes
on. -/
theorem read_cons {isET : Bool} {c c' : HttpConn} {res : Except Errno (List Byte)}
    {results : List (Except Errno (List Byte))} {len : Except Errno ℕ}
    (h : c.read isET (res :: results) = some (len, c')) :
  ∃ len₁ readBuff, c.readBuff.readFd res = some (len₁, readBuff) ∧
    (results = [] ∧ len₁ = len ∧ { c with readBuff := readBuff } = c' ∨
      { c with readBuff := readBuff }.read isET results = some (len, c'))
  := by
  rw [read] at h
  obtain ⟨⟨len₁, readBuff⟩, hread, h⟩ := Option.bind_eq_some_iff.mp h
  refine ⟨len₁, readBuff, hread, ?_⟩
  dsimp only at h
  split at h
  · split at h
    · exact Or.inr h
    · left
      simpa using h
  · left
    simpa using h

/-- The first call of `writev` in `write` is the last one, or `write` goes on. -/
theorem write_cons {c c' : HttpConn} {res : Accepted} {results : List Accepted} {ret : Accepted}
    {sent : List Byte} (h : c.write (res :: results) = some (ret, c', sent)) :
  ∃ ret₁ c₁ sent₁, c.writeTurn res = some (ret₁, c₁, sent₁) ∧
    (results = [] ∧ ret₁ = some ret ∧ c₁ = c' ∧ sent₁ = sent ∨
      ret₁ = none ∧ ∃ sent₂, c₁.write results = some (ret, c', sent₂) ∧ sent₁ ++ sent₂ = sent)
  := by
  rw [write] at h
  obtain ⟨⟨ret₁, c₁, sent₁⟩, hturn, h⟩ := Option.bind_eq_some_iff.mp h
  refine ⟨ret₁, c₁, sent₁, hturn, ?_⟩
  cases ret₁ with
  | some ret₁ =>
      left
      simpa using h
  | none =>
      obtain ⟨⟨ret₂, c₂, sent₂⟩, hwrite, h⟩ := Option.bind_eq_some_iff.mp h
      obtain ⟨rfl, rfl, rfl⟩ : ret₂ = ret ∧ c₂ = c' ∧ sent₁ ++ sent₂ = sent := by simpa using h
      exact Or.inr ⟨rfl, sent₂, hwrite, rfl⟩

end HttpConn

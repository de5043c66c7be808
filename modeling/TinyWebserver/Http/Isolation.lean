import TinyWebserver.Http.Sending

/-!
# Connections that use one object

The server keeps one `HttpConn` for every descriptor number, so clients that get the same number one
after the other use the same object. What an earlier one has left in it does not reach a later one: the
bytes that a connection sends are those that a new object sends, for the same input, files, answers of
the database and counts accepted by the kernel, `serve_eq_new`.

What may be left is the size of the storage of the two buffers, a mapped file, and the second vector,
which `process` leaves as it is for a response without a file. Its length then counts for the rest that
`write` takes for unsent, so that `write` may call `writev` once more, with nothing to send.
-/

open Memory Transition

namespace HttpConn

/-- What is done to a connection, with the outcomes of the system calls. -/
inductive Op where
  | init (fd : ℤ) (isKeepAlive : Bool)
  | read (isET : Bool) (results : List (Except Errno (List Byte)))
  | process (verify : HttpRequest.Verify) (fs : FileSystem) (srcDir : List Byte)
  | write (results : List Accepted)
  | close

/-- The connection after an operation. -/
def step (c : HttpConn) : Op → Option HttpConn
  | .init fd isKeepAlive => some (c.init fd isKeepAlive)
  | .read isET results => (c.read isET results).map Prod.snd
  | .process verify fs srcDir => (c.process verify fs srcDir).map Prod.snd
  | .write results => (c.write results).map fun (_, c, _) => c
  | .close => some c.close.2

/-- The files that are served are small. -/
def Op.Small : Op → Prop
  | .process _ fs _ => fs.Small
  | _ => True

/-- The bytes accepted by the kernel in a call of `write`, where `results` is at least as long as the
list of the calls of `writev` in it. -/
def sentBy (c : HttpConn) : List Accepted → List Byte
  | [] => []
  | res :: results =>
      match c.writeTurn res with
      | none => []
      | some (some _, _, sent) => sent
      | some (none, c, sent) => sent ++ c.sentBy results

theorem sentBy_of_write {c c' : HttpConn} {results : List Accepted} {ret : Accepted}
    {sent : List Byte} (h : c.write results = some (ret, c', sent)) (more : List Accepted) :
  c.sentBy (results ++ more) = sent
  := by
  induction results generalizing c sent with
  | nil => simp [write] at h
  | cons res results ih =>
      obtain ⟨ret₁, c₁, sent₁, hturn, ⟨-, rfl, -, rfl⟩ | ⟨rfl, sent₂, hwrite, rfl⟩⟩ := write_cons h
      · simp only [List.cons_append, sentBy, hturn]
      · simp only [List.cons_append, sentBy, hturn, ih hwrite]

/-- What a connection depends on: its descriptor, what the kernel delivers, the answers of the database,
the files, and what the kernel accepts. -/
structure Visit where
  fd : ℤ
  isKeepAlive : Bool
  isET : Bool
  delivered : List (Except Errno (List Byte))
  verify : HttpRequest.Verify
  fs : FileSystem
  srcDir : List Byte
  accepted : List Accepted

/-- The bytes that are sent to a client: the connection is initialised for it, reads, processes and, if
there is something to write, writes. -/
def serve (c : HttpConn) (v : Visit) : Option (List Byte) := do
  let (_, c) ← (c.init v.fd v.isKeepAlive).read v.isET v.delivered
  let (ok, c) ← c.process v.verify v.fs v.srcDir
  some (if ok then c.sentBy v.accepted else [])

/-! ### What is left in a connection -/

/-- The read buffer is in good order, the write buffer has storage, and the second vector is short. -/
structure Reusable (c : HttpConn) : Prop where
  readBuff : c.readBuff.Inv
  writeBuff : 0 < c.writeBuff.buffer.length
  iov1 : c.iov1.len < 2 ^ 30

theorem new_reusable :
  new.Reusable
  := by
  have hInv : (Buffer.new 1024).Inv := Buffer.new_inv (by norm_num)
  exact ⟨hInv, hInv.size_pos, by norm_num [new]⟩

variable {c c' d : HttpConn}

theorem Reusable.init (h : c.Reusable) (fd : ℤ) (isKeepAlive : Bool) :
  (c.init fd isKeepAlive).Reusable
  := by
  unfold HttpConn.init
  split
  · apply h
  · refine ⟨h.readBuff.retrieveAll, ?_, h.iov1⟩
    simpa [Buffer.retrieveAll] using h.writeBuff

/-- With edge triggering `read` goes on after a call of `readv` that has delivered something. -/
theorem read_of_more {isET : Bool} {data : List Byte} (hmore : data ≠ [] ∧ isET = true)
    (results : List (Except Errno (List Byte))) (h : c.readBuff.Inv) :
  ∃ readBuff : Buffer, readBuff.Inv ∧ readBuff.contents = c.readBuff.contents ++ data ∧
    c.read isET (.ok data :: results) = { c with readBuff := readBuff }.read isET results
  := by
  obtain ⟨readBuff, hread, hInv, hcontents⟩ := h.readFd data
  refine ⟨readBuff, hInv, hcontents, ?_⟩
  rw [read, hread]
  cases data with
  | nil => simp at hmore
  | cons byte data => simp [hmore.2]

/-- Otherwise the call of `readv` is the last one. -/
theorem read_of_last {isET : Bool} {data : List Byte} (hlast : ¬ (data ≠ [] ∧ isET = true))
    (results : List (Except Errno (List Byte))) (h : c.readBuff.Inv) :
  ∃ readBuff : Buffer, readBuff.Inv ∧ readBuff.contents = c.readBuff.contents ++ data ∧
    c.read isET (.ok data :: results) =
      if results = [] then some (.ok data.length, { c with readBuff := readBuff }) else none
  := by
  obtain ⟨readBuff, hread, hInv, hcontents⟩ := h.readFd data
  refine ⟨readBuff, hInv, hcontents, ?_⟩
  rw [read, hread]
  cases data with
  | nil => simp
  | cons byte data =>
      have hET : isET = false := by simpa using hlast
      simp [hET]

/-- What `read` returns and what it puts behind the contents of the read buffer depends on the results of
its calls of `readv`. -/
theorem read_spec (isET : Bool) (results : List (Except Errno (List Byte))) :
  (∀ c : HttpConn, c.readBuff.Inv → c.read isET results = none) ∨
    ∃ len bytes, ∀ c : HttpConn, c.readBuff.Inv → ∃ readBuff,
      c.read isET results = some (len, { c with readBuff := readBuff }) ∧ readBuff.Inv ∧
      readBuff.contents = c.readBuff.contents ++ bytes
  := by
  induction results with
  | nil => exact Or.inl fun _ _ => rfl
  | cons res results ih =>
      cases res with
      | error e =>
          by_cases hlast : results = []
          · refine Or.inr ⟨.error e, [], ?_⟩
            intro c h
            refine ⟨c.readBuff, ?_, h, by simp⟩
            simp [read, Buffer.readFd, hlast]
          · left
            intro c h
            simp [read, Buffer.readFd, hlast]
      | ok data =>
          by_cases hmore : data ≠ [] ∧ isET = true
          · cases ih with
            | inl hnone =>
                left
                intro c h
                obtain ⟨readBuff, hInv, -, hread⟩ := read_of_more hmore results h
                rw [hread, hnone _ hInv]
            | inr hsome =>
                obtain ⟨len, bytes, hsome⟩ := hsome
                refine Or.inr ⟨len, data ++ bytes, ?_⟩
                intro c h
                obtain ⟨readBuff₁, hInv₁, hcontents₁, hread₁⟩ := read_of_more hmore results h
                obtain ⟨readBuff₂, hread₂, hInv₂, hcontents₂⟩ :=
                  hsome { c with readBuff := readBuff₁ } hInv₁
                refine ⟨readBuff₂, hread₁.trans hread₂, hInv₂, ?_⟩
                rw [hcontents₂, hcontents₁, List.append_assoc]
          · by_cases hlast : results = []
            · refine Or.inr ⟨.ok data.length, data, ?_⟩
              intro c h
              obtain ⟨readBuff, hInv, hcontents, hread⟩ := read_of_last hmore results h
              rw [if_pos hlast] at hread
              exact ⟨readBuff, hread, hInv, hcontents⟩
            · left
              intro c h
              obtain ⟨readBuff, -, -, hread⟩ := read_of_last hmore results h
              rw [hread, if_neg hlast]

theorem Reusable.read (h : c.Reusable) {isET : Bool} {results : List (Except Errno (List Byte))}
    {len : Except Errno ℕ} (hread : c.read isET results = some (len, c')) :
  c'.Reusable
  := by
  obtain hnone | ⟨len', bytes, hsome⟩ := read_spec isET results
  · simp [hnone c h.readBuff] at hread
  · obtain ⟨readBuff, hsome, hInv, -⟩ := hsome c h.readBuff
    rw [hsome] at hread
    obtain ⟨-, rfl⟩ := Prod.mk.inj (Option.some.inj hread)
    exact ⟨hInv, h.writeBuff, h.iov1⟩

theorem Reusable.process (h : c.Reusable) {verify : HttpRequest.Verify} {fs : FileSystem}
    (hfs : fs.Small) {srcDir : List Byte} {ok : Bool}
    (hprocess : c.process verify fs srcDir = some (ok, c')) :
  c'.Reusable
  := by
  simp only [HttpConn.process] at hprocess
  split at hprocess
  · obtain ⟨-, rfl⟩ := Prod.mk.inj (Option.some.inj hprocess)
    exact ⟨h.readBuff, h.writeBuff, h.iov1⟩
  · rename_i hreadable
    obtain ⟨⟨parsed, request, readBuff⟩, hparse, hprocess⟩ := Option.bind_eq_some_iff.mp hprocess
    obtain ⟨response, hstart, hprocess⟩ := Option.bind_eq_some_iff.mp hprocess
    obtain ⟨⟨response', writeBuff⟩, hmake, hprocess⟩ := Option.bind_eq_some_iff.mp hprocess
    obtain ⟨-, rfl⟩ := Prod.mk.inj (Option.some.inj hprocess)
    have hne : c.readBuff.contents ≠ [] := by
      rw [← List.length_pos_iff, h.readBuff.length_contents]
      omega
    have hInv : readBuff.Inv := (HttpRequest.parse_eq verify .init h.readBuff hne).2 _ hparse
    obtain ⟨r', strs, -, hsmall, -, -, happends⟩ :=
      HttpResponse.makeResponse_spec fs (startResponse_spec hstart).1
    rw [happends] at hmake
    obtain ⟨b, hb, hmake⟩ := Option.bind_eq_some_iff.mp hmake
    obtain ⟨rfl, rfl⟩ := Prod.mk.inj (Option.some.inj hmake)
    have hwrite : 0 < b.buffer.length := h.writeBuff.trans_le (Buffer.length_le_of_appendAll hb)
    have hlen : r'.fileLen < 2 ^ 30 := by
      apply hsmall hfs
      rw [(startResponse_spec hstart).2]
      norm_num
    unfold describe
    dsimp only
    split
    · split
      · exact ⟨hInv, hwrite, hlen⟩
      · exact ⟨hInv, hwrite, h.iov1⟩
    · exact ⟨hInv, hwrite, h.iov1⟩

/-! ### The lengths of the vectors -/

@[simp]
theorem iovCnt_advance (c : HttpConn) (len : ℕ) :
  (c.advance len).iovCnt = c.iovCnt
  := by
  obtain ⟨base₀, base₁, writeBuff, heq, -⟩ := c.advance_eq len
  rw [heq]

theorem len_iov0_advance (c : HttpConn) (len : ℕ) :
  (c.advance len).iov0.len = c.iov0.len - len
  := by
  obtain ⟨base₀, base₁, writeBuff, heq, -⟩ := c.advance_eq len
  rw [heq]

theorem len_iov1_advance (c : HttpConn) (len : ℕ) :
  (c.advance len).iov1.len = c.iov1.len - (len - c.iov0.len)
  := by
  obtain ⟨base₀, base₁, writeBuff, heq, -⟩ := c.advance_eq len
  rw [heq]

theorem length_writeBuff_advance (c : HttpConn) (len : ℕ) :
  (c.advance len).writeBuff.buffer.length = c.writeBuff.buffer.length
  := by
  obtain ⟨base₀, base₁, writeBuff, heq, hlen⟩ := c.advance_eq len
  rw [heq, hlen]

theorem readBuff_advance (c : HttpConn) (len : ℕ) :
  (c.advance len).readBuff = c.readBuff
  := by
  obtain ⟨base₀, base₁, writeBuff, heq, -⟩ := c.advance_eq len
  rw [heq]

theorem Reusable.advance (h : c.Reusable) (len : ℕ) :
  (c.advance len).Reusable
  := by
  refine ⟨?_, ?_, ?_⟩
  · rw [readBuff_advance]
    apply h.readBuff
  · rw [length_writeBuff_advance]
    apply h.writeBuff
  · rw [len_iov1_advance]
    have := h.iov1
    omega

theorem Reusable.writeTurn (h : c.Reusable) {res : Accepted} {ret : Option Accepted}
    {sent : List Byte} (hturn : c.writeTurn res = some (ret, c', sent)) :
  c'.Reusable
  := by
  obtain rfl | ⟨len, rfl⟩ := eq_or_advance_of_writeTurn hturn
  · apply h
  · apply h.advance

theorem Reusable.write (h : c.Reusable) {results : List Accepted} {ret : Accepted}
    {sent : List Byte} (hwrite : c.write results = some (ret, c', sent)) :
  c'.Reusable
  := by
  induction results generalizing c sent with
  | nil => simp [HttpConn.write] at hwrite
  | cons res results ih =>
      obtain ⟨ret₁, c₁, sent₁, hturn, ⟨-, -, rfl, -⟩ | ⟨-, sent₂, hrest, -⟩⟩ := write_cons hwrite
      · apply h.writeTurn hturn
      · apply ih (h.writeTurn hturn) hrest

/-- Every operation leaves a connection that can be used again. -/
theorem Reusable.step (h : c.Reusable) {op : Op} (hop : op.Small) (hstep : c.step op = some c') :
  c'.Reusable
  := by
  cases op with
  | init fd isKeepAlive =>
      obtain rfl := Option.some.inj hstep
      apply h.init
  | read isET results =>
      obtain ⟨⟨len, c'⟩, hread, rfl⟩ := Option.map_eq_some_iff.mp hstep
      apply h.read hread
  | process verify fs srcDir =>
      obtain ⟨⟨ok, c'⟩, hprocess, rfl⟩ := Option.map_eq_some_iff.mp hstep
      apply h.process hop hprocess
  | write results =>
      obtain ⟨⟨ret, c', sent⟩, hwrite, rfl⟩ := Option.map_eq_some_iff.mp hstep
      apply h.write hwrite
  | close =>
      obtain rfl := Option.some.inj hstep
      unfold HttpConn.close
      dsimp only
      split
      · exact ⟨h.readBuff, h.writeBuff, h.iov1⟩
      · exact ⟨h.readBuff, h.writeBuff, h.iov1⟩

/-! ### What a response depends on -/

/-- A connection that has read the given bytes and has nothing to send. -/
structure Ready (bytes : List Byte) (c : HttpConn) : Prop where
  readBuff : c.readBuff.Inv
  contents : c.readBuff.contents = bytes
  writeBuff : c.writeBuff.Inv
  empty : c.writeBuff.contents = []
  iov1 : c.iov1.len < 2 ^ 30

/-- A connection with a response, whose vectors are still to be set. -/
structure Answered (response : HttpResponse) (text : List Byte) (c : HttpConn) : Prop where
  response : c.response = response
  writeBuff : c.writeBuff.Inv
  contents : c.writeBuff.contents = text
  iov1 : c.iov1.len < 2 ^ 30

/-- What `process` does depends on the bytes that were read. -/
theorem process_spec (verify : HttpRequest.Verify) (fs : FileSystem) (srcDir bytes : List Byte) :
  (∀ c, Ready bytes c → c.process verify fs srcDir = none) ∨
    (∀ c, Ready bytes c → ∃ c', c.process verify fs srcDir = some (false, c')) ∨
    ∃ response text, response.Mapped ∧
      (response.mmFile = none ∨ response.fileLen = 0 → text.length < 2 ^ 30) ∧
      ∀ c, Ready bytes c →
        ∃ c', c.process verify fs srcDir = some (true, c'.describe) ∧ Answered response text c'
  := by
  have hreadable : ∀ {c}, Ready bytes c → c.readBuff.readableBytes = bytes.length := by
    intro c hc
    rw [← hc.readBuff.length_contents, hc.contents]
  by_cases hempty : bytes = []
  · refine Or.inr (Or.inl ?_)
    intro c hc
    refine ⟨{ c with request := .init }, ?_⟩
    simp [HttpConn.process, hreadable hc, hempty]
  have hpos : ∀ {c}, Ready bytes c → c.readBuff.readableBytes ≠ 0 := by
    intro c hc
    simpa [hreadable hc] using hempty
  have hne : ∀ {c}, Ready bytes c → c.readBuff.contents ≠ [] := by
    intro c hc
    simpa [hc.contents] using hempty
  cases hbytes : HttpRequest.parseBytes verify .init bytes with
  | none =>
      left
      intro c hc
      have hparse := (HttpRequest.parse_eq verify .init hc.readBuff (hne hc)).1
      rw [hc.contents, hbytes, Option.map_eq_none_iff] at hparse
      simp [HttpConn.process, hpos hc, hparse]
  | some parsed =>
      obtain ⟨ok, request, rest⟩ := parsed
      have hparse : ∀ {c}, Ready bytes c → ∃ readBuff,
          HttpRequest.parse verify .init c.readBuff = some (ok, request, readBuff) := by
        intro c hc
        obtain ⟨readBuff, hparse, -⟩ := HttpRequest.parse_of_parseBytes hc.readBuff
          (hne hc) (hc.contents ▸ hbytes)
        exact ⟨readBuff, hparse⟩
      cases hstart : startResponse srcDir ok request with
      | none =>
          left
          intro c hc
          obtain ⟨readBuff, hparse⟩ := hparse hc
          simp [HttpConn.process, hpos hc, hparse, hstart]
      | some response =>
          refine Or.inr (Or.inr ?_)
          obtain ⟨response', strs, hmapped, -, hshort, -, happends⟩ :=
            HttpResponse.makeResponse_spec fs (startResponse_spec hstart).1
          refine ⟨response', strs.flatten, hmapped, hshort, ?_⟩
          intro c hc
          obtain ⟨readBuff, hparse⟩ := hparse hc
          obtain ⟨writeBuff, hmake, hInv, hcontents⟩ := happends.of_inv hc.writeBuff
          refine ⟨{ c with
            request := request
            readBuff := readBuff
            response := response'
            writeBuff := writeBuff }, ?_, rfl, hInv, ?_, hc.iov1⟩
          · simp [HttpConn.process, hpos hc, hparse, hstart, hmake]
          · rw [hcontents, hc.empty, List.nil_append]

/-! ### Two connections with the same response -/

/-- Two connections send the same: their vectors describe the same bytes, and what is left in a second
vector that is not used does not make the rest too large for an `int`. -/
structure Alike (c d : HttpConn) : Prop where
  left : c.Sending
  right : d.Sending
  described : c.described = d.described
  iovCnt : c.iovCnt = d.iovCnt
  iov0 : c.iov0.len = d.iov0.len
  iov1 : c.iovCnt = 2 → c.iov1.len = d.iov1.len
  small : c.iovCnt = 1 → c.iov0.len + c.iov1.len < 2 ^ 31 ∧ d.iov0.len + d.iov1.len < 2 ^ 31

theorem total_of_one (h : c.iovCnt = 1) :
  c.total = c.iov0.len
  := by
  simp [total, vectors, h]

theorem total_of_two (h : c.iovCnt = 2) :
  c.total = c.iov0.len + c.iov1.len
  := by
  simp [total, vectors, h]

theorem Alike.total (h : Alike c d) :
  c.total = d.total
  := by
  rcases h.left.iovCnt with hcnt | ⟨hcnt, -⟩
  · rw [total_of_one hcnt, total_of_one (h.iovCnt ▸ hcnt), h.iov0]
  · rw [total_of_two hcnt, total_of_two (h.iovCnt ▸ hcnt), h.iov0, h.iov1 hcnt]

/-- With nothing left to send nothing is sent, however often `writev` is called. -/
theorem sentBy_of_total_eq_zero (h : c.total = 0) (results : List Accepted) :
  c.sentBy results = []
  := by
  cases results with
  | nil => rfl
  | cons res results =>
      cases res with
      | error e => rfl
      | ok len =>
          cases len with
          | zero => simp [sentBy, HttpConn.writeTurn]
          | succ len => simp [sentBy, HttpConn.writeTurn, h]

/-- The kernel accepts the same count from both. -/
theorem Alike.advance (h : Alike c d) {len : ℕ} (hlen : len ≤ c.total) :
  Alike (c.advance len) (d.advance len)
  := by
  obtain ⟨hleft, hdescribed⟩ := h.left.advance hlen
  obtain ⟨hright, hdescribed'⟩ := h.right.advance (h.total ▸ hlen)
  refine ⟨hleft, hright, ?_, ?_, ?_, ?_, ?_⟩
  · rw [hdescribed, hdescribed', h.described]
  · rw [iovCnt_advance, iovCnt_advance, h.iovCnt]
  · rw [len_iov0_advance, len_iov0_advance, h.iov0]
  · intro hcnt
    rw [iovCnt_advance] at hcnt
    rw [len_iov1_advance, len_iov1_advance, h.iov0, h.iov1 hcnt]
  · intro hcnt
    rw [iovCnt_advance] at hcnt
    have := h.small hcnt
    simp only [len_iov0_advance, len_iov1_advance]
    omega

/-- What is sent after the turn of the loop that has led to the connection. -/
def restSentBy (c : HttpConn) (results : List Accepted) : List Byte :=
  if 0 < toInt (c.iov0.len + c.iov1.len) then c.sentBy results else []

/-- The kernel accepts `len` bytes, and `write` goes on if it takes some for unsent. -/
theorem Sending.sentBy_ok (h : c.Sending) {len : ℕ} (hpos : len ≠ 0) (hlen : len ≤ c.total)
    (results : List Accepted) :
  c.sentBy (.ok len :: results) = c.described.take len ++ (c.advance len).restSentBy results
  := by
  have htotal := h.total_le
  have hrest : c.iov0.len + c.iov1.len ≠ 0 := by omega
  simp only [HttpConn.sentBy, HttpConn.writeTurn, if_neg (not_lt.mpr hlen), if_neg hpos,
    if_neg hrest, restSentBy]
  by_cases hmore : 0 < toInt ((c.advance len).iov0.len + (c.advance len).iov1.len)
  · simp only [if_pos hmore]
  · simp only [if_neg hmore, List.append_nil]

theorem toInt_pos_iff {n : ℕ} (h : n < 2 ^ 31) :
  0 < toInt n ↔ 0 < n
  := by
  have heq : toInt n = n := toInt_of_lt h
  rw [heq]
  omega

/-- A second vector that is not used makes no difference, as nothing is sent when it is all that is
left. -/
theorem Alike.restSentBy (h : Alike c d) {results : List Accepted}
    (hsent : c.sentBy results = d.sentBy results) :
  c.restSentBy results = d.restSentBy results
  := by
  unfold HttpConn.restSentBy
  rcases h.left.iovCnt with hcnt | ⟨hcnt, -⟩
  · obtain ⟨hc, hd⟩ := h.small hcnt
    by_cases hzero : c.iov0.len = 0
    · have hc' : c.total = 0 := (total_of_one hcnt).trans hzero
      rw [sentBy_of_total_eq_zero hc', sentBy_of_total_eq_zero (h.total ▸ hc'), ite_self, ite_self]
    · have hzero' : d.iov0.len ≠ 0 := h.iov0 ▸ hzero
      rw [if_pos ((toInt_pos_iff hc).mpr (by omega)), if_pos ((toInt_pos_iff hd).mpr (by omega)),
        hsent]
  · rw [h.iov0, h.iov1 hcnt, hsent]

/-- Connections that are alike send the same bytes for the same answers of the kernel. -/
theorem Alike.sentBy (h : Alike c d) (results : List Accepted) :
  c.sentBy results = d.sentBy results
  := by
  induction results generalizing c d with
  | nil => rfl
  | cons res results ih =>
      cases res with
      | error e => rfl
      | ok len =>
          by_cases hlen : len ≤ c.total
          · by_cases hpos : len = 0
            · simp [HttpConn.sentBy, HttpConn.writeTurn, hpos]
            · have hnext := h.advance hlen
              rw [h.left.sentBy_ok hpos hlen, h.right.sentBy_ok hpos (h.total ▸ hlen), h.described,
                hnext.restSentBy (ih hnext)]
          · have hlen' : ¬ len ≤ d.total := h.total ▸ hlen
            simp [HttpConn.sentBy, HttpConn.writeTurn, not_le.mp hlen, not_le.mp hlen']

/-- The vectors of a response with a file. -/
theorem describe_of_file {file : List Byte} (hfile : c.response.mmFile = some file)
    (hpos : 0 < c.response.fileLen) :
  c.describe = { c with
    iov0 := ⟨.storage c.writeBuff.readPos, c.writeBuff.readableBytes⟩
    iov1 := ⟨.mapped file 0, c.response.fileLen⟩
    iovCnt := 2 }
  := by
  simp [describe, HttpResponse.file, hfile, hpos]

/-- The vectors of a response without a file. -/
theorem describe_of_no_file (h : c.response.mmFile = none ∨ c.response.fileLen = 0) :
  c.describe = { c with
    iov0 := ⟨.storage c.writeBuff.readPos, c.writeBuff.readableBytes⟩
    iovCnt := 1 }
  := by
  unfold describe
  cases hfile : c.response.mmFile with
  | none => simp [HttpResponse.file, hfile]
  | some file =>
      have hzero : c.response.fileLen = 0 := h.resolve_left (by simp [hfile])
      simp [HttpResponse.file, hfile, hzero]

theorem Answered.readableBytes {response : HttpResponse} {text : List Byte}
    (h : Answered response text c) :
  c.writeBuff.readableBytes = text.length
  := by
  rw [← h.writeBuff.length_contents, h.contents]

theorem Answered.describe {response : HttpResponse} {text : List Byte} (hmapped : response.Mapped)
    (h : Answered response text c) :
  c.describe.Sending ∧ c.describe.described = c.describe.responseText
  := by
  have hmapped' : c.response.Mapped := h.response ▸ hmapped
  obtain ⟨hsend, htext⟩ := describe_sending h.writeBuff hmapped'
  exact ⟨hsend, htext⟩

/-- Two connections with the same response are alike when their vectors are set. -/
theorem alike_describe {response : HttpResponse} {text : List Byte} (hmapped : response.Mapped)
    (hshort : response.mmFile = none ∨ response.fileLen = 0 → text.length < 2 ^ 30)
    (hc : Answered response text c) (hd : Answered response text d) :
  Alike c.describe d.describe
  := by
  obtain ⟨hleft, hdescribed⟩ := hc.describe hmapped
  obtain ⟨hright, hdescribed'⟩ := hd.describe hmapped
  have hclen := hc.readableBytes
  have hdlen := hd.readableBytes
  have hiov := hc.iov1
  have hiov' := hd.iov1
  by_cases hfile : response.mmFile = none ∨ response.fileLen = 0
  · have htext := hshort hfile
    have hcone := describe_of_no_file (c := c) (hc.response ▸ hfile)
    have hdone := describe_of_no_file (c := d) (hd.response ▸ hfile)
    refine ⟨hleft, hright, ?_, ?_, ?_, ?_, ?_⟩
    · rw [hdescribed, hdescribed', hcone, hdone]
      simp only [responseText, hc.contents, hd.contents, hc.response, hd.response]
    · rw [hcone, hdone]
    · rw [hcone, hdone]
      apply hclen.trans hdlen.symm
    · simp [hcone]
    · intro _
      rw [hcone, hdone]
      dsimp only
      omega
  · obtain ⟨hsome, hpos⟩ := not_or.mp hfile
    obtain ⟨file, hfile⟩ := Option.ne_none_iff_exists'.mp hsome
    have hpos : 0 < response.fileLen := Nat.pos_of_ne_zero hpos
    have hctwo := describe_of_file (c := c) (hc.response ▸ hfile) (hc.response ▸ hpos)
    have hdtwo := describe_of_file (c := d) (hd.response ▸ hfile) (hd.response ▸ hpos)
    refine ⟨hleft, hright, ?_, ?_, ?_, ?_, ?_⟩
    · rw [hdescribed, hdescribed', hctwo, hdtwo]
      simp only [responseText, hc.contents, hd.contents, hc.response, hd.response]
    · rw [hctwo, hdtwo]
    · rw [hctwo, hdtwo]
      apply hclen.trans hdlen.symm
    · intro _
      rw [hctwo, hdtwo]
      simp only [hc.response, hd.response]
    · simp [hctwo]

/-! ### Two clients of one object -/

theorem Reusable.ready (h : c.Reusable) {fd : ℤ} (hfd : 0 < fd) (isKeepAlive : Bool) :
  Ready [] (c.init fd isKeepAlive)
  := by
  have hInv : c.writeBuff.retrieveAll.Inv := by
    constructor
    · simp [Buffer.retrieveAll]
    · simp [Buffer.retrieveAll]
    · simpa [Buffer.retrieveAll] using h.writeBuff
  rw [HttpConn.init, if_neg (not_le.mpr hfd)]
  exact ⟨h.readBuff.retrieveAll, Buffer.contents_retrieveAll _, hInv, Buffer.contents_retrieveAll _,
    h.iov1⟩

/-- What is sent to a client does not depend on the object. -/
theorem serve_eq (hc : c.Reusable) (hd : d.Reusable) {v : Visit} (hfd : 0 < v.fd) :
  c.serve v = d.serve v
  := by
  have hc₁ := hc.ready hfd v.isKeepAlive
  have hd₁ := hd.ready hfd v.isKeepAlive
  unfold serve
  obtain hnone | ⟨len, bytes, hread⟩ := read_spec v.isET v.delivered
  · rw [hnone _ hc₁.readBuff, hnone _ hd₁.readBuff]
  · obtain ⟨cBuff, hcread, hcInv, hccontents⟩ := hread _ hc₁.readBuff
    obtain ⟨dBuff, hdread, hdInv, hdcontents⟩ := hread _ hd₁.readBuff
    rw [hc₁.contents, List.nil_append] at hccontents
    rw [hd₁.contents, List.nil_append] at hdcontents
    have hc₂ : Ready bytes { c.init v.fd v.isKeepAlive with readBuff := cBuff } :=
      ⟨hcInv, hccontents, hc₁.writeBuff, hc₁.empty, hc₁.iov1⟩
    have hd₂ : Ready bytes { d.init v.fd v.isKeepAlive with readBuff := dBuff } :=
      ⟨hdInv, hdcontents, hd₁.writeBuff, hd₁.empty, hd₁.iov1⟩
    simp only [hcread, hdread, Option.bind_eq_bind, Option.bind_some]
    obtain hnone | hfalse | ⟨response, text, hmapped, hshort, htrue⟩ :=
      process_spec v.verify v.fs v.srcDir bytes
    · rw [hnone _ hc₂, hnone _ hd₂]
    · obtain ⟨c', hc'⟩ := hfalse _ hc₂
      obtain ⟨d', hd'⟩ := hfalse _ hd₂
      simp [hc', hd']
    · obtain ⟨c', hc', hcAnswered⟩ := htrue _ hc₂
      obtain ⟨d', hd', hdAnswered⟩ := htrue _ hd₂
      simp [hc', hd', (alike_describe hmapped hshort hcAnswered hdAnswered).sentBy]

/-- Whatever was done with a connection before, with small files, what is sent to the next client for
whom it is initialised is what a new object sends. -/
theorem serve_eq_new {ops : List Op} (hops : ∀ op ∈ ops, op.Small) (h : run step new ops = some c)
    {v : Visit} (hfd : 0 < v.fd) :
  c.serve v = new.serve v
  := by
  have hc : c.Reusable :=
    run_guarded_invariant (fun _ _ _ hs hop hstep => hs.step hop hstep) new_reusable
      (guarded_of_forall hops) h
  apply serve_eq hc new_reusable hfd

/-- A client asks for a file of three bytes and hangs up when the head and one byte are sent. -/
def hungUp : List Op :=
  [.init 5 false, .read false [.ok (ascii "GET / HTTP/1.1" ++ crlf ++ crlf)],
    .process (fun _ _ _ => true) threeBytes (ascii "/srv"), .write [.ok 83, .error 32], .close]

/-- The next client asks for a file that is not there. -/
def notThere : Visit where
  fd := 5
  isKeepAlive := false
  isET := false
  delivered := [.ok (ascii "GET /x HTTP/1.1" ++ crlf ++ crlf)]
  verify := fun _ _ _ => true
  fs := ⟨fun _ => none, fun _ => none, fun _ => false, fun _ _ => none⟩
  srcDir := ascii "/srv"
  accepted := [.ok 21, .ok 3, .error 11]

theorem threeBytes_small :
  threeBytes.Small
  := by
  constructor
  · rintro name s ⟨⟩
    norm_num
  · rintro name s ⟨⟩
    norm_num

theorem serve_eq_new_notThere :
  ∃ c, run step new hungUp = some c ∧ c.iov1.len = 2 ∧ c.serve notThere = new.serve notThere ∧
    c.serve notThere = some (ascii "HTTP/1.1 404 Not Found" ++ crlf)
  := by
  have hrun : ((run step new hungUp).map fun c => (c.iov1.len, c.serve notThere))
      = some (2, some (ascii "HTTP/1.1 404 Not Found" ++ crlf)) := by decide +kernel
  obtain ⟨c, hc, hfields⟩ := Option.map_eq_some_iff.mp hrun
  obtain ⟨hlen, hserve⟩ := Prod.mk.inj hfields
  have hops : ∀ op ∈ hungUp, op.Small := by
    simp [hungUp, Op.Small, threeBytes_small]
  exact ⟨c, hc, hlen, serve_eq_new hops hc (by decide), hserve⟩

end HttpConn

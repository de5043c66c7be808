import TinyWebserver.Http.Conn
import TinyWebserver.Lib.Transition

/-!
# Sending a response

A response is sent in parts, each as long as the kernel likes, and a part may end before, at or
after the boundary between the head in the write buffer and the mapped file. The bytes accepted by
the kernel, together with those the vectors still describe, are at all times the whole response,
`write_in_order`.
-/

open Memory Transition

namespace HttpConn

/-- A response is being sent: the first vector describes the contents of the write buffer, and the
second one, if it is used, a part of a mapped file. -/
structure Sending (c : HttpConn) : Prop where
  writeBuff : c.writeBuff.Inv
  len_iov0 : c.iov0.len = c.writeBuff.readableBytes
  base_iov0 : c.iov0.len = 0 ∨ c.iov0.base = .storage c.writeBuff.readPos
  iovCnt : c.iovCnt = 1 ∨ c.iovCnt = 2 ∧
    ∃ file offset, c.iov1.base = .mapped file offset ∧ offset + c.iov1.len ≤ file.length

/-! ### What the vectors describe -/

theorem bytesOf_of_len_eq_zero (c : HttpConn) {v : IoVec} (h : v.len = 0) :
  c.bytesOf v = []
  := by
  unfold bytesOf
  split
  · rfl
  · simp [h]
  · simp [h]

theorem bytesOf_of_mapped (c : HttpConn) {v : IoVec} {file : List Byte} {offset : ℕ}
    (h : v.base = .mapped file offset) :
  c.bytesOf v = slice file offset (offset + v.len)
  := by
  simp [bytesOf, h]

namespace Sending

variable {c : HttpConn}

theorem bytesOf_iov0 (h : c.Sending) :
  c.bytesOf c.iov0 = c.writeBuff.contents
  := by
  have hread := h.writeBuff.readPos_le
  cases h.base_iov0 with
  | inl hlen =>
      have hempty : c.writeBuff.contents.length = 0 := by
        rw [h.writeBuff.length_contents, ← h.len_iov0, hlen]
      rw [c.bytesOf_of_len_eq_zero hlen, List.length_eq_zero_iff.mp hempty]
  | inr hbase =>
      have hend : c.writeBuff.readPos + c.writeBuff.readableBytes = c.writeBuff.writePos := by
        rw [Buffer.readableBytes]
        omega
      rw [bytesOf, hbase, h.len_iov0]
      dsimp only
      rw [hend, Buffer.contents]

/-- With one vector the rest of the response is in the write buffer. -/
theorem described_of_one (h : c.Sending) (hcnt : c.iovCnt = 1) :
  c.described = c.writeBuff.contents
  := by
  simp [described, vectors, hcnt, h.bytesOf_iov0]

/-- With two vectors the rest of the response is in the write buffer and in the mapped file. -/
theorem described_of_two (h : c.Sending) (hcnt : c.iovCnt = 2) :
  c.described = c.writeBuff.contents ++ c.bytesOf c.iov1
  := by
  simp [described, vectors, hcnt, h.bytesOf_iov0]

theorem total_le (h : c.Sending) :
  c.total ≤ c.iov0.len + c.iov1.len
  := by
  rcases h.iovCnt with hcnt | ⟨hcnt, -⟩
  · simp [total, vectors, hcnt]
  · simp [total, vectors, hcnt]

/-! ### One turn of the loop -/

/-- The kernel has accepted no more than the first vector. -/
theorem advance_of_le (h : c.Sending) {len : ℕ} (hlen : len ≤ c.iov0.len) :
  (c.advance len).Sending ∧ (c.advance len).described = c.described.drop len
  := by
  have hread : len ≤ c.writeBuff.readableBytes := h.len_iov0 ▸ hlen
  have hfit : len ≤ c.writeBuff.contents.length := h.writeBuff.length_contents ▸ hread
  rw [advance, if_neg (by omega)]
  generalize hc' : ({ c with
    iov0 := ⟨c.iov0.base.add len, c.iov0.len - len⟩
    writeBuff := c.writeBuff.retrieve len } : HttpConn) = c'
  have hsend : c'.Sending := by
    subst hc'
    refine ⟨h.writeBuff.retrieve hread, ?_, ?_, h.iovCnt⟩
    · simp only [h.len_iov0, Buffer.readableBytes, Buffer.retrieve]
      omega
    · cases h.base_iov0 with
      | inl hzero =>
          left
          simp only
          omega
      | inr hbase =>
          right
          simp only [hbase, Pointer.add, Buffer.retrieve]
  have hcontents : c'.writeBuff.contents = c.writeBuff.contents.drop len := by
    subst hc'
    apply Buffer.contents_retrieve
  refine ⟨hsend, ?_⟩
  rcases h.iovCnt with hcnt | ⟨hcnt, file, offset, hbase, -⟩
  · rw [h.described_of_one hcnt, hsend.described_of_one (by subst hc'; exact hcnt), hcontents]
  · have hsame : c'.bytesOf c'.iov1 = c.bytesOf c.iov1 := by
      subst hc'
      rw [bytesOf_of_mapped _ hbase, bytesOf_of_mapped _ hbase]
    rw [h.described_of_two hcnt, hsend.described_of_two (by subst hc'; exact hcnt), hcontents,
      hsame, List.drop_append_of_le_length hfit]

/-- The kernel has accepted more than the first vector, and so all of it. -/
theorem advance_of_lt (h : c.Sending) {len : ℕ} (hlen : c.iov0.len < len)
    (htotal : len ≤ c.total) :
  (c.advance len).Sending ∧ (c.advance len).described = c.described.drop len
  := by
  rcases h.iovCnt with hcnt | ⟨hcnt, file, offset, hbase, hfile⟩
  · simp [total, vectors, hcnt] at htotal
    omega
  · have hmore : len - c.iov0.len ≤ c.iov1.len := by
      simp [total, vectors, hcnt] at htotal
      omega
    generalize hc' : c.advance len = c'
    have hiov0 : c'.iov0.len = 0 ∧ c'.writeBuff.Inv ∧ c'.writeBuff.readableBytes = 0 := by
      rw [← hc', advance, if_pos hlen]
      dsimp only
      split
      · exact ⟨rfl, h.writeBuff.retrieveAll, rfl⟩
      · rename_i hzero
        have hzero : c.iov0.len = 0 := by simpa using hzero
        exact ⟨hzero, h.writeBuff, h.len_iov0.symm.trans hzero⟩
    obtain ⟨hlen0, hInv, hreadable⟩ := hiov0
    have hiov1 : c'.iovCnt = 2 ∧ c'.iov1.base = .mapped file (offset + (len - c.iov0.len)) ∧
        c'.iov1.len = c.iov1.len - (len - c.iov0.len) := by
      rw [← hc', advance, if_pos hlen]
      dsimp only
      split <;> simp [hcnt, hbase, Pointer.add]
    obtain ⟨hcnt', hbase', hlen'⟩ := hiov1
    have hsend : c'.Sending :=
      ⟨hInv, hlen0.trans hreadable.symm, Or.inl hlen0,
        Or.inr ⟨hcnt', file, _, hbase', by omega⟩⟩
    refine ⟨hsend, ?_⟩
    have hempty : c'.writeBuff.contents = [] := by
      apply List.length_eq_zero_iff.mp
      rw [hInv.length_contents, hreadable]
    have hcontents : c.writeBuff.contents.length = c.iov0.len := by
      rw [h.writeBuff.length_contents, h.len_iov0]
    have hend : offset + (len - c.iov0.len) + (c.iov1.len - (len - c.iov0.len))
        = offset + c.iov1.len := by omega
    rw [h.described_of_two hcnt, hsend.described_of_two hcnt', hempty, List.nil_append,
      bytesOf_of_mapped _ hbase', bytesOf_of_mapped _ hbase, hlen', hend, List.drop_append,
      List.drop_eq_nil_of_le (by omega), List.nil_append, hcontents, drop_slice]

/-- After the kernel has accepted a part, the vectors describe the rest. -/
theorem advance (h : c.Sending) {len : ℕ} (htotal : len ≤ c.total) :
  (c.advance len).Sending ∧ (c.advance len).described = c.described.drop len
  := by
  by_cases hlen : len ≤ c.iov0.len
  · apply h.advance_of_le hlen
  · apply h.advance_of_lt (by omega) htotal

/-- After one turn of the loop the bytes accepted by the kernel and those still described are the
ones that were described before. -/
theorem writeTurn (h : c.Sending) {res : Accepted} {ret : Option Accepted} {c' : HttpConn}
    {sent : List Byte} (hturn : c.writeTurn res = some (ret, c', sent)) :
  c'.Sending ∧ sent ++ c'.described = c.described
  := by
  cases res with
  | error e =>
      obtain ⟨-, rfl, rfl⟩ : _ ∧ c = c' ∧ [] = sent := by simpa [HttpConn.writeTurn] using hturn
      exact ⟨h, rfl⟩
  | ok len =>
      simp only [HttpConn.writeTurn] at hturn
      split at hturn
      · simp at hturn
      · rename_i htotal
        have hadvance := h.advance (not_lt.mp htotal)
        split at hturn
        · obtain ⟨-, rfl, rfl⟩ : _ ∧ c = c' ∧ [] = sent := by simpa using hturn
          exact ⟨h, rfl⟩
        · split at hturn
          · have := h.total_le
            omega
          · obtain ⟨-, rfl, rfl⟩ : _ ∧ c.advance len = c' ∧ c.described.take len = sent := by
              simpa using hturn
            rw [hadvance.2]
            exact ⟨hadvance.1, List.take_append_drop len c.described⟩

end Sending

/-! ### Sequences of calls -/

/-- A connection together with the bytes accepted by the kernel so far. -/
abbrev Progress := HttpConn × List Byte

/-- One turn of the loop of `write`. -/
def turn (s : Progress) (res : Accepted) : Option Progress :=
  (s.1.writeTurn res).map fun (_, c, sent) => (c, s.2 ++ sent)

/-- One call of `write`, with the results of its calls of `writev`. -/
def call (s : Progress) (results : List Accepted) : Option Progress :=
  (s.1.write results).map fun (_, c, sent) => (c, s.2 ++ sent)

/-- A response `text` is being sent: what was accepted and what is described make it up. -/
def SendingText (text : List Byte) (s : Progress) : Prop :=
  s.1.Sending ∧ s.2 ++ s.1.described = text

theorem turn_sending {text : List Byte} (s : Progress) (res : Accepted) (s' : Progress)
    (h : SendingText text s) (hstep : turn s res = some s') :
  SendingText text s'
  := by
  obtain ⟨⟨ret, c, sent⟩, hturn, rfl⟩ := Option.map_eq_some_iff.mp hstep
  obtain ⟨hsend, hdescribed⟩ := h.1.writeTurn hturn
  refine ⟨hsend, ?_⟩
  rw [List.append_assoc, hdescribed, h.2]

/-- A call of `write` is a run of turns. -/
theorem run_turn_of_write {c c' : HttpConn} {results : List Accepted} {ret : Accepted}
    {sent : List Byte} (h : c.write results = some (ret, c', sent)) (before : List Byte) :
  run turn (c, before) results = some (c', before ++ sent)
  := by
  induction results generalizing c sent before with
  | nil => simp [write] at h
  | cons res results ih =>
      obtain ⟨ret₁, c₁, sent₁, hturn, hrest⟩ := write_cons h
      rw [run_cons]
      have hstep : turn (c, before) res = some (c₁, before ++ sent₁) := by simp [turn, hturn]
      rw [hstep, Option.bind_some]
      rcases hrest with ⟨rfl, -, rfl, rfl⟩ | ⟨-, sent₂, hwrite, rfl⟩
      · rfl
      · rw [ih hwrite, List.append_assoc]

theorem call_sending {text : List Byte} (s : Progress) (results : List Accepted) (s' : Progress)
    (h : SendingText text s) (hcall : call s results = some s') :
  SendingText text s'
  := by
  obtain ⟨⟨ret, c, sent⟩, hwrite, rfl⟩ := Option.map_eq_some_iff.mp hcall
  apply run_invariant turn_sending h (run_turn_of_write hwrite s.2)

/-! ### Whole responses -/

/-- The response of a connection: the contents of the write buffer and the mapped file. -/
def responseText (c : HttpConn) : List Byte := c.writeBuff.contents ++ c.response.file.getD []

/-- The vectors of a response that was just made describe it. -/
theorem describe_sending {c : HttpConn} (h : c.writeBuff.Inv) (hmapped : c.response.Mapped) :
  SendingText c.describe.responseText (c.describe, [])
  := by
  have hone : ({ c with
      iov0 := ⟨.storage c.writeBuff.readPos, c.writeBuff.readableBytes⟩
      iovCnt := 1 } : HttpConn).Sending :=
    ⟨h, rfl, Or.inr rfl, Or.inl rfl⟩
  unfold describe
  dsimp only
  split
  · rename_i file hfile
    have hlen : file.length = c.response.fileLen := hmapped file hfile
    split
    · have htwo : ({ c with
          iov0 := ⟨.storage c.writeBuff.readPos, c.writeBuff.readableBytes⟩
          iov1 := ⟨.mapped file 0, c.response.fileLen⟩
          iovCnt := 2 } : HttpConn).Sending :=
        ⟨h, rfl, Or.inr rfl, Or.inr ⟨rfl, file, 0, rfl, by simp [hlen]⟩⟩
      refine ⟨htwo, ?_⟩
      rw [List.nil_append, htwo.described_of_two rfl, bytesOf_of_mapped _ rfl, responseText,
        hfile, ← hlen]
      simp [slice]
    · rename_i hzero
      refine ⟨hone, ?_⟩
      have hempty : file = [] := List.length_eq_zero_iff.mp (by omega)
      rw [List.nil_append, hone.described_of_one rfl, responseText, hfile, hempty,
        Option.getD_some, List.append_nil]
  · rename_i hfile
    refine ⟨hone, ?_⟩
    rw [List.nil_append, hone.described_of_one rfl, responseText, hfile, Option.getD_none,
      List.append_nil]

/-- A response starts without a mapping, and without a length. -/
theorem startResponse_spec {srcDir : List Byte} {ok : Bool} {request : HttpRequest}
    {response : HttpResponse} (h : startResponse srcDir ok request = some response) :
  response.mmFile = none ∧ response.fileLen = 0
  := by
  unfold startResponse HttpResponse.init at h
  split at h
  · split at h
    · simp at h
    · obtain rfl := Option.some.inj h
      exact ⟨rfl, rfl⟩
  · split at h
    · simp at h
    · obtain rfl := Option.some.inj h
      exact ⟨rfl, rfl⟩

/-- After `process` the vectors describe the response. -/
theorem process_sending {verify : HttpRequest.Verify} {fs : FileSystem} {srcDir : List Byte}
    {c c' : HttpConn} (h : c.writeBuff.Inv)
    (hprocess : process verify fs srcDir c = some (true, c')) :
  SendingText c'.responseText (c', [])
  := by
  simp only [process] at hprocess
  split at hprocess
  · simp at hprocess
  · obtain ⟨⟨ok, request, readBuff⟩, -, hresponse⟩ := Option.bind_eq_some_iff.mp hprocess
    obtain ⟨response, hstart, hmake⟩ := Option.bind_eq_some_iff.mp hresponse
    obtain ⟨response', strs, hmapped, -, -, -, happends⟩ :=
      HttpResponse.makeResponse_spec fs (startResponse_spec hstart).1
    obtain ⟨writeBuff, hmade, hInv, -⟩ := happends.of_inv h
    rw [hmade] at hmake
    obtain rfl : describe _ = c' := by simpa using hmake
    apply describe_sending hInv hmapped

/-- After any calls of `write`, and any turns of a further one, the bytes accepted by the kernel
and those the vectors describe are the whole response, and the write buffer has as many readable
bytes as the first vector. -/
theorem write_in_order {verify : HttpRequest.Verify} {fs : FileSystem} {srcDir : List Byte}
    {c c₀ : HttpConn} (h : c.writeBuff.Inv)
    (hprocess : process verify fs srcDir c = some (true, c₀))
    {calls : List (List Accepted)} {s₁ : Progress} (hcalls : run call (c₀, []) calls = some s₁)
    {turns : List Accepted} {s₂ : Progress} (hturns : run turn s₁ turns = some s₂) :
  s₂.2 ++ s₂.1.described = c₀.writeBuff.contents ++ c₀.response.file.getD [] ∧
    s₂.1.writeBuff.readableBytes = s₂.1.iov0.len
  := by
  have hstart := process_sending h hprocess
  have hbetween : SendingText c₀.responseText s₁ := run_invariant call_sending hstart hcalls
  obtain ⟨hsend, htext⟩ : SendingText c₀.responseText s₂ :=
    run_invariant turn_sending hbetween hturns
  exact ⟨htext, hsend.len_iov0.symm⟩

/-- A file system where every file is readable and has three bytes. -/
def threeBytes : FileSystem where
  stat := fun _ => some ⟨0o100644, 3⟩
  restat := fun _ => some ⟨0o100644, 3⟩
  opens := fun _ => true
  mmap := fun _ size => if h : size = 3 then some ⟨[97, 98, 99], h.symm⟩ else none

/-- A connection that has read a request. -/
def hasRead : HttpConn :=
  { new with
    readBuff := ⟨ascii "GET / HTTP/1.1" ++ crlf ++ crlf, 0, 18⟩
    writeBuff := .new 1 }

theorem write_in_order_threeBytes :
  ∃ c₀ s₁ s₂,
    process (fun _ _ _ => true) threeBytes (ascii "/srv") hasRead = some (true, c₀) ∧
    run call (c₀, []) [[.ok 7, .error 11], [.ok 74, .ok 1, .error 11]] = some s₁ ∧
    run turn s₁ [.ok 1] = some s₂ ∧
    s₂.2 ++ s₂.1.described = c₀.writeBuff.contents ++ c₀.response.file.getD [] ∧
    s₂.1.writeBuff.readableBytes = s₂.1.iov0.len
  := by
  have hok : (process (fun _ _ _ => true) threeBytes (ascii "/srv") hasRead).map Prod.fst
      = some true := by decide
  obtain ⟨⟨_, c₀⟩, hprocess, rfl⟩ := Option.map_eq_some_iff.mp hok
  have hcalls : ((process (fun _ _ _ => true) threeBytes (ascii "/srv") hasRead).bind fun p =>
      (run call (p.2, []) [[.ok 7, .error 11], [.ok 74, .ok 1, .error 11]]).bind fun s =>
        run turn s [.ok 1]).isSome = true := by decide
  rw [hprocess, Option.bind_some] at hcalls
  obtain ⟨s₂, hs₂⟩ := Option.isSome_iff_exists.mp hcalls
  obtain ⟨s₁, hs₁, hturn⟩ := Option.bind_eq_some_iff.mp hs₂
  have hInv : hasRead.writeBuff.Inv := by decide
  exact ⟨c₀, s₁, s₂, hprocess, hs₁, hturn, write_in_order hInv hprocess hs₁ hturn⟩

end HttpConn

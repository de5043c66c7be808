import TinyWebserver.Http.Isolation

/-!
# What is left to send, as an `int`

`write` keeps the sum of the lengths of both vectors in an `int` and ends when it is not positive, and
`ToWriteBytes` returns the same sum. `write_finishes_iff` says when `write` sends everything, and
`toWriteBytes_guarded_iff` in which histories `ToWriteBytes` tells the length of the response: the second
vector keeps the length an earlier response has left there if there is no file.
-/

open Transition

namespace HttpConn

variable {c c' : HttpConn}

/-- The sum of the lengths of both vectors. -/
def lens (c : HttpConn) : ℕ := c.iov0.len + c.iov1.len

theorem total_cases (c : HttpConn) :
  c.total = 0 ∨ c.total = c.iov0.len ∨ c.total = c.lens
  := by
  cases h : c.iovCnt with
  | zero => simp [total, vectors, h]
  | succ n =>
      cases n with
      | zero => simp [total, vectors, h]
      | succ n => simp [total, vectors, h, lens]

theorem total_le_lens (c : HttpConn) :
  c.total ≤ c.lens
  := by
  rcases c.total_cases with h | h | h <;> rw [h] <;> simp [lens]

/-- What the kernel has accepted is taken off the sum of the lengths. -/
theorem lens_advance {len : ℕ} (h : len ≤ c.total) :
  (c.advance len).lens = c.lens - len
  := by
  have hle := c.total_le_lens
  simp only [lens, len_iov0_advance, len_iov1_advance] at hle ⊢
  omega

/-- What the kernel has accepted is taken off the bytes to send. -/
theorem total_advance {len : ℕ} (h : len ≤ c.total) :
  (c.advance len).total = c.total - len
  := by
  simp only [total, vectors, iovCnt_advance] at h ⊢
  cases hcnt : c.iovCnt with
  | zero => simp
  | succ n =>
      cases n with
      | zero => simp [len_iov0_advance]
      | succ n =>
          simp [hcnt] at h
          simp only [List.take_succ_cons, List.map_cons, List.map_nil, List.sum_cons,
            List.sum_nil, len_iov0_advance, len_iov1_advance, List.take_nil]
          omega

/-! ### Sending everything -/

/-- Every call of `writev` accepts bytes as long as there are some of the `total`. -/
def Progressing : ℕ → List Accepted → Prop
  | _, [] => True
  | total, .ok len :: results => (total ≠ 0 → len ≠ 0) ∧ Progressing (total - len) results
  | total, .error _ :: _ => total = 0

/-- Each time that only a part of the `total` bytes has been accepted, what is then left of `lens` is
positive as an `int`. -/
def PositiveRests : ℕ → ℕ → List Accepted → Prop
  | _, _, [] => True
  | lens, total, .ok len :: results =>
      (len < total → 0 < toInt (lens - len)) ∧ PositiveRests (lens - len) (total - len) results
  | _, _, .error _ :: _ => True

/-- The turns of the loop of `write`, for a result that is a count. -/
theorem writeTurn_ok {len : ℕ} {ret : Option Accepted} {sent : List Byte}
    (h : c.writeTurn (.ok len) = some (ret, c', sent)) :
  len ≤ c.total ∧
    (len = 0 ∧ ret = some (.ok 0) ∧ c' = c ∨
      len ≠ 0 ∧ c' = c.advance len ∧
        ret = if 0 < toInt (c.lens - len) then none else some (.ok len))
  := by
  simp only [writeTurn] at h
  split at h
  · cases h
  · rename_i hle
    rw [not_lt] at hle
    refine ⟨hle, ?_⟩
    split at h
    · rename_i hzero
      cases h
      exact Or.inl ⟨hzero, rfl, rfl⟩
    · rename_i hpos
      have hlens := c.total_le_lens
      rw [lens] at hlens
      rw [if_neg (by omega)] at h
      obtain ⟨hret, hconn⟩ := Prod.mk.inj (Option.some.inj h)
      obtain ⟨hc', -⟩ := Prod.mk.inj hconn
      refine Or.inr ⟨hpos, hc'.symm, ?_⟩
      rw [← lens_advance hle, lens, ← hret]

/-- If every `writev` accepts bytes as long as there are some, then `write` returns with everything sent
exactly if what is left is a positive `int` each time that a part has been sent. -/
theorem write_finishes_iff {results : List Accepted} {ret : Accepted} {sent : List Byte}
    (h : c.write results = some (ret, c', sent)) (hprogress : Progressing c.total results) :
  c'.total = 0 ↔ PositiveRests c.lens c.total results
  := by
  induction results generalizing c sent with
  | nil => cases h
  | cons res results ih =>
      obtain ⟨ret₁, c₁, sent₁, hturn, hrest⟩ := write_cons h
      cases res with
      | error e =>
          obtain ⟨rfl, rfl, -⟩ : some (.error e) = ret₁ ∧ c = c₁ ∧ _ := by
            simpa [writeTurn] using hturn
          rcases hrest with ⟨-, -, rfl, -⟩ | ⟨hnone, -⟩
          · exact ⟨fun _ => trivial, fun _ => hprogress⟩
          · cases hnone
      | ok len =>
          obtain ⟨hle, ⟨rfl, rfl, rfl⟩ | ⟨hpos, rfl, hret₁⟩⟩ := writeTurn_ok hturn
          · rcases hrest with ⟨rfl, -, rfl, -⟩ | ⟨hnone, -⟩
            · have hzero : c₁.total = 0 := by
                by_contra hne
                apply hprogress.1 hne rfl
              simp [PositiveRests, hzero]
            · cases hnone
          · rw [PositiveRests, ← lens_advance hle, ← total_advance hle]
            rcases hrest with ⟨rfl, hret, rfl, -⟩ | ⟨hret, sent₂, hwrite, -⟩
            · rw [hret] at hret₁
              split at hret₁
              · cases hret₁
              · rename_i hstop
                rw [lens_advance hle, total_advance hle]
                simp only [PositiveRests, and_true, hstop, imp_false, not_lt]
                omega
            · rw [hret] at hret₁
              split at hret₁
              · rename_i hgo
                rw [ih hwrite (total_advance hle ▸ hprogress.2), lens_advance hle]
                simp [hgo]
              · cases hret₁

/-- A response of at most 2 GiB is always sent. -/
theorem positiveRests_of_le {lens total : ℕ} {results : List Accepted} (htotal : total ≤ lens)
    (hlens : lens ≤ 2 ^ 31) (hprogress : Progressing total results) :
  PositiveRests lens total results
  := by
  induction results generalizing lens total with
  | nil => trivial
  | cons res results ih =>
      cases res with
      | error e => trivial
      | ok len =>
          refine ⟨?_, ih (by omega) (by omega) hprogress.2⟩
          intro hlt
          have hpos : len ≠ 0 := hprogress.1 (by omega)
          rw [toInt_of_lt (by omega)]
          omega

/-- `write` ends after a part if what is left is not positive as an `int`. -/
theorem write_stop {len : ℕ} (hpos : len ≠ 0) (hle : len ≤ c.total)
    (hstop : ¬ 0 < toInt (c.lens - len)) :
  c.write [.ok len] = some (.ok len, c.advance len, c.described.take len)
  := by
  have hlens := c.total_le_lens
  rw [← lens_advance hle, lens] at hstop
  rw [lens] at hlens
  have hturn : c.writeTurn (.ok len)
      = some (some (.ok len), c.advance len, c.described.take len) := by
    rw [writeTurn, if_neg (by omega), if_neg hpos, if_neg (by omega)]
    simp only [if_neg hstop]
  rw [write, hturn]
  rfl

/-- A file of 2 GiB. -/
@[irreducible]
def largeFile : List Byte := List.replicate (2 ^ 31) 0

/-- A response with a head of three bytes and a mapped file of 2 GiB. -/
def largeResponse : HttpConn :=
  { new with
    iovCnt := 2
    iov0 := ⟨.storage 0, 3⟩
    iov1 := ⟨.mapped largeFile 0, 2 ^ 31⟩
    writeBuff := ⟨[1, 2, 3], 0, 3⟩ }

/-- A large response is given up after its first part. -/
theorem largeResponse_unfinished :
  Progressing largeResponse.total [.ok 2] ∧
    ∃ ret c' sent, largeResponse.write [.ok 2] = some (ret, c', sent) ∧ c'.total ≠ 0
  := by
  have htotal : largeResponse.total = 2 ^ 31 + 3 := rfl
  have hlens : largeResponse.lens = 2 ^ 31 + 3 := rfl
  have hle : 2 ≤ largeResponse.total := by omega
  have hstop : ¬ 0 < toInt (largeResponse.lens - 2) := by
    rw [hlens, toInt_eq]
    norm_num
  refine ⟨⟨fun _ => by decide, trivial⟩, _, _, _, write_stop (by decide) hle hstop, ?_⟩
  rw [total_advance hle]
  omega

/-- A response of three bytes. -/
def smallResponse : HttpConn :=
  { new with iovCnt := 1, iov0 := ⟨.storage 0, 3⟩, writeBuff := ⟨[1, 2, 3], 0, 3⟩ }

/-- A small response is sent in two parts. -/
theorem smallResponse_finished :
  ∃ ret c' sent, smallResponse.write [.ok 1, .ok 2] = some (ret, c', sent) ∧ c'.total = 0
  := by
  have hsome : (smallResponse.write [.ok 1, .ok 2]).isSome = true := by decide
  obtain ⟨⟨ret, c', sent⟩, hwrite⟩ := Option.isSome_iff_exists.mp hsome
  have hprogress : Progressing smallResponse.total [.ok 1, .ok 2] :=
    ⟨by decide, by decide, trivial⟩
  refine ⟨ret, c', sent, hwrite, ?_⟩
  apply (write_finishes_iff hwrite hprogress).mpr
  apply positiveRests_of_le smallResponse.total_le_lens (by decide) hprogress

/-! ### The value of `ToWriteBytes` -/

/-- `ToWriteBytes`. -/
def toWriteBytes (c : HttpConn) : ℤ := toInt (c.iov0.len + c.iov1.len)

/-- The connection in `process` before the vectors are set, if there is something to process. -/
def prepare (verify : HttpRequest.Verify) (fs : FileSystem) (srcDir : List Byte) (c : HttpConn) :
    Option HttpConn := do
  let (ok, request, readBuff) ← HttpRequest.init.parse verify c.readBuff
  let response ← startResponse srcDir ok request
  let (response, writeBuff) ← response.makeResponse fs c.writeBuff
  some { c with
    request := request, readBuff := readBuff, response := response, writeBuff := writeBuff }

variable {verify : HttpRequest.Verify} {fs : FileSystem} {srcDir : List Byte}

/-- `process` sets the vectors of the connection it has prepared. -/
theorem process_eq (verify : HttpRequest.Verify) (fs : FileSystem) (srcDir : List Byte)
    (c : HttpConn) :
  c.process verify fs srcDir =
    if c.readBuff.readableBytes = 0 then some (false, { c with request := .init })
    else (c.prepare verify fs srcDir).map fun d => (true, describe d)
  := by
  simp only [process, prepare, Option.bind_eq_bind, Option.map_bind, Function.comp_def,
    Option.map_some]

theorem process_eq_true_iff :
  c.process verify fs srcDir = some (true, c') ↔
    c.readBuff.readableBytes ≠ 0 ∧ ∃ d, c.prepare verify fs srcDir = some d ∧ describe d = c'
  := by
  rw [process_eq]
  split
  · rename_i hempty
    simp [hempty]
  · rename_i hsome
    simp [hsome]

/-- What `process` prepares: the write buffer has something to send, a mapping is as long as the file,
and the second vector is the one there was. -/
theorem prepare_spec {d : HttpConn} (h : c.writeBuff.Inv)
    (hprepare : c.prepare verify fs srcDir = some d) :
  d.writeBuff.Inv ∧ 0 < d.writeBuff.readableBytes ∧ d.response.Mapped ∧ d.iov1 = c.iov1
  := by
  rw [prepare] at hprepare
  obtain ⟨⟨ok, request, readBuff⟩, -, hprepare⟩ := Option.bind_eq_some_iff.mp hprepare
  obtain ⟨response, hstart, hprepare⟩ := Option.bind_eq_some_iff.mp hprepare
  obtain ⟨r', strs, hmapped, -, -, hne, happends⟩ :=
    HttpResponse.makeResponse_spec fs (startResponse_spec hstart).1
  obtain ⟨writeBuff, hmake, hInv, hcontents⟩ := happends.of_inv h
  dsimp only at hprepare
  rw [hmake] at hprepare
  obtain rfl := Option.some.inj hprepare
  refine ⟨hInv, ?_, hmapped, rfl⟩
  rw [← hInv.length_contents, hcontents, List.length_append]
  have hpos := List.length_pos_iff.mpr hne
  omega

/-- A file is mapped, and it is not empty. -/
def HasFile (r : HttpResponse) : Prop := r.file.isSome = true ∧ 0 < r.fileLen

instance (r : HttpResponse) : Decidable (HasFile r) := inferInstanceAs (Decidable (_ ∧ _))

/-- The lengths of the vectors that `process` sets. -/
theorem describe_lens (d : HttpConn) :
  (describe d).iov0.len = d.writeBuff.readableBytes ∧
    (describe d).iov1.len = (if HasFile d.response then d.response.fileLen else d.iov1.len) ∧
    (describe d).iovCnt = (if HasFile d.response then 2 else 1)
  := by
  unfold describe
  dsimp only
  cases hfile : d.response.file with
  | none => simp [HasFile, hfile]
  | some file =>
      dsimp only
      split
      · rename_i hpos
        simp [HasFile, hfile, hpos]
      · rename_i hzero
        simp [HasFile, hfile, hzero]

theorem describe_keeps (d : HttpConn) :
  (describe d).writeBuff = d.writeBuff ∧ (describe d).response = d.response
  := by
  unfold describe
  dsimp only
  cases d.response.file with
  | none => exact ⟨rfl, rfl⟩
  | some file =>
      dsimp only
      split
      · exact ⟨rfl, rfl⟩
      · exact ⟨rfl, rfl⟩

/-! ### Responses whose length is told -/

/-- `ToWriteBytes` is the length of the response, and a `write` that sends all of it returns a positive
count. -/
structure TellsLength (c : HttpConn) : Prop where
  toWriteBytes_eq :
    c.toWriteBytes = (c.writeBuff.readableBytes : ℤ) + ((c.response.file.getD []).length : ℤ)
  positive : ∀ results ret c' sent, c.write results = some (ret, c', sent) →
    sent = c.responseText → ∃ n, ret = .ok (n + 1)

/-- The lengths of a connection that `process` has prepared: the response with its file is less than
2 GiB long, and without a file the second vector is empty as an `int`. -/
def LensFit (d : HttpConn) : Prop :=
  if HasFile d.response then d.writeBuff.readableBytes + d.response.fileLen < 2 ^ 31
  else d.writeBuff.readableBytes < 2 ^ 31 ∧ d.iov1.len % 2 ^ 32 = 0

/-- When an `int` tells a sum of lengths. -/
theorem toInt_add_eq_iff (m n : ℕ) :
  toInt (m + n) = m ↔ m < 2 ^ 31 ∧ n % 2 ^ 32 = 0
  := by
  rw [toInt_eq]
  split
  · omega
  · omega

theorem toInt_eq_self_iff (n : ℕ) :
  toInt n = n ↔ n < 2 ^ 31
  := by
  rw [toInt_eq]
  split
  · omega
  · omega

/-- The vectors describe as many bytes as their lengths say. -/
theorem Sending.length_described (h : c.Sending) :
  c.described.length = c.total
  := by
  rcases h.iovCnt with hcnt | ⟨hcnt, file, offset, hbase, hfile⟩
  · rw [h.described_of_one hcnt, h.writeBuff.length_contents, ← h.len_iov0]
    simp [total, vectors, hcnt]
  · rw [h.described_of_two hcnt, List.length_append, h.writeBuff.length_contents, ← h.len_iov0,
      bytesOf_of_mapped c hbase]
    simp only [Memory.slice, List.length_drop, List.length_take, total, vectors, hcnt]
    simp
    omega

/-- A `write` that sends all bytes ends with a positive count, if what the vectors have besides them is
nothing as an `int`. -/
theorem write_positive {results : List Accepted} {ret : Accepted} {sent : List Byte}
    (h : c.write results = some (ret, c', sent)) (hpos : 0 < c.total)
    (hover : (c.lens - c.total) % 2 ^ 32 = 0) (hdone : c'.total = 0) :
  ∃ n, ret = .ok (n + 1)
  := by
  induction results generalizing c sent with
  | nil => cases h
  | cons res results ih =>
      obtain ⟨ret₁, c₁, sent₁, hturn, hrest⟩ := write_cons h
      cases res with
      | error e =>
          obtain ⟨rfl, rfl, -⟩ : some (.error e) = ret₁ ∧ c = c₁ ∧ _ := by
            simpa [writeTurn] using hturn
          rcases hrest with ⟨-, -, rfl, -⟩ | ⟨hnone, -⟩
          · omega
          · cases hnone
      | ok len =>
          obtain ⟨hle, ⟨rfl, rfl, rfl⟩ | ⟨hlen, rfl, hret₁⟩⟩ := writeTurn_ok hturn
          · rcases hrest with ⟨rfl, -, rfl, -⟩ | ⟨hnone, -⟩
            · omega
            · cases hnone
          · rcases hrest with ⟨rfl, hret, rfl, -⟩ | ⟨hret, sent₂, hwrite, -⟩
            · rw [hret] at hret₁
              split at hret₁
              · cases hret₁
              · obtain rfl := Option.some.inj hret₁
                exact ⟨len - 1, by rw [Nat.sub_add_cancel (by omega)]⟩
            · rw [hret] at hret₁
              split at hret₁
              · rename_i hgo
                have hlens := c.total_le_lens
                have hmore : len < c.total := by
                  by_contra hall
                  have hzero : toInt (c.lens - len) = 0 := by
                    rw [toInt_eq, if_pos (by omega)]
                    omega
                  omega
                apply ih hwrite
                · rw [total_advance hle]
                  omega
                · rw [total_advance hle, lens_advance hle]
                  omega
              · cases hret₁

/-- The length of the mapped file. -/
theorem length_file {r : HttpResponse} (h : r.Mapped) :
  (r.file.getD []).length = if HasFile r then r.fileLen else 0
  := by
  cases hfile : r.file with
  | none => simp [HasFile, hfile]
  | some file =>
      have hlen : file.length = r.fileLen := h file hfile
      rw [Option.getD_some, hlen]
      split
      · rfl
      · rename_i hno
        simp only [HasFile, hfile, Option.isSome_some, true_and] at hno
        omega

/-- The bytes to send after `process`, and what the vectors have besides them. -/
theorem total_describe (d : HttpConn) :
  d.writeBuff.readableBytes ≤ (describe d).total ∧
    (describe d).lens - (describe d).total = if HasFile d.response then 0 else d.iov1.len
  := by
  obtain ⟨hlen0, hlen1, hcnt⟩ := describe_lens d
  by_cases hfile : HasFile d.response
  · rw [if_pos hfile] at hlen1 hcnt
    have htotal : (describe d).total = (describe d).lens := by
      simp [total, vectors, hcnt, lens]
    rw [if_pos hfile, htotal, lens, hlen0]
    omega
  · rw [if_neg hfile] at hlen1 hcnt
    have htotal : (describe d).total = (describe d).iov0.len := by simp [total, vectors, hcnt]
    rw [if_neg hfile, htotal, lens, hlen0, hlen1]
    omega

/-- A `write` that sends the whole response leaves nothing to send. -/
theorem total_of_sent {d : HttpConn} (hInv : d.writeBuff.Inv) (hmapped : d.response.Mapped)
    {results : List Accepted} {ret : Accepted} {sent : List Byte}
    (hwrite : (describe d).write results = some (ret, c', sent))
    (hsent : sent = (describe d).responseText) :
  c'.total = 0
  := by
  have hstart := describe_sending hInv hmapped
  have hcall : call (describe d, []) results = some (c', [] ++ sent) := by simp [call, hwrite]
  obtain ⟨hsend, htext⟩ := call_sending _ _ _ hstart hcall
  have hnil : c'.described = [] := by simpa [hsent] using htext
  rw [← hsend.length_described, hnil, List.length_nil]

/-- A connection that `process` has prepared tells its length exactly if the lengths fit. -/
theorem tellsLength_describe_iff {d : HttpConn} (hInv : d.writeBuff.Inv)
    (hpos : 0 < d.writeBuff.readableBytes) (hmapped : d.response.Mapped) :
  TellsLength (describe d) ↔ LensFit d
  := by
  obtain ⟨hlen0, hlen1, -⟩ := describe_lens d
  obtain ⟨hbuff, hresponse⟩ := describe_keeps d
  obtain ⟨htotal, hover⟩ := total_describe d
  have hbytes : (describe d).toWriteBytes = ((describe d).writeBuff.readableBytes : ℤ) +
      (((describe d).response.file.getD []).length : ℤ) ↔ LensFit d := by
    rw [toWriteBytes, hlen0, hlen1, hbuff, hresponse, length_file hmapped, LensFit]
    by_cases hfile : HasFile d.response
    · rw [if_pos hfile, if_pos hfile, if_pos hfile, ← toInt_eq_self_iff, Nat.cast_add]
    · rw [if_neg hfile, if_neg hfile, if_neg hfile, Nat.cast_zero, add_zero, toInt_add_eq_iff]
  constructor
  · intro htells
    apply hbytes.mp htells.toWriteBytes_eq
  · intro hfit
    refine ⟨hbytes.mpr hfit, ?_⟩
    intro results ret c' sent hwrite hsent
    have hzero : ((describe d).lens - (describe d).total) % 2 ^ 32 = 0 := by
      rw [hover]
      rw [LensFit] at hfit
      split
      · rfl
      · rename_i hfile
        rw [if_neg hfile] at hfit
        apply hfit.2
    apply write_positive hwrite (by omega) hzero (total_of_sent hInv hmapped hwrite hsent)

/-! ### Histories -/

/-- `write` is called for a response only. -/
def Proper (c : HttpConn) : Op → Prop
  | .write _ => c.Sending
  | _ => True

/-- After an operation that is a `process` which returns true, the length of the response is told. -/
def Answers (c : HttpConn) : Op → Prop
  | .process verify fs srcDir => ∀ c', c.process verify fs srcDir = some (true, c') → TellsLength c'
  | _ => True

/-- The lengths of the response that an operation prepares fit. -/
def LengthsFit (c : HttpConn) : Op → Prop
  | .process verify fs srcDir =>
      c.readBuff.readableBytes ≠ 0 → ∀ d, c.prepare verify fs srcDir = some d → LensFit d
  | _ => True

theorem answers_iff (h : c.writeBuff.Inv) (op : Op) :
  Answers c op ↔ LengthsFit c op
  := by
  cases op with
  | process verify fs srcDir =>
      simp only [Answers, LengthsFit, process_eq_true_iff]
      constructor
      · intro hanswers hne d hprepare
        obtain ⟨hInv, hpos, hmapped, -⟩ := prepare_spec h hprepare
        apply (tellsLength_describe_iff hInv hpos hmapped).mp
        apply hanswers _ ⟨hne, d, hprepare, rfl⟩
      · rintro hfit _ ⟨hne, d, hprepare, rfl⟩
        obtain ⟨hInv, hpos, hmapped, -⟩ := prepare_spec h hprepare
        apply (tellsLength_describe_iff hInv hpos hmapped).mpr (hfit hne d hprepare)
  | init fd isKeepAlive => apply Iff.rfl
  | read isET results => apply Iff.rfl
  | write results => apply Iff.rfl
  | close => apply Iff.rfl

theorem writeBuff_read {isET : Bool} {results : List (Except Errno (List Byte))}
    {len : Except Errno ℕ} (h : c.read isET results = some (len, c')) :
  c'.writeBuff = c.writeBuff
  := by
  induction results generalizing c with
  | nil => cases h
  | cons res results ih =>
      obtain ⟨len₁, readBuff, -, ⟨-, -, rfl⟩ | hrest⟩ := read_cons h
      · rfl
      · apply ih hrest

/-- The write buffer stays in good order if `write` is called for a response only. -/
theorem writeBuff_step (op : Op) (h : c.writeBuff.Inv) (hproper : Proper c op)
    (hstep : c.step op = some c') :
  c'.writeBuff.Inv
  := by
  cases op with
  | init fd isKeepAlive =>
      obtain rfl := Option.some.inj hstep
      unfold HttpConn.init
      split
      · apply h
      · apply h.retrieveAll
  | read isET results =>
      obtain ⟨⟨len, c'⟩, hread, rfl⟩ := Option.map_eq_some_iff.mp hstep
      rw [writeBuff_read hread]
      apply h
  | process verify fs srcDir =>
      obtain ⟨⟨ok, c'⟩, hprocess, rfl⟩ := Option.map_eq_some_iff.mp hstep
      rw [process_eq] at hprocess
      split at hprocess
      · obtain ⟨-, rfl⟩ := Prod.mk.inj (Option.some.inj hprocess)
        apply h
      · obtain ⟨d, hprepare, heq⟩ := Option.map_eq_some_iff.mp hprocess
        obtain ⟨-, rfl⟩ := Prod.mk.inj heq
        rw [(describe_keeps d).1]
        exact (prepare_spec h hprepare).1
  | write results =>
      obtain ⟨⟨ret, c', sent⟩, hwrite, rfl⟩ := Option.map_eq_some_iff.mp hstep
      have hcall : call (c, []) results = some (c', [] ++ sent) := by simp [call, hwrite]
      exact (call_sending (c, []) results _ ⟨hproper, rfl⟩ hcall).1.writeBuff
  | close =>
      obtain rfl := Option.some.inj hstep
      unfold HttpConn.close
      dsimp only
      split
      · apply h
      · apply h

/-- A new connection, in memory that held anything. -/
def newIn (iovCnt : ℕ) (iov0 iov1 : IoVec) : HttpConn :=
  { new with iovCnt := iovCnt, iov0 := iov0, iov1 := iov1 }

/-- In a history where `write` is called for responses only, every `process` that returns true leaves a
connection that tells the length of its response, exactly if the lengths fit each time. -/
theorem toWriteBytes_guarded_iff (iovCnt : ℕ) (iov0 iov1 : IoVec) {ops : List Op}
    (hproper : Guarded step Proper (newIn iovCnt iov0 iov1) ops) :
  Guarded step Answers (newIn iovCnt iov0 iov1) ops ↔
    Guarded step LengthsFit (newIn iovCnt iov0 iov1) ops
  := by
  have hInv : (newIn iovCnt iov0 iov1).writeBuff.Inv := Buffer.new_inv (by norm_num)
  have hcongr : Guarded step (fun c op => Proper c op ∧ Answers c op) (newIn iovCnt iov0 iov1) ops ↔
      Guarded step (fun c op => Proper c op ∧ LengthsFit c op) (newIn iovCnt iov0 iov1) ops :=
    guarded_congr (fun c => c.writeBuff.Inv)
      (fun c op h => and_congr_right fun _ => answers_iff h op)
      (fun c op c' h hop hstep => writeBuff_step op h hop.1 hstep) hInv
  constructor
  · intro hanswers
    apply (hcongr.mp (hproper.and hanswers)).mono
    exact fun c op hop => hop.2
  · intro hfit
    apply (hcongr.mpr (hproper.and hfit)).mono
    exact fun c op hop => hop.2

instance (d : HttpConn) : Decidable (LensFit d) :=
  inferInstanceAs (Decidable (if HasFile d.response then
    d.writeBuff.readableBytes + d.response.fileLen < 2 ^ 31
    else d.writeBuff.readableBytes < 2 ^ 31 ∧ d.iov1.len % 2 ^ 32 = 0))

instance LengthsFit.decidable (c : HttpConn) : ∀ op, Decidable (LengthsFit c op)
  | .process verify fs srcDir =>
      inferInstanceAs (Decidable (c.readBuff.readableBytes ≠ 0 →
        ∀ d ∈ c.prepare verify fs srcDir, LensFit d))
  | .init _ _ | .read _ _ | .write _ | .close => inferInstanceAs (Decidable True)

instance (v : IoVec) :
    Decidable (∃ file offset, v.base = .mapped file offset ∧ offset + v.len ≤ file.length) :=
  match h : v.base with
  | .unset => isFalse (by simp)
  | .storage _ => isFalse (by simp)
  | .mapped file offset => decidable_of_iff (offset + v.len ≤ file.length) (by simp)

instance Sending.decidable (c : HttpConn) : Decidable c.Sending :=
  decidable_of_iff
    (c.writeBuff.Inv ∧ c.iov0.len = c.writeBuff.readableBytes ∧
      (c.iov0.len = 0 ∨ c.iov0.base = .storage c.writeBuff.readPos) ∧
      (c.iovCnt = 1 ∨ c.iovCnt = 2 ∧
        ∃ file offset, c.iov1.base = .mapped file offset ∧ offset + c.iov1.len ≤ file.length))
    ⟨fun ⟨hbuff, hlen, hbase, hcnt⟩ => ⟨hbuff, hlen, hbase, hcnt⟩,
      fun h => ⟨h.writeBuff, h.len_iov0, h.base_iov0, h.iovCnt⟩⟩

instance Proper.decidable (c : HttpConn) : ∀ op, Decidable (Proper c op)
  | .write _ => inferInstanceAs (Decidable c.Sending)
  | .init _ _ | .read _ _ | .process _ _ _ | .close => inferInstanceAs (Decidable True)

/-- The bytes of a request. -/
def getRoot : List Byte := ascii "GET / HTTP/1.1" ++ crlf ++ crlf

/-- A file system without files. -/
def noFiles : FileSystem where
  stat := fun _ => none
  restat := fun _ => none
  opens := fun _ => false
  mmap := fun _ _ => none

/-- A new connection, in memory that was zero. -/
def fresh : HttpConn := newIn 0 ⟨.unset, 0⟩ ⟨.unset, 0⟩

/-- A request is read and a response with a file of three bytes is made. -/
def fileVisit : List Op :=
  [.init 5 false, .read false [.ok getRoot], .process (fun _ _ _ => true) threeBytes (ascii "/srv")]

/-- Seven bytes of that response are sent before an error, and the connection reads a request for the
next client. -/
def nextVisit : List Op := [.write [.ok 7, .error 11], .init 5 false, .read false [.ok getRoot]]

/-- The response is made for the next client, without a file. -/
def errorPage : Op := .process (fun _ _ _ => true) noFiles (ascii "/srv")

/-- After an error in the middle of a file, the length of a response without a file is not told. -/
theorem errorPage_not_told :
  Guarded step Proper fresh (fileVisit ++ nextVisit ++ [errorPage]) ∧
    ¬ Guarded step Answers fresh (fileVisit ++ nextVisit ++ [errorPage])
  := by
  refine ⟨by decide +kernel, ?_⟩
  intro h
  have hwrong : ((run step fresh (fileVisit ++ nextVisit)).bind fun c =>
      c.process (fun _ _ _ => true) noFiles (ascii "/srv")).map (fun p =>
        (p.1, decide (p.2.toWriteBytes = (p.2.writeBuff.readableBytes : ℤ) +
          ((p.2.response.file.getD []).length : ℤ)))) = some (true, false) := by decide +kernel
  obtain ⟨⟨ok, c'⟩, hbind, hvalue⟩ := Option.map_eq_some_iff.mp hwrong
  obtain ⟨c, hrun, hprocess⟩ := Option.bind_eq_some_iff.mp hbind
  obtain ⟨rfl, hne⟩ := Prod.mk.inj hvalue
  apply of_decide_eq_false hne (h.last hrun c' hprocess).toWriteBytes_eq

/-- The rest of that response is sent as well, in two parts, and the connection reads a request for the
next client. -/
def sentVisit : List Op :=
  [.write [.ok 7, .error 11], .write [.ok 77, .ok 1], .init 5 false, .read false [.ok getRoot]]

/-- The lengths of both responses are told if the first one was sent to its end. -/
theorem fileVisit_told :
  ((run step fresh (fileVisit ++ sentVisit ++ [errorPage])).map fun c => c.total) = some 217 ∧
    Guarded step Answers fresh (fileVisit ++ sentVisit ++ [errorPage])
  := by
  refine ⟨by decide +kernel, ?_⟩
  have hproper : Guarded step Proper fresh (fileVisit ++ sentVisit ++ [errorPage]) := by
    decide +kernel
  apply (toWriteBytes_guarded_iff 0 ⟨.unset, 0⟩ ⟨.unset, 0⟩ hproper).mpr
  decide +kernel

end HttpConn

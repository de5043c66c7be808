import TinyWebserver.Http.Heads
import TinyWebserver.Http.Lengths

/-!
# The text of a response

A response is a status line, header fields, an empty line and a body, and `makeResponse_framed` says
that this is what `MakeResponse` and the mapped file give, whatever the system calls answer: one header
field tells the length of the body. The status line of the response to a request that was refused
is settled by `stat` of the resource directory, `process_refused_iff`.
-/

/-- A line has no byte of an end of line in it. -/
def OneLine (xs : List Byte) : Prop := cr ∉ xs ∧ lf ∉ xs

instance (xs : List Byte) : Decidable (OneLine xs) := inferInstanceAs (Decidable (_ ∧ _))

theorem OneLine.append {xs ys : List Byte} (hx : OneLine xs) (hy : OneLine ys) :
  OneLine (xs ++ ys)
  := by
  simp only [OneLine, List.mem_append, not_or] at hx hy ⊢
  exact ⟨⟨hx.1, hy.1⟩, hx.2, hy.2⟩

theorem oneLine_decimal (z : ℤ) :
  OneLine (decimal z)
  := by
  constructor
  · intro h
    rcases toNat_of_mem_decimal h with h | h <;> simp [cr] at h
  · intro h
    rcases toNat_of_mem_decimal h with h | h <;> simp [lf] at h

/-- A letter in lower case. -/
def lowerCase (b : Byte) : Byte := if 65 ≤ b ∧ b ≤ 90 then b + 32 else b

/-- A name and a value. -/
abbrev HeaderField := List Byte × List Byte

namespace HeaderField

/-- The line of a header field, with its end. -/
def text (field : HeaderField) : List Byte := field.1 ++ ascii ": " ++ field.2 ++ crlf

/-- A name is not empty, has no colon and is on one line. -/
def IsName (name : List Byte) : Prop := name ≠ [] ∧ colon ∉ name ∧ OneLine name

instance (name : List Byte) : Decidable (IsName name) := inferInstanceAs (Decidable (_ ∧ _))

/-- The name and the value can be told apart, and both are on one line. -/
structure WellFormed (field : HeaderField) : Prop where
  name : IsName field.1
  value : OneLine field.2

/-- The field is about the length of the body. -/
def IsLength (field : HeaderField) : Prop := field.1.map lowerCase = ascii "content-length"

instance (field : HeaderField) : Decidable field.IsLength := inferInstanceAs (Decidable (_ = _))

end HeaderField

/-- The first line of a response, without its end. -/
def HttpResponse.statusLine (line : ℤ × List Byte) : List Byte :=
  ascii "HTTP/1.1 " ++ decimal line.1 ++ [space] ++ line.2

/-- A response as its reader sees it. -/
structure Reply where
  line : List Byte
  fields : List HeaderField
  body : List Byte

namespace Reply

/-- The bytes of a response. -/
def text (p : Reply) : List Byte :=
  p.line ++ crlf ++ p.fields.flatMap HeaderField.text ++ crlf ++ p.body

/-- The first line is a status line, every field is on a line of its own, and a single one of them tells
the length of the body. -/
structure Framed (p : Reply) : Prop where
  line : ∃ line ∈ HttpResponse.codeStatus, p.line = HttpResponse.statusLine line
  oneLine : OneLine p.line
  fields : ∀ field ∈ p.fields, field.WellFormed
  length : ∃ name, p.fields.filter (·.IsLength) = [(name, decimal p.body.length)]

end Reply

namespace HttpResponse

variable {fs : FileSystem} {r : HttpResponse}

/-! ### The parts of a response -/

/-- The header fields that `AddHeader_` makes. -/
def headerFields (r : HttpResponse) : List HeaderField :=
  (if r.isKeepAlive then
    [(ascii "Connection", ascii "keep-alive"), (ascii "keep-alive", ascii "max=6, timeout=120")]
  else [(ascii "Connection", ascii "close")]) ++
    [(ascii "Content-type", r.getFileType)]

/-- The header field for a length. -/
def lengthField (n : ℕ) : HeaderField := (ascii "Content-length", decimal n)

theorem oneLine_getFileType (r : HttpResponse) :
  OneLine r.getFileType
  := by
  have hall : ∀ p ∈ suffixType, OneLine p.2 := by decide
  unfold getFileType
  split
  · decide
  · rename_i suffix _
    cases hlookup : suffixType.lookup suffix with
    | none => decide
    | some type =>
        obtain ⟨l₁, l₂, hmem, -⟩ := List.lookup_eq_some_iff.mp hlookup
        apply hall (suffix, type)
        simp [hmem]

/-- The fields that `AddHeader_` makes are on lines of their own. -/
theorem headerFields_wellFormed (r : HttpResponse) :
  ∀ field ∈ r.headerFields, field.WellFormed
  := by
  intro field hfield
  unfold headerFields at hfield
  rcases List.mem_append.mp hfield with hfield | hfield
  · split at hfield
    · rcases List.mem_pair.mp hfield with rfl | rfl
      · constructor <;> decide
      · constructor <;> decide
    · obtain rfl := List.mem_singleton.mp hfield
      constructor <;> decide
  · obtain rfl := List.mem_singleton.mp hfield
    have hname : HeaderField.IsName (ascii "Content-type") := by decide
    exact ⟨hname, r.oneLine_getFileType⟩

/-- None of these fields is about the length. -/
theorem filter_headerFields (r : HttpResponse) :
  r.headerFields.filter (·.IsLength) = []
  := by
  rw [List.filter_eq_nil_iff]
  intro field hfield
  unfold headerFields at hfield
  rcases List.mem_append.mp hfield with hfield | hfield
  · split at hfield
    · rcases List.mem_pair.mp hfield with rfl | rfl <;> decide
    · obtain rfl := List.mem_singleton.mp hfield
      decide
  · obtain rfl := List.mem_singleton.mp hfield
    change ¬ decide ((ascii "Content-type").map lowerCase = ascii "content-length") = true
    decide

theorem lengthField_wellFormed (n : ℕ) :
  (lengthField n).WellFormed
  := by
  have hname : HeaderField.IsName (ascii "Content-length") := by decide
  exact ⟨hname, oneLine_decimal n⟩

/-- The header fields and a field for the length of the body make a framed response. -/
theorem framed_of_parts {line : ℤ × List Byte} (hline : line ∈ codeStatus) (r : HttpResponse)
    (body : List Byte) :
  Reply.Framed ⟨statusLine line, r.headerFields ++ [lengthField body.length], body⟩
  := by
  have hall : ∀ p ∈ codeStatus, OneLine p.2 := by decide
  constructor
  · exact ⟨line, hline, rfl⟩
  · apply OneLine.append _ (hall _ hline)
    apply OneLine.append _ (by decide)
    apply OneLine.append (by decide) (oneLine_decimal line.1)
  · intro field hfield
    rcases List.mem_append.mp hfield with hfield | hfield
    · apply r.headerFields_wellFormed field hfield
    · obtain rfl := List.mem_singleton.mp hfield
      apply lengthField_wellFormed
  · refine ⟨ascii "Content-length", ?_⟩
    have hlength : (lengthField body.length).IsLength := by
      change (ascii "Content-length").map lowerCase = ascii "content-length"
      decide
    rw [List.filter_append, filter_headerFields, List.nil_append,
      List.filter_cons_of_pos (by simpa using hlength), List.filter_nil]
    rfl

/-- `AddHeader_` appends the text of its fields. -/
theorem addHeader_text (r : HttpResponse) :
  ∃ strs, strs.flatten = r.headerFields.flatMap HeaderField.text ∧
    ∀ buff, r.addHeader buff = buff.appendAll strs
  := by
  have hconnection : ascii "Connection: " = ascii "Connection" ++ ascii ": " := by decide
  have halive : ascii "keep-alive: max=6, timeout=120"
      = ascii "keep-alive" ++ ascii ": " ++ ascii "max=6, timeout=120" := by decide
  have htype : ascii "Content-type: " = ascii "Content-type" ++ ascii ": " := by decide
  refine ⟨_, ?_, fun _ => rfl⟩
  unfold headerFields
  split
  · simp only [HeaderField.text, List.flatten_append, List.flatten_cons, List.flatten_nil,
      List.flatMap_append, List.flatMap_cons, List.flatMap_nil, List.append_nil, hconnection, halive,
      htype, List.append_assoc]
  · simp only [HeaderField.text, List.flatten_append, List.flatten_cons, List.flatten_nil,
      List.flatMap_append, List.flatMap_cons, List.flatMap_nil, List.append_nil, hconnection, htype,
      List.append_assoc]

/-- What `AddContent_` appends is, with the file that it maps, a field for a length, the empty line and a
body of that length. -/
theorem addContent_text (fs : FileSystem) (hr : r.mmFile = none) :
  ∃ r' strs body, strs.flatten ++ r'.file.getD [] = (lengthField body.length).text ++ crlf ++ body ∧
    r'.Mapped ∧ Buffer.Appends (r.addContent fs) r' strs
  := by
  have hMapped : r.Mapped := by simp [Mapped, hr]
  have hlength : ascii "Content-length: " = ascii "Content-length" ++ ascii ": " := by
    decide
  have herror : ∃ strs body, strs.flatten ++ r.file.getD [] =
      (lengthField body.length).text ++ crlf ++ body ∧ Buffer.Appends (fun buff =>
        (r.errorContent buff (ascii "File NotFound!")).bind fun buff => some (r, buff)) r strs := by
    refine ⟨_, r.errorBody (ascii "File NotFound!"), ?_, fun _ => rfl⟩
    rw [file, hr]
    simp only [Option.getD_none, List.flatten_cons, List.flatten_nil, List.append_nil,
      HeaderField.text, lengthField, hlength, List.append_assoc]
  obtain ⟨strs, body, herror, happends⟩ := herror
  unfold addContent
  by_cases hopens : fs.opens r.fileName = true
  · simp only [hopens, if_true]
    by_cases hsize : r.mmFileStat.size = 0
    · simp only [hsize, if_true]
      refine ⟨{ r with mmFile := none }, _, [], ?_, by simp [Mapped], Buffer.appends_append _ _⟩
      have htext : ascii "Content-length: 0" ++ crlf ++ crlf
          = (lengthField 0).text ++ crlf := by decide
      simp only [HttpResponse.file, Option.getD_none, List.flatten_cons, List.flatten_nil,
        List.append_nil, List.length_nil, htext]
    · simp only [hsize, if_false]
      cases hmmap : fs.mmap r.fileName r.mmFileStat.size with
      | none => exact ⟨r, strs, body, herror, hMapped, happends⟩
      | some file =>
          refine ⟨{ r with mmFile := some file }, _, file.1, ?_, ?_, Buffer.appends_append _ _⟩
          · simp only [HttpResponse.file, Option.getD_some, List.flatten_cons, List.flatten_nil,
              List.append_nil, HeaderField.text, lengthField, hlength, file.2, List.append_assoc]
          · rintro file' ⟨⟩
            apply file.2
  · simp only [hopens]
    exact ⟨r, strs, body, herror, hMapped, happends⟩

/-- The code and the status that `AddStateLine_` chooses for a code. -/
def statusOf (code : ℤ) : ℤ × List Byte :=
  match codeStatus.lookup code with
  | some status => (code, status)
  | none => (400, ascii "Bad Request")

theorem statusOf_mem (code : ℤ) :
  statusOf code ∈ codeStatus
  := by
  unfold statusOf
  cases hlookup : codeStatus.lookup code with
  | none => simp [codeStatus]
  | some status =>
      obtain ⟨l₁, l₂, hlist, -⟩ := List.lookup_eq_some_iff.mp hlookup
      simp [hlist]

/-- `AddStateLine_` appends the line for the code. -/
theorem addStateLine_text (r : HttpResponse) :
  Buffer.Appends r.addStateLine { r with code := (statusOf r.code).1 } [lineText (statusOf r.code)]
  := by
  have heq : r.addStateLine = fun buff => (buff.append (lineText (statusOf r.code))).bind
      fun buff => some ({ r with code := (statusOf r.code).1 }, buff) := by
    funext buff
    unfold addStateLine statusOf
    cases codeStatus.lookup r.code <;> rfl
  rw [heq]
  apply Buffer.appends_append

theorem code_errorHtml (fs : FileSystem) (r : HttpResponse) :
  (errorHtml fs r).code = r.code
  := by
  unfold errorHtml
  split <;> rfl

/-- The code of the response, by what `stat` says of its file. -/
def chosen (fs : FileSystem) (r : HttpResponse) : ℤ :=
  chooseCode r.code (fs.stat r.fileName) ((fs.stat r.fileName).getD r.mmFileStat)

/-- `MakeResponse` appends the head and the body of a framed response, less the file that it maps. -/
theorem makeResponse_text (fs : FileSystem) (hr : r.mmFile = none) :
  ∃ r' strs p, Reply.Framed p ∧ p.line = statusLine (statusOf (r.chosen fs)) ∧
    strs.flatten ++ r'.file.getD [] = p.text ∧ r'.Mapped ∧
    Buffer.Appends (makeResponse fs r) r' strs
  := by
  unfold makeResponse
  dsimp only
  rw [← chosen]
  generalize hr₁ : errorHtml fs _ = r₁
  have hfile : r₁.mmFile = none := by rw [← hr₁, mmFile_errorHtml, hr]
  have hcode : r₁.code = r.chosen fs := by rw [← hr₁, code_errorHtml]
  have hstate := r₁.addStateLine_text
  rw [hcode] at hstate
  obtain ⟨strs, hstrs, hheader⟩ := addHeader_text { r₁ with code := (statusOf (r.chosen fs)).1 }
  obtain ⟨r₃, strs', body, hbody, hmapped, hcontent⟩ :=
    addContent_text fs (r := { r₁ with code := (statusOf (r.chosen fs)).1 }) hfile
  refine ⟨r₃, [lineText (statusOf (r.chosen fs))] ++ (strs ++ strs'), _,
    framed_of_parts (statusOf_mem (r.chosen fs)) { r₁ with code := (statusOf (r.chosen fs)).1 } body,
    rfl, ?_, hmapped, ?_⟩
  · simp only [List.flatten_append, List.flatten_cons, List.flatten_nil, List.append_nil, hstrs,
      List.append_assoc, hbody]
    simp only [Reply.text, lineText, statusLine, List.flatMap_append, List.flatMap_cons, List.flatMap_nil,
      List.append_nil, List.append_assoc]
  · refine hstate.bind (g := fun r buff => do
      let buff ← r.addHeader buff
      r.addContent fs buff) ?_
    intro buff
    dsimp only
    rw [hheader, Buffer.appendAll_append]
    cases buff.appendAll strs with
    | none => rfl
    | some buff₁ => apply hcontent

end HttpResponse

namespace HttpConn

open HttpResponse

variable {c : HttpConn} {srcDir : List Byte}

theorem init_spec {path : List Byte} {isKeepAlive : Bool} {code : ℤ} {r : HttpResponse}
    (h : HttpResponse.init srcDir path isKeepAlive code = some r) :
  srcDir ≠ [] ∧ r = ⟨code, isKeepAlive, path, srcDir, none, ⟨0, 0⟩⟩
  := by
  unfold HttpResponse.init at h
  split at h
  · cases h
  · rename_i hne
    exact ⟨hne, (Option.some.inj h).symm⟩

/-- What the vectors describe after `MakeResponse` is what the buffer held and a framed response. -/
theorem describe_makeResponse {r : HttpResponse} (hr : r.mmFile = none) (fs : FileSystem)
    (hInv : c.writeBuff.Inv) :
  ∃ r' buff p, r.makeResponse fs c.writeBuff = some (r', buff) ∧ Reply.Framed p ∧
    p.line = statusLine (statusOf (r.chosen fs)) ∧ ∀ d : HttpConn, d.response = r' →
      d.writeBuff = buff → d.describe.described = c.writeBuff.contents ++ p.text
  := by
  obtain ⟨r', strs, p, hframed, hline, htext, hmapped, happends⟩ := makeResponse_text fs hr
  obtain ⟨buff, hmake, hbuff, hcontents⟩ := happends.of_inv hInv
  refine ⟨r', buff, p, hmake, hframed, hline, ?_⟩
  rintro d rfl rfl
  have hdescribed := (describe_sending hbuff hmapped).2
  rw [List.nil_append] at hdescribed
  rw [hdescribed, responseText, (describe_keeps d).1, (describe_keeps d).2, hcontents,
    List.append_assoc, htext]

/-- Whatever `Init` is given and the system calls answer, the bytes that `MakeResponse` appends to an
empty buffer and those of the file that `process` adds to them are a status line, header fields, an
empty line and a body, and a single field tells the length of the body. -/
theorem makeResponse_framed {path : List Byte} {isKeepAlive : Bool} {code : ℤ} {r : HttpResponse}
    (hinit : HttpResponse.init srcDir path isKeepAlive code = some r) (fs : FileSystem)
    (hInv : c.writeBuff.Inv) (hempty : c.writeBuff.contents = []) :
  ∃ r' buff p, r.makeResponse fs c.writeBuff = some (r', buff) ∧ Reply.Framed p ∧
    (describe { c with response := r', writeBuff := buff }).described = p.text
  := by
  have hr : r.mmFile = none := by rw [(init_spec hinit).2]
  obtain ⟨r', buff, p, hmake, hframed, -, htext⟩ := describe_makeResponse hr fs hInv
  refine ⟨r', buff, p, hmake, hframed, ?_⟩
  rw [htext _ rfl rfl, hempty, List.nil_append]

/-- A page that is there, as a response. -/
theorem makeResponse_framed_threeBytes :
  ∃ r r' buff p, HttpResponse.init (ascii "/srv") (ascii "/a.html") true 200 = some r ∧
    r.makeResponse threeBytes new.writeBuff = some (r', buff) ∧ Reply.Framed p ∧
    (describe { new with response := r', writeBuff := buff }).described = p.text
  := by
  have hInv : new.writeBuff.Inv := Buffer.new_inv (by norm_num)
  have hempty : new.writeBuff.contents = [] := rfl
  have hinit : HttpResponse.init (ascii "/srv") (ascii "/a.html") true 200
    = some ⟨200, true, ascii "/a.html", ascii "/srv", none, ⟨0, 0⟩⟩ := rfl
  obtain ⟨r', buff, p, h⟩ := makeResponse_framed hinit threeBytes hInv hempty
  exact ⟨_, r', buff, p, hinit, h⟩

/-! ### Requests that were refused -/

/-- The first line of a framed response is what stands in front of the first end of line. -/
theorem takeWhile_text {p : Reply} (h : Reply.Framed p) :
  p.text.takeWhile (· ≠ cr) = p.line
  := by
  rw [Reply.text, crlf, List.append_assoc, List.append_assoc, List.append_assoc,
    List.takeWhile_append_of_pos (all_ne_of_notMem h.oneLine.1), List.cons_append, List.takeWhile_cons_of_neg (by simp),
    List.append_nil]

/-- The status line of the response to a request that was refused. -/
def badRequest : List Byte := ascii "HTTP/1.1 400 Bad Request"

/-- The line for a code is that of a bad request only for the code 400, or one without a status. -/
theorem statusLine_eq_badRequest_iff {code : ℤ} (h : code ∈ [400, 403, 404]) :
  statusLine (statusOf code) = badRequest ↔ code = 400
  := by
  fin_cases h <;> decide

/-- What `stat` says of the resource directory. -/
def statDir (fs : FileSystem) (srcDir : List Byte) : Option Stat :=
  fs.stat (srcDir.takeWhile (· ≠ 0))

/-- The resource directory is no directory, and others can read it. -/
def PlainFile (fs : FileSystem) (srcDir : List Byte) : Prop :=
  ∃ s, statDir fs srcDir = some s ∧ s.isDir = false ∧ s.othersRead = true

/-- The response to a request that was refused, before it is made. -/
def refused (srcDir : List Byte) : HttpResponse := ⟨400, false, [], srcDir, none, ⟨0, 0⟩⟩

theorem chosen_refused (fs : FileSystem) (srcDir : List Byte) :
  (refused srcDir).chosen fs = chooseCode 400 (statDir fs srcDir) ((statDir fs srcDir).getD ⟨0, 0⟩)
  := by
  have hname : (refused srcDir).fileName = srcDir.takeWhile (· ≠ 0) := by
    rw [refused, fileName, List.append_nil]
  rw [chosen, hname, ← statDir]
  rfl

theorem chosen_refused_mem (fs : FileSystem) (srcDir : List Byte) :
  (refused srcDir).chosen fs ∈ [400, 403, 404]
  := by
  rw [chosen_refused, chooseCode]
  split
  · simp
  · split
    · simp
    · simp

/-- The code stays 400 only for a plain file in place of the directory. -/
theorem chosen_refused_iff (fs : FileSystem) (srcDir : List Byte) :
  (refused srcDir).chosen fs = 400 ↔ PlainFile fs srcDir
  := by
  rw [chosen_refused, PlainFile, chooseCode]
  cases statDir fs srcDir with
  | none => simp
  | some s =>
      by_cases hdir : s.isDir = true
      · simp [hdir]
      · by_cases hread : s.othersRead = true
        · simp [hdir, hread]
        · simp [hdir, hread]

/-- The response is in the vectors, behind what was to be sent before, and it begins with `line`. -/
def RespondsWith (line : List Byte) (c c' : HttpConn) : Prop :=
  ∃ p, Reply.Framed p ∧ p.line = line ∧ c'.described = c.writeBuff.contents ++ p.text

theorem RespondsWith.unique {c' : HttpConn} {line line' : List Byte} (h : RespondsWith line c c')
    (h' : RespondsWith line' c c') :
  line = line'
  := by
  obtain ⟨p, hframed, rfl, htext⟩ := h
  obtain ⟨p', hframed', rfl, htext'⟩ := h'
  have heq : p.text = p'.text := List.append_cancel_left (htext.symm.trans htext')
  rw [← takeWhile_text hframed, heq, takeWhile_text hframed']

/-- A request that `parse` refuses is answered by what `stat` says of the resource directory. -/
theorem process_refused {verify : HttpRequest.Verify} {request : HttpRequest} {b : Buffer}
    (hInv : c.writeBuff.Inv) (hne : c.readBuff.readableBytes ≠ 0)
    (hparse : HttpRequest.init.parse verify c.readBuff = some (false, request, b))
    (fs : FileSystem) (hdir : srcDir ≠ []) :
  ∃ c', c.process verify fs srcDir = some (true, c') ∧
    RespondsWith (statusLine (statusOf ((refused srcDir).chosen fs))) c c'
  := by
  have hrefused := hparse
  rw [HttpRequest.parse, if_neg hne] at hrefused
  obtain ⟨-, rfl, rfl⟩ := HttpRequest.parseLoop_false hrefused
  have hstart : startResponse srcDir false HttpRequest.init = some (refused srcDir) := by
    simp [startResponse, HttpResponse.init, hdir, HttpRequest.init, refused]
  obtain ⟨r', buff, p, hmake, hframed, hline, htext⟩ :=
    describe_makeResponse (r := refused srcDir) rfl fs hInv
  have hprepare : c.prepare verify fs srcDir = some { c with
      request := HttpRequest.init, response := r', writeBuff := buff } := by
    simp only [prepare, hparse, hstart, hmake, Option.bind_eq_bind, Option.bind_some]
  exact ⟨_, process_eq_true_iff.mpr ⟨hne, _, hprepare, rfl⟩, p, hframed, hline, htext _ rfl rfl⟩

/-- A request that `parse` refuses is answered with the status line of a bad request exactly if the
resource directory is a plain file that others can read. -/
theorem process_refused_iff {verify : HttpRequest.Verify} {request : HttpRequest} {b : Buffer}
    (hInv : c.writeBuff.Inv) (hne : c.readBuff.readableBytes ≠ 0)
    (hparse : HttpRequest.init.parse verify c.readBuff = some (false, request, b)) (fs : FileSystem) :
  (∃ c', c.process verify fs srcDir = some (true, c') ∧ RespondsWith badRequest c c') ↔
    srcDir ≠ [] ∧ PlainFile fs srcDir
  := by
  rw [← chosen_refused_iff, ← statusLine_eq_badRequest_iff (chosen_refused_mem fs srcDir)]
  constructor
  · rintro ⟨c', hprocess, hresponds⟩
    have hdir : srcDir ≠ [] := by
      rintro rfl
      obtain ⟨-, d, hprepare, -⟩ := process_eq_true_iff.mp hprocess
      rw [prepare, hparse] at hprepare
      cases hprepare
    obtain ⟨c'', hprocess', hresponds'⟩ := process_refused hInv hne hparse fs hdir
    rw [hprocess] at hprocess'
    obtain ⟨-, rfl⟩ := Prod.mk.inj (Option.some.inj hprocess')
    exact ⟨hdir, hresponds'.unique hresponds⟩
  · rintro ⟨hdir, hline⟩
    rw [← hline]
    apply process_refused hInv hne hparse fs hdir

/-- A connection that has read what is no request line. -/
def hasReadNoise : HttpConn := { new with readBuff := ⟨ascii "noise", 0, 5⟩ }

/-- A file system where every name is that of the same file. -/
def sameStat (s : Stat) : FileSystem where
  stat := fun _ => some s
  restat := fun _ => none
  opens := fun _ => false
  mmap := fun _ _ => none

/-- In a resource directory that is a directory, what is no request is not found. -/
theorem hasReadNoise_not_found :
  (HttpRequest.init.parse (fun _ _ _ => true) hasReadNoise.readBuff).map Prod.fst = some false ∧
    ¬ ∃ c', hasReadNoise.process (fun _ _ _ => true) (sameStat ⟨0o040755, 4096⟩) (ascii "/srv")
      = some (true, c') ∧ RespondsWith badRequest hasReadNoise c'
  := by
  have hrefuses : (HttpRequest.init.parse (fun _ _ _ => true) hasReadNoise.readBuff).map Prod.fst
      = some false := by decide
  refine ⟨hrefuses, ?_⟩
  rintro ⟨c', hprocess, hresponds⟩
  obtain ⟨⟨ok, request, b⟩, hparse, rfl⟩ := Option.map_eq_some_iff.mp hrefuses
  have hdir : ascii "/srv" ≠ [] := by decide
  obtain ⟨c'', hprocess', hresponds'⟩ := process_refused (Buffer.new_inv (by norm_num)) (by decide)
    hparse (sameStat ⟨0o040755, 4096⟩) hdir
  rw [hprocess] at hprocess'
  obtain ⟨-, rfl⟩ := Prod.mk.inj (Option.some.inj hprocess')
  have hline := hresponds.unique hresponds'
  revert hline
  decide

/-- With a plain file in place of the resource directory it is a bad request. -/
theorem hasReadNoise_bad :
  ∃ c', hasReadNoise.process (fun _ _ _ => true) (sameStat ⟨0o100644, 3⟩) (ascii "/srv")
    = some (true, c') ∧ RespondsWith badRequest hasReadNoise c'
  := by
  have hrefuses : (HttpRequest.init.parse (fun _ _ _ => true) hasReadNoise.readBuff).map Prod.fst
      = some false := by decide
  obtain ⟨⟨ok, request, b⟩, hparse, rfl⟩ := Option.map_eq_some_iff.mp hrefuses
  apply (process_refused_iff (Buffer.new_inv (by norm_num)) (by decide) hparse _).mpr
  exact ⟨by decide, ⟨0o100644, 3⟩, rfl, by decide, by decide⟩

end HttpConn

import TinyWebserver.Base.Buffer

/-!
# HTTP responses

The class `HttpResponse` of `http/httpresponse.cpp`: the head of a response is appended to a
buffer, and the file that is its body is mapped to memory. The outcomes of the system calls are a
`FileSystem`, and a mapping is the list of its bytes. `none` stands for a failed assertion.
-/

/-- What `stat` says of a file. -/
structure Stat where
  mode : ℕ
  size : ℕ
deriving DecidableEq, Repr

namespace Stat

/-- `S_ISDIR`. -/
def isDir (s : Stat) : Bool := s.mode &&& 0o170000 = 0o040000

/-- The bit `S_IROTH`. -/
def othersRead (s : Stat) : Bool := s.mode &&& 0o4 ≠ 0

end Stat

/-- The outcomes of the system calls of one response, by file name: `stat` in `MakeResponse` and
again in `ErrorHtml_`, `open`, and `mmap` for a length. A mapping has the length asked for. -/
structure FileSystem where
  stat : List Byte → Option Stat
  restat : List Byte → Option Stat
  opens : List Byte → Bool
  mmap : List Byte → (size : ℕ) → Option { file : List Byte // file.length = size }

/-- All files are smaller than one gibibyte. -/
structure FileSystem.Small (fs : FileSystem) : Prop where
  stat : ∀ name s, fs.stat name = some s → s.size < 2 ^ 30
  restat : ∀ name s, fs.restat name = some s → s.size < 2 ^ 30

namespace Buffer

/-- Several calls of `Append`. -/
def appendAll (b : Buffer) (strs : List (List Byte)) : Option Buffer := strs.foldlM append b

/-- Several calls of `Append` put the bytes behind the contents. -/
theorem Inv.appendAll {b : Buffer} (h : b.Inv) (strs : List (List Byte)) :
  ∃ b', b.appendAll strs = some b' ∧ b'.Inv ∧ b'.contents = b.contents ++ strs.flatten
  := by
  induction strs generalizing b with
  | nil => exact ⟨b, rfl, h, by simp⟩
  | cons str strs ih =>
      obtain ⟨b₁, hb₁, hInv₁, hcontents₁⟩ := h.append str
      obtain ⟨b₂, hb₂, hInv₂, hcontents₂⟩ := ih hInv₁
      refine ⟨b₂, ?_, hInv₂, ?_⟩
      · rw [Buffer.appendAll, List.foldlM_cons, hb₁]
        apply hb₂
      · rw [hcontents₂, hcontents₁, List.flatten_cons, List.append_assoc]

theorem appendAll_append (b : Buffer) (strs strs' : List (List Byte)) :
  b.appendAll (strs ++ strs') = (b.appendAll strs).bind fun b => b.appendAll strs'
  := List.foldlM_append

/-- Appending never shrinks the storage. -/
theorem length_le_of_appendAll {b b' : Buffer} {strs : List (List Byte)}
    (h : b.appendAll strs = some b') :
  b.buffer.length ≤ b'.buffer.length
  := by
  induction strs generalizing b with
  | nil =>
      obtain rfl : b = b' := by simpa [Buffer.appendAll] using h
      apply le_rfl
  | cons str strs ih =>
      rw [Buffer.appendAll, List.foldlM_cons] at h
      obtain ⟨b₁, hb₁, hrest⟩ := Option.bind_eq_some_iff.mp h
      apply (length_le_of_append hb₁).trans (ih hrest)

/-- A function appends the given strings to the buffer and returns `a`. -/
def Appends {α : Type*} (f : Buffer → Option (α × Buffer)) (a : α) (strs : List (List Byte)) : Prop :=
  ∀ b, f b = (b.appendAll strs).bind fun b => some (a, b)

theorem appends_append {α : Type*} (str : List Byte) (a : α) :
  Appends (fun b => (b.append str).bind fun b => some (a, b)) a [str]
  := by
  intro b
  dsimp only
  rw [Buffer.appendAll, List.foldlM_cons]
  cases b.append str <;> rfl

/-- Two functions that append, one after the other. -/
theorem Appends.bind {α β : Type*} {f : Buffer → Option (α × Buffer)} {a : α}
    {strs strs' : List (List Byte)} (hf : Appends f a strs) {g : α → Buffer → Option (β × Buffer)}
    {a' : β} (hg : Appends (g a) a' strs') :
  Appends (fun b => (f b).bind fun p => g p.1 p.2) a' (strs ++ strs')
  := by
  intro b
  dsimp only
  rw [hf, appendAll_append]
  cases b.appendAll strs with
  | none => rfl
  | some b₁ => apply hg

/-- On a buffer in good order the function succeeds. -/
theorem Appends.of_inv {α : Type*} {f : Buffer → Option (α × Buffer)} {a : α}
    {strs : List (List Byte)} (hf : Appends f a strs) {b : Buffer} (h : b.Inv) :
  ∃ b', f b = some (a, b') ∧ b'.Inv ∧ b'.contents = b.contents ++ strs.flatten
  := by
  obtain ⟨b', hb', hInv, hcontents⟩ := h.appendAll strs
  refine ⟨b', ?_, hInv, hcontents⟩
  rw [hf, hb', Option.bind_some]

end Buffer

/-- The class `HttpResponse`. -/
structure HttpResponse where
  code : ℤ
  isKeepAlive : Bool
  path : List Byte
  srcDir : List Byte
  mmFile : Option (List Byte)
  mmFileStat : Stat

namespace HttpResponse

/-- The constructor. -/
def new : HttpResponse := ⟨-1, false, [], [], none, ⟨0, 0⟩⟩

/-- `SUFFIX_TYPE`. -/
def suffixType : List (List Byte × List Byte) :=
  [(ascii ".html", ascii "text/html"), (ascii ".xml", ascii "text/xml"),
    (ascii ".xhtml", ascii "application/xhtml+xml"), (ascii ".txt", ascii "text/plain"),
    (ascii ".rtf", ascii "application/rtf"), (ascii ".pdf", ascii "application/pdf"),
    (ascii ".word", ascii "application/nsword"), (ascii ".png", ascii "image/png"),
    (ascii ".gif", ascii "image/gif"), (ascii ".jpg", ascii "image/jpeg"),
    (ascii ".jpeg", ascii "image/jpeg"), (ascii ".au", ascii "audio/basic"),
    (ascii ".mpeg", ascii "video/mpeg"), (ascii ".mpg", ascii "video/mpeg"),
    (ascii ".avi", ascii "video/x-msvideo"), (ascii ".gz", ascii "application/x-gzip"),
    (ascii ".tar", ascii "application/x-tar"), (ascii ".css", ascii "text/css"),
    (ascii ".js", ascii "text/javascript")]

/-- `CODE_STATUS`. -/
def codeStatus : List (ℤ × List Byte) :=
  [(200, ascii "OK"), (400, ascii "Bad Request"), (403, ascii "Forbidden"),
    (404, ascii "Not Found")]

/-- `CODE_PATH`. -/
def codePath : List (ℤ × List Byte) :=
  [(400, ascii "/400.html"), (403, ascii "/403.html"), (404, ascii "/404.html")]

/-- The name of the file as the system calls get it, which ends before the first zero byte. -/
def fileName (r : HttpResponse) : List Byte := (r.srcDir ++ r.path).takeWhile (· ≠ 0)

/-- `Init`, on any response. A mapping that is there is undone by `UnmapFile`. -/
def init (srcDir path : List Byte) (isKeepAlive : Bool) (code : ℤ) : Option HttpResponse :=
  if srcDir = [] then none
  else some ⟨code, isKeepAlive, path, srcDir, none, ⟨0, 0⟩⟩

/-- `UnmapFile`. -/
def unmapFile (r : HttpResponse) : HttpResponse := { r with mmFile := none }

/-- `File`. -/
def file (r : HttpResponse) : Option (List Byte) := r.mmFile

/-- `FileLen`. -/
def fileLen (r : HttpResponse) : ℕ := r.mmFileStat.size

/-- `ErrorHtml_`. -/
def errorHtml (fs : FileSystem) (r : HttpResponse) : HttpResponse :=
  match codePath.lookup r.code with
  | some path =>
      let r := { r with path := path }
      { r with mmFileStat := (fs.restat r.fileName).getD r.mmFileStat }
  | none => r

/-- `AddStateLine_`. -/
def addStateLine (r : HttpResponse) (buff : Buffer) : Option (HttpResponse × Buffer) := do
  let (code, status) :=
    match codeStatus.lookup r.code with
    | some status => (r.code, status)
    | none => (400, ascii "Bad Request")
  let buff ← buff.append (ascii "HTTP/1.1 " ++ decimal code ++ [space] ++ status ++ crlf)
  some ({ r with code := code }, buff)

/-- The part of the path from its last dot on, if there is one. -/
def suffix (path : List Byte) : Option (List Byte) :=
  if 46 ∈ path then some (46 :: (path.reverse.takeWhile (· ≠ 46)).reverse) else none

/-- `GetFileType_`. -/
def getFileType (r : HttpResponse) : List Byte :=
  match suffix r.path with
  | none => ascii "text/plain"
  | some suffix => (suffixType.lookup suffix).getD (ascii "text/plain")

/-- `AddHeader_`. -/
def addHeader (r : HttpResponse) (buff : Buffer) : Option Buffer :=
  buff.appendAll
    ([ascii "Connection: "] ++
      (if r.isKeepAlive then
        [ascii "keep-alive" ++ crlf, ascii "keep-alive: max=6, timeout=120" ++ crlf]
      else [ascii "close" ++ crlf]) ++
      [ascii "Content-type: " ++ r.getFileType ++ crlf])

/-- The page that `ErrorContent` makes. -/
def errorBody (r : HttpResponse) (message : List Byte) : List Byte :=
  ascii "<html><title>Error</title>" ++ ascii "<body bgcolor=\"ffffff\">" ++ decimal r.code ++
    ascii " : " ++ (codeStatus.lookup r.code).getD (ascii "Bad Request") ++ [lf] ++
    ascii "<p>" ++ message ++ ascii "</p>" ++ ascii "<hr><em>TinyWebServer</em></body></html>"

/-- `ErrorContent`. -/
def errorContent (r : HttpResponse) (buff : Buffer) (message : List Byte) : Option Buffer :=
  let body := r.errorBody message
  buff.appendAll [ascii "Content-length: " ++ decimal body.length ++ crlf ++ crlf, body]

/-- `AddContent_`. -/
def addContent (fs : FileSystem) (r : HttpResponse) (buff : Buffer) :
    Option (HttpResponse × Buffer) :=
  if fs.opens r.fileName then
    if r.mmFileStat.size = 0 then do
      let buff ← buff.append (ascii "Content-length: 0" ++ crlf ++ crlf)
      some ({ r with mmFile := none }, buff)
    else
      match fs.mmap r.fileName r.mmFileStat.size with
      | none => do
          let buff ← r.errorContent buff (ascii "File NotFound!")
          some (r, buff)
      | some file => do
          let buff ← buff.append
            (ascii "Content-length: " ++ decimal r.mmFileStat.size ++ crlf ++ crlf)
          some ({ r with mmFile := some file }, buff)
  else do
    let buff ← r.errorContent buff (ascii "File NotFound!")
    some (r, buff)

/-- The code that `MakeResponse` chooses, by the result of `stat` and what `mmFileStat` then
holds. -/
def chooseCode (code : ℤ) (res : Option Stat) (mmFileStat : Stat) : ℤ :=
  if res.isNone ∨ mmFileStat.isDir then 404
  else if ¬ mmFileStat.othersRead then 403
  else if code = -1 then 200
  else code

/-- `MakeResponse`. -/
def makeResponse (fs : FileSystem) (r : HttpResponse) (buff : Buffer) :
    Option (HttpResponse × Buffer) := do
  let res := fs.stat r.fileName
  let mmFileStat := res.getD r.mmFileStat
  let r := errorHtml fs
    { r with mmFileStat := mmFileStat, code := chooseCode r.code res mmFileStat }
  let (r, buff) ← r.addStateLine buff
  let buff ← r.addHeader buff
  r.addContent fs buff

/-! ### What a response leaves behind -/

theorem getD_size_lt {o : Option Stat} (ho : ∀ s, o = some s → s.size < 2 ^ 30) {d : Stat}
    (hd : d.size < 2 ^ 30) :
  (o.getD d).size < 2 ^ 30
  := by
  cases o with
  | none => exact hd
  | some s => exact ho s rfl

/-- A mapping has the length of the file. -/
def Mapped (r : HttpResponse) : Prop := ∀ file, r.mmFile = some file → file.length = r.fileLen

/-- The codes that have a status. -/
def Known (code : ℤ) : Prop := code ∈ codeStatus.map Prod.fst

/-- The bytes that `ErrorContent` appends, for a code. -/
def errorText (code : ℤ) : List Byte :=
  let body := errorBody { new with code := code } (ascii "File NotFound!")
  ascii "Content-length: " ++ decimal body.length ++ crlf ++ crlf ++ body

theorem length_errorText_le {code : ℤ} (h : Known code) :
  (errorText code).length ≤ 500
  := by
  have hall : ∀ code ∈ codeStatus.map Prod.fst, (errorText code).length ≤ 500 := by decide +kernel
  apply hall code h

theorem length_getFileType_le (r : HttpResponse) :
  r.getFileType.length ≤ 100
  := by
  have hall : ∀ p ∈ suffixType, p.2.length ≤ 100 := by decide
  unfold getFileType
  split
  · decide
  · rename_i suffix _
    cases hlookup : suffixType.lookup suffix with
    | none => decide
    | some type =>
        obtain ⟨l₁, l₂, hmem, -⟩ := List.lookup_eq_some_iff.mp hlookup
        apply hall (suffix, type)
        simp [hmem]

/-- The bytes of a first line. -/
def lineText (line : ℤ × List Byte) : List Byte :=
  ascii "HTTP/1.1 " ++ decimal line.1 ++ [space] ++ line.2 ++ crlf

theorem addStateLine_eq (r : HttpResponse) :
  ∃ line ∈ codeStatus, r.addStateLine = fun buff =>
    (buff.append (lineText line)).bind fun buff => some ({ r with code := line.1 }, buff)
  := by
  cases hlookup : codeStatus.lookup r.code with
  | none =>
      refine ⟨(400, ascii "Bad Request"), by simp [codeStatus], ?_⟩
      funext buff
      simp only [addStateLine, hlookup, lineText]
      rfl
  | some status =>
      obtain ⟨l₁, l₂, hlist, -⟩ := List.lookup_eq_some_iff.mp hlookup
      refine ⟨(r.code, status), by simp [hlist], ?_⟩
      funext buff
      simp only [addStateLine, hlookup, lineText]
      rfl

/-- The first line is appended to the buffer, with a code that has a status. -/
theorem addStateLine_spec (r : HttpResponse) :
  ∃ code str, Known code ∧ str ≠ [] ∧ str.length ≤ 500 ∧
    Buffer.Appends r.addStateLine { r with code := code } [str]
  := by
  have hall : ∀ line ∈ codeStatus, (lineText line).length ≤ 500 := by decide
  obtain ⟨line, hline, heq⟩ := r.addStateLine_eq
  have hne : lineText line ≠ [] := by simp [lineText, crlf]
  refine ⟨line.1, lineText line, List.mem_map_of_mem hline, hne, hall line hline, ?_⟩
  rw [heq]
  apply Buffer.appends_append

/-- The header is appended to the buffer. -/
theorem addHeader_spec (r : HttpResponse) :
  ∃ strs, strs.flatten.length ≤ 500 ∧ ∀ buff, r.addHeader buff = buff.appendAll strs
  := by
  have htype := r.length_getFileType_le
  refine ⟨_, ?_, fun _ => rfl⟩
  split
  · simp [ascii, crlf]
    omega
  · simp [ascii, crlf]
    omega

/-- The page for an error is appended to the buffer. -/
theorem errorContent_spec (r : HttpResponse) :
  ∃ strs, strs.flatten = errorText r.code ∧ Buffer.Appends
    (fun buff => (r.errorContent buff (ascii "File NotFound!")).bind fun buff => some (r, buff)) r strs
  := by
  refine ⟨_, ?_, fun _ => rfl⟩
  simp only [List.flatten_cons, List.flatten_nil, List.append_nil]
  rfl

/-- The content is appended to the buffer, and what is mapped is as long as the file. Without a
file to send the content is short. -/
theorem addContent_spec (fs : FileSystem) {r : HttpResponse} (hr : r.mmFile = none)
    (hcode : Known r.code) :
  ∃ r' strs, r'.Mapped ∧ r'.fileLen = r.fileLen ∧
    (r'.mmFile = none ∨ r'.fileLen = 0 → strs.flatten.length ≤ 500) ∧
    Buffer.Appends (r.addContent fs) r' strs
  := by
  have hMapped : r.Mapped := by simp [Mapped, hr]
  obtain ⟨strs, hstrs, herror⟩ := r.errorContent_spec
  have hlen := length_errorText_le hcode
  rw [← hstrs] at hlen
  unfold addContent
  by_cases hopens : fs.opens r.fileName = true
  · simp only [hopens, if_true]
    by_cases hsize : r.mmFileStat.size = 0
    · simp only [hsize, if_true]
      refine ⟨{ r with mmFile := none }, _, by simp [Mapped], rfl, ?_, Buffer.appends_append _ _⟩
      intro _
      decide
    · simp only [hsize, if_false]
      cases hmmap : fs.mmap r.fileName r.mmFileStat.size with
      | none => exact ⟨r, strs, hMapped, rfl, fun _ => hlen, herror⟩
      | some file =>
          refine ⟨{ r with mmFile := some file }, _, ?_, rfl, ?_, Buffer.appends_append _ _⟩
          · rintro file' ⟨⟩
            apply file.2
          · simp [fileLen, hsize]
  · simp only [hopens]
    exact ⟨r, strs, hMapped, rfl, fun _ => hlen, herror⟩

theorem mmFile_errorHtml (fs : FileSystem) (r : HttpResponse) :
  (errorHtml fs r).mmFile = r.mmFile
  := by
  unfold errorHtml
  split <;> rfl

theorem size_errorHtml_lt {fs : FileSystem} (hfs : fs.Small) {r : HttpResponse}
    (hr : r.mmFileStat.size < 2 ^ 30) :
  (errorHtml fs r).mmFileStat.size < 2 ^ 30
  := by
  unfold errorHtml
  split
  · apply getD_size_lt (hfs.restat _) hr
  · exact hr

/-- Making a response appends strings to the buffer that do not depend on it and are not all empty, and
leaves a mapping as long as the file, if any. Without a file to send the strings are short. -/
theorem makeResponse_spec (fs : FileSystem) {r : HttpResponse} (hr : r.mmFile = none) :
  ∃ r' strs, r'.Mapped ∧ (fs.Small → r.fileLen < 2 ^ 30 → r'.fileLen < 2 ^ 30) ∧
    (r'.mmFile = none ∨ r'.fileLen = 0 → strs.flatten.length < 2 ^ 30) ∧ strs.flatten ≠ [] ∧
    Buffer.Appends (makeResponse fs r) r' strs
  := by
  unfold makeResponse
  dsimp only
  generalize hr₁ : errorHtml fs _ = r₁
  have hfile : r₁.mmFile = none := by rw [← hr₁, mmFile_errorHtml, hr]
  obtain ⟨code, str, hcode, hne, hlen₁, hline⟩ := r₁.addStateLine_spec
  obtain ⟨strs, hlen₂, hheader⟩ := addHeader_spec { r₁ with code := code }
  obtain ⟨r₃, strs', hMapped, hfileLen, hlen₃, hcontent⟩ :=
    addContent_spec fs (r := { r₁ with code := code }) hfile hcode
  refine ⟨r₃, [str] ++ (strs ++ strs'), hMapped, ?_, ?_, by simp [hne], ?_⟩
  · intro hsmall hr
    rw [hfileLen, fileLen, ← hr₁]
    apply size_errorHtml_lt hsmall
    apply getD_size_lt (hsmall.stat _) hr
  · intro hnone
    have := hlen₃ hnone
    simp only [List.flatten_append, List.length_append, List.flatten_cons, List.flatten_nil,
      List.length_nil]
    omega
  · refine hline.bind (g := fun r buff => do
      let buff ← r.addHeader buff
      r.addContent fs buff) ?_
    intro buff
    dsimp only
    rw [hheader, Buffer.appendAll_append]
    cases buff.appendAll strs with
    | none => rfl
    | some buff₁ => apply hcontent

end HttpResponse

import TinyWebserver.Base.Buffer
import TinyWebserver.Lib.Regex
import TinyWebserver.Lib.Search
import Mathlib.Logic.Function.Basic

/-!
# HTTP requests

The class `HttpRequest` of `http/httprequest.cpp`: the parser of requests, a state machine that
takes the unread bytes of a buffer line by line. `parse` returns `none` if an assertion fails or
if the form decoder reads or writes outside of the body.

`UserVerify` asks the database, so its answer is an argument `verify` of the parser. The form
decoder keeps the length of the body in an `int`, and an index that leaves the type `int` is an
error too.
-/

open Search

/-- An `unordered_map` from strings to strings. -/
abbrev StringMap := List Byte → Option (List Byte)

namespace StringMap

/-- The map without entries. -/
def empty : StringMap := fun _ => none

/-- The assignment `m[k] = v`. -/
def set (m : StringMap) (k v : List Byte) : StringMap := Function.update m k (some v)

/-- The map after `m[k]` was read: a missing entry is made, with the empty string. -/
def touch (m : StringMap) (k : List Byte) : StringMap := if (m k).isSome then m else m.set k []

/-- Reading an entry keeps the entries there are. -/
theorem touch_of_some {m : StringMap} (k : List Byte) {n v : List Byte} (h : m n = some v) :
  m.touch k n = some v
  := by
  unfold touch
  split
  · apply h
  · rename_i hk
    have hne : n ≠ k := by
      rintro rfl
      simp [h] at hk
    rw [set, Function.update_of_ne hne, h]

/-- The entry that was read, a missing one as the empty string. -/
theorem touch_self (m : StringMap) (k : List Byte) :
  m.touch k k = some ((m k).getD [])
  := by
  cases h : m k with
  | none => simp [touch, set, h]
  | some v => simp [touch, h]

end StringMap

/-- The enumeration `PARSE_STATE`. -/
inductive ParseState where
  | requestLine
  | headers
  | body
  | finish
deriving DecidableEq, Repr

/-- The class `HttpRequest`. -/
structure HttpRequest where
  state : ParseState
  method : List Byte
  path : List Byte
  version : List Byte
  body : List Byte
  header : StringMap
  post : StringMap

namespace HttpRequest

/-- `DEFAULT_HTML`. -/
def defaultHtml : List (List Byte) :=
  [ascii "/index", ascii "/register", ascii "/login", ascii "/welcome", ascii "/video",
    ascii "/picture"]

/-- `DEFAULT_HTML_TAG`. -/
def defaultHtmlTag (path : List Byte) : Option ℕ :=
  if path = ascii "/login.html" then some 1
  else if path = ascii "/register.html" then some 0
  else none

/-- `Init`, on any request. -/
def init : HttpRequest where
  state := .requestLine
  method := []
  path := []
  version := []
  body := []
  header := .empty
  post := .empty

/-- The pattern `^([^ ]*) ([^ ]*) HTTP/([^ ]*)$`. -/
def requestLinePattern : List (Regex.Item Byte) :=
  [.group (· ≠ space), .char space, .group (· ≠ space), .char space] ++
    (ascii "HTTP/").map .char ++ [.group (· ≠ space)]

/-- `ParseRequestLine_`, with `none` if the line does not match. -/
def parseRequestLine (r : HttpRequest) (line : List Byte) : Option HttpRequest :=
  match Regex.fullMatch requestLinePattern line with
  | some [method, path, version] =>
      some { r with method := method, path := path, version := version, state := .headers }
  | _ => none

/-- `ParsePath_`. -/
def parsePath (r : HttpRequest) : HttpRequest :=
  { r with
    path :=
      if r.path = ascii "/" then ascii "/index.html"
      else if r.path ∈ defaultHtml then r.path ++ ascii ".html"
      else r.path }

/-- The pattern `^([^:]*): ?(.*)$`, where `.` is any byte but CR and LF. -/
def headerPattern : List (Regex.Item Byte) :=
  [.group (· ≠ colon), .char colon, .opt space, .group fun c => c ≠ cr ∧ c ≠ lf]

/-- `ParseHeader_`. -/
def parseHeader (r : HttpRequest) (line : List Byte) : HttpRequest :=
  match Regex.fullMatch headerPattern line with
  | some [name, value] => { r with header := r.header.set name value }
  | _ => { r with state := .body }

/-! ### Forms -/

/-- The value of a byte as a `char`, which is signed. -/
def charValue (b : Byte) : ℤ := if b < 128 then b.toNat else b.toNat - 256

/-- The byte an `int` becomes when it is assigned to a `char`. -/
def toByte (z : ℤ) : Byte := UInt8.ofNat (z % 256).toNat

/-- `ConverHex`. -/
def converHex (ch : Byte) : ℤ :=
  if 65 ≤ ch ∧ ch ≤ 70 then charValue ch - 65 + 10
  else if 97 ≤ ch ∧ ch ≤ 102 then charValue ch - 97 + 10
  else charValue ch

/-- Reading `s[k]`, where the terminator can be read too, and no byte after it. -/
def readAt (s : List Byte) (k : ℕ) : Option Byte :=
  if k < s.length then s[k]? else if k = s.length then some 0 else none

/-- Writing `s[k]`. -/
def writeAt (s : List Byte) (k : ℕ) (b : Byte) : Option (List Byte) :=
  if k < s.length then some (s.set k b) else none

/-- `s.substr(pos, len)`, for `pos` in the string. -/
def substr (s : List Byte) (pos len : ℕ) : List Byte := (s.drop pos).take len

/-- The variables of `ParseFromUrlencoded_`. -/
structure FormState where
  body : List Byte
  post : StringMap
  key : List Byte
  i : ℕ
  j : ℕ

/-- The body of the loop of `ParseFromUrlencoded_`, with the step of `i`. -/
def formStep (s : FormState) : Option FormState := do
  let ch ← readAt s.body s.i
  if ch = 61 then
    some { s with key := substr s.body s.j (s.i - s.j), j := s.i + 1, i := s.i + 1 }
  else if ch = 43 then
    let body ← writeAt s.body s.i space
    some { s with body := body, i := s.i + 1 }
  else if ch = 37 then
    let high ← readAt s.body (s.i + 1)
    let low ← readAt s.body (s.i + 2)
    let num := converHex high * 16 + converHex low
    let body ← writeAt s.body (s.i + 2) (toByte (num.tmod 10 + 48))
    let body ← writeAt body (s.i + 1) (toByte (num.tdiv 10 + 48))
    if s.i + 3 < 2 ^ 31 then some { s with body := body, i := s.i + 3 } else none
  else if ch = 38 then
    some { s with
      post := s.post.set s.key (substr s.body s.j (s.i - s.j)), j := s.i + 1, i := s.i + 1 }
  else
    some { s with i := s.i + 1 }

/-- At most `fuel` turns of the loop of `ParseFromUrlencoded_`, up to the index `n`. -/
def formLoop (n : ℕ) : ℕ → FormState → Option FormState
  | 0, s => some s
  | fuel + 1, s => if s.i < n then (formStep s).bind (formLoop n fuel) else some s

/-- `ParseFromUrlencoded_`. No turn of the loop is made if the length is negative as an `int`.
Every turn moves `i`, so `n` turns are enough. -/
def parseFromUrlencoded (r : HttpRequest) : Option HttpRequest :=
  if r.body.length = 0 then some r
  else do
    let n := (toInt r.body.length).toNat
    let s ← formLoop n n ⟨r.body, r.post, [], 0, 0⟩
    if s.j ≤ s.i then
      let post :=
        if (s.post s.key).isNone ∧ s.j < s.i then s.post.set s.key (substr s.body s.j (s.i - s.j))
        else s.post
      some { r with body := s.body, post := post }
    else none

/-- `GetPost`, with `none` if its assertion fails. -/
def getPost (r : HttpRequest) (key : List Byte) : Option (List Byte) :=
  if key = [] then none
  else
    match r.post key with
    | some value => some value
    | none => some []

/-! ### The parser -/

/-- The answers of `UserVerify(name, pwd, isLogin)`. -/
abbrev Verify := List Byte → List Byte → Bool → Bool

/-- `ParsePost_`. -/
def parsePost (verify : Verify) (r : HttpRequest) : Option HttpRequest :=
  if r.method = ascii "POST" then
    let r := { r with header := r.header.touch (ascii "Content-Type") }
    if r.header (ascii "Content-Type") = some (ascii "application/x-www-form-urlencoded") then do
      let r ← parseFromUrlencoded r
      match defaultHtmlTag r.path with
      | some tag =>
          let post := (r.post.touch (ascii "username")).touch (ascii "password")
          let name := (post (ascii "username")).getD []
          let pwd := (post (ascii "password")).getD []
          some { r with
            post := post
            path := if verify name pwd (tag == 1) then ascii "/welcome.html"
              else ascii "/error.html" }
      | none => some r
    else some r
  else some r

/-- `ParseBody_`. -/
def parseBody (verify : Verify) (r : HttpRequest) (line : List Byte) : Option HttpRequest := do
  let r ← parsePost verify { r with body := line }
  some { r with state := .finish }

/-- The `switch` of `parse` on a line, where `readable` bytes are unread, the line included. The
result is `none` for an error of the form decoder, and `some none` if `parse` returns false. -/
def parseLine (verify : Verify) (r : HttpRequest) (line : List Byte) (readable : ℕ) :
    Option (Option HttpRequest) :=
  match r.state with
  | .requestLine => some ((r.parseRequestLine line).map parsePath)
  | .headers =>
      let r := r.parseHeader line
      some (some (if readable ≤ 2 then { r with state := .finish } else r))
  | .body => (parseBody verify r line).map some
  | .finish => some (some r)

/-- At most `fuel` turns of the loop of `parse`, with the value `parse` returns. -/
def parseLoop (verify : Verify) : ℕ → HttpRequest → Buffer → Option (Bool × HttpRequest × Buffer)
  | 0, _, _ => none
  | fuel + 1, r, buff =>
      if buff.readableBytes = 0 ∨ r.state = .finish then some (true, r, buff)
      else do
        let lineend := buff.readPos + search crlf buff.contents
        let line := Memory.slice buff.buffer buff.readPos lineend
        match ← parseLine verify r line buff.readableBytes with
        | none => some (false, r, buff)
        | some r =>
            if lineend = buff.writePos then some (true, r, buff.retrieveAll)
            else
              let buff ← buff.retrieveUntil (lineend + 2)
              parseLoop verify fuel r buff

/-- `parse`. Every turn of the loop but the last one reads bytes, so one turn more than there are
unread bytes is enough. -/
def parse (verify : Verify) (r : HttpRequest) (buff : Buffer) :
    Option (Bool × HttpRequest × Buffer) :=
  if buff.readableBytes = 0 then some (false, r, buff)
  else parseLoop verify (buff.readableBytes + 1) r buff

/-- `IsKeepAlive`. -/
def isKeepAlive (r : HttpRequest) : Bool :=
  r.header (ascii "Connection") = some (ascii "keep-alive") ∧ r.version = ascii "1.1"

end HttpRequest

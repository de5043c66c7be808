import TinyWebserver.Http.Forms
import TinyWebserver.Http.Message

/-!
# Heads of requests

What the bytes are that `parse` accepts, and what `parse` leaves behind for any bytes.
`parse_accepted_head` says that accepted bytes begin with a request line and lines of headers, where
the end of the bytes can stand for the end of a line and any line that is not a header ends the
headers. `parse_defined_iff` says when `parse` ends: only the decoder of forms can fail.
-/

open Search

namespace HttpRequest

variable {verify : Verify} {r r' : HttpRequest} {xs line rest : List Byte} {ok : Bool}

/-! ### Accepted bytes -/

/-- The bytes `xs` begin with a line: it has a CRLF behind it and `rest` behind that, or it is all
there is. -/
inductive BeginsWith (line : List Byte) : List Byte → List Byte → Prop where
  | terminated (h : ¬ crlf <:+: line) (rest : List Byte) :
      BeginsWith line (line ++ crlf ++ rest) rest
  | unterminated (h : ¬ crlf <:+: line) : BeginsWith line line []

/-- The bytes `xs` begin with the lines of the headers `hs`, up to the first line that is not a
header or to the end of the bytes. -/
inductive HeaderSection : List Byte → List (List Byte × List Byte) → Prop where
  | finished : HeaderSection [] []
  | stopped {line xs rest : List Byte} (hline : BeginsWith line xs rest) (h : NoHeader line) :
      HeaderSection xs []
  | header {line xs rest : List Byte} {h : List Byte × List Byte}
      {hs : List (List Byte × List Byte)} (hline : BeginsWith line xs rest)
      (hheader : IsHeader line h) (hrest : HeaderSection rest hs) : HeaderSection xs (h :: hs)

theorem afterLine_of_end (h : search crlf xs = xs.length) :
  afterLine xs = []
  := by
  rw [afterLine, h]
  apply List.drop_eq_nil_of_le
  omega

/-- The bytes up to the first end of line are a line. -/
theorem beginsWith_firstLine (xs : List Byte) :
  BeginsWith (firstLine xs) xs (afterLine xs)
  := by
  have hline : ¬ crlf <:+: firstLine xs := not_infix_take_search (by simp [crlf]) xs
  by_cases hend : search crlf xs = xs.length
  · have hfirst : firstLine xs = xs := by rw [firstLine, hend, List.take_length]
    rw [afterLine_of_end hend]
    rw [hfirst] at hline ⊢
    exact .unterminated hline
  · have hlt : search crlf xs < xs.length := lt_of_le_of_ne (search_le crlf xs) hend
    have hsplit : xs = firstLine xs ++ crlf ++ afterLine xs := search_spec hlt
    have hbegins := BeginsWith.terminated hline (afterLine xs)
    rwa [← hsplit] at hbegins

/-- One turn of the machine: the line is refused, or the machine goes on behind it. -/
theorem parseBytes_step (hne : xs ≠ []) (hstate : r.state ≠ .finish) :
  parseBytes verify r xs =
    (parseLine verify r (firstLine xs) xs.length).bind fun
      | none => some (false, r, xs)
      | some r' => parseBytes verify r' (afterLine xs)
  := by
  rw [parseBytes, dif_neg (by simp [hne, hstate])]
  cases parseLine verify r (firstLine xs) xs.length with
  | none => rfl
  | some res =>
      cases res with
      | none => rfl
      | some r' =>
          simp only [Option.bind_some]
          split
          · rename_i hend
            rw [afterLine_of_end hend, parseBytes_nil]
          · rfl

/-- The decoder of forms changes the body and the entries only. -/
theorem parseFromUrlencoded_header (h : parseFromUrlencoded r = some r') :
  r'.header = r.header
  := by
  rw [parseFromUrlencoded] at h
  split at h
  · cases h
    rfl
  · obtain ⟨s, -, hs⟩ := Option.bind_eq_some_iff.mp h
    split at hs
    · cases hs
      rfl
    · cases hs

/-- A body keeps the headers there are. -/
theorem parseBody_header (h : parseBody verify r line = some r') {n v : List Byte}
    (hn : r.header n = some v) :
  r'.header n = some v
  := by
  obtain ⟨r'', hpost, hr⟩ := Option.bind_eq_some_iff.mp h
  cases hr
  rw [parsePost] at hpost
  split at hpost
  · have htouch : r.header.touch (ascii "Content-Type") n = some v :=
      StringMap.touch_of_some _ hn
    dsimp only at hpost
    split at hpost
    · obtain ⟨r₁, hform, hr₁⟩ := Option.bind_eq_some_iff.mp hpost
      have hheader := parseFromUrlencoded_header hform
      cases htag : defaultHtmlTag r₁.path with
      | none =>
          rw [htag] at hr₁
          cases hr₁
          rw [hheader]
          apply htouch
      | some tag =>
          rw [htag] at hr₁
          cases hr₁
          rw [hheader]
          apply htouch
    · cases hpost
      apply htouch
  · cases hpost
    apply hn

/-- Behind the line that ends the headers there is at most a body. -/
theorem parseBytes_after_headers (hstate : r.state = .body)
    (h : parseBytes verify r xs = some (ok, r', rest)) :
  ok = true ∧ ∀ name value, r.header name = some value → r'.header name = some value
  := by
  by_cases hne : xs = []
  · rw [hne, parseBytes_nil] at h
    cases h
    exact ⟨rfl, fun _ _ hn => hn⟩
  · rw [parseBytes_body hstate hne] at h
    obtain ⟨r'', hbody, hr⟩ := Option.map_eq_some_iff.mp h
    cases hr
    exact ⟨rfl, fun _ _ hn => parseBody_header hbody hn⟩

/-- What the machine does with the bytes behind the request line: it takes headers up to the first
line that is none, and keeps them. -/
theorem parseBytes_headers {n : ℕ} (hn : xs.length = n)
    (h : parseBytes verify r xs = some (ok, r', rest)) (hstate : r.state = .headers) :
  ok = true ∧ ∃ hs, HeaderSection xs hs ∧
    ∀ name value, Message.headerMap hs r.header name = some value → r'.header name = some value
  := by
  induction n using Nat.strong_induction_on generalizing r xs with
  | h n ih =>
      by_cases hne : xs = []
      · rw [hne, parseBytes_nil] at h
        cases h
        exact ⟨rfl, [], hne ▸ .finished, fun _ _ hname => hname⟩
      · rw [parseBytes_step hne (by simp [hstate]), parseLine, hstate] at h
        simp only [Option.bind_some] at h
        rcases parseHeader_spec r (firstLine xs) with ⟨k, hk, hparse⟩ | ⟨hno, hparse⟩
        · rw [hparse] at h
          have hsection : ∀ {hs}, HeaderSection (afterLine xs) hs → HeaderSection xs (k :: hs) :=
            fun hrest => .header (beginsWith_firstLine xs) hk hrest
          split at h
          · rename_i hlen
            have hafter : afterLine xs = [] := List.drop_eq_nil_of_le (by omega)
            rw [parseBytes_finish rfl] at h
            cases h
            exact ⟨rfl, [k], hsection (hafter ▸ .finished), fun _ _ hname => hname⟩
          · obtain ⟨hok, hs, hrest, hstored⟩ :=
              ih _ (hn ▸ length_afterLine_lt hne) rfl h hstate
            exact ⟨hok, k :: hs, hsection hrest, hstored⟩
        · rw [hparse] at h
          have hsection : HeaderSection xs [] := .stopped (beginsWith_firstLine xs) hno
          split at h
          · rw [parseBytes_finish rfl] at h
            cases h
            exact ⟨rfl, [], hsection, fun _ _ hname => hname⟩
          · obtain ⟨hok, hstored⟩ := parseBytes_after_headers rfl h
            exact ⟨hok, [], hsection, hstored⟩

/-- A request line: a method, a target and a version, with a space between them. -/
def IsRequestLine (line : List Byte) : Prop :=
  ∃ method target version, space ∉ method ∧ space ∉ target ∧ space ∉ version ∧
    line = method ++ space :: (target ++ space :: (ascii "HTTP/" ++ version))

/-- What the machine does with the bytes of a fresh request. -/
theorem parseBytes_init (hne : xs ≠ []) (h : parseBytes verify .init xs = some (true, r', rest)) :
  ∃ line rest' hs, IsRequestLine line ∧ BeginsWith line xs rest' ∧ HeaderSection rest' hs ∧
    ∀ name value, Message.headerMap hs .empty name = some value → r'.header name = some value
  := by
  rw [parseBytes_step hne (by simp [init])] at h
  simp only [parseLine, init, Option.bind_some] at h
  cases hline : parseRequestLine .init (firstLine xs) with
  | none =>
      simp only [init] at hline
      simp [hline] at h
  | some r₁ =>
      obtain ⟨m, p, v, heq, hm, hp, hv, rfl⟩ := parseRequestLine_cases hline
      simp only [init] at hline
      simp only [hline, Option.map_some] at h
      obtain ⟨-, hs, hsection, hstored⟩ := parseBytes_headers rfl h rfl
      exact ⟨_, _, hs, ⟨m, p, v, hm, hp, hv, heq⟩, beginsWith_firstLine xs, hsection, hstored⟩

/-- Bytes that `parse` accepts begin with a request line and the lines of the headers it stores: the
last of these lines can end at the end of the bytes, and any line that is not a header ends them. -/
theorem parse_accepted_head {b b' : Buffer} (hinv : b.Inv)
    (h : parse verify .init b = some (true, r', b')) :
  ∃ line rest hs, IsRequestLine line ∧ BeginsWith line b.contents rest ∧ HeaderSection rest hs ∧
    ∀ name value, Message.headerMap hs .empty name = some value → r'.header name = some value
  := by
  have hne : b.contents ≠ [] := by
    intro hempty
    have hlen := hinv.length_contents
    rw [hempty, List.length_nil] at hlen
    rw [parse, if_pos hlen.symm] at h
    cases h
  have heq := (parse_eq verify .init hinv hne).1
  rw [h] at heq
  apply parseBytes_init hne heq.symm

/-- The bytes `GET / HTTP/1.1`, without an end of line. -/
def truncatedHead : Buffer := ⟨ascii "GET / HTTP/1.1", 0, 14⟩

/-- A request line without its end is accepted. -/
theorem truncatedHead_accepted :
  (∃ r' b', parse (fun _ _ _ => false) .init truncatedHead = some (true, r', b')) ∧
    ¬ ∃ line lines rest, IsRequestLine line ∧ (∀ l ∈ lines, colon ∈ l) ∧
      truncatedHead.contents = Message.joinLines (line :: lines) ++ crlf ++ rest
  := by
  constructor
  · have hok : (parse (fun _ _ _ => false) .init truncatedHead).map Prod.fst = some true := by
      decide
    obtain ⟨⟨ok, r', b'⟩, hparse, rfl⟩ := Option.map_eq_some_iff.mp hok
    exact ⟨r', b', hparse⟩
  · rintro ⟨line, lines, rest, -, -, heq⟩
    have hmem : cr ∈ truncatedHead.contents := by
      rw [heq]
      simp [crlf]
    revert hmem
    decide

/-- The bytes of a request with one header. -/
def completeHead : Buffer :=
  ⟨ascii "GET / HTTP/1.1" ++ crlf ++ ascii "Host: a" ++ crlf ++ crlf, 0, 27⟩

/-- A request with one header begins with a request line and a header. -/
theorem completeHead_accepted :
  ∃ r' b', parse (fun _ _ _ => false) .init completeHead = some (true, r', b') ∧
    ∃ line rest hs, IsRequestLine line ∧ BeginsWith line completeHead.contents rest ∧
      HeaderSection rest hs ∧
      ∀ name value, Message.headerMap hs .empty name = some value → r'.header name = some value
  := by
  have hok : (parse (fun _ _ _ => false) .init completeHead).map Prod.fst = some true := by
    decide
  obtain ⟨⟨ok, r', b'⟩, hparse, rfl⟩ := Option.map_eq_some_iff.mp hok
  exact ⟨r', b', hparse, parse_accepted_head ⟨by decide, by decide, by decide⟩ hparse⟩

/-! ### What `parse` leaves behind -/

/-- The request and the line with which `ParseBody_` is called for the unread bytes `xs`, if it
is. -/
def bodyLine (r : HttpRequest) (xs : List Byte) : Option (HttpRequest × List Byte) :=
  if _h : xs = [] then none
  else
    match r.state with
    | .requestLine =>
        match r.parseRequestLine (firstLine xs) with
        | some r' => bodyLine r'.parsePath (afterLine xs)
        | none => none
    | .headers =>
        if xs.length ≤ 2 then none else bodyLine (r.parseHeader (firstLine xs)) (afterLine xs)
    | .body => some (r, firstLine xs)
    | .finish => none
termination_by xs.length
decreasing_by
  all_goals apply length_afterLine_lt _h

/-- The body that `ParseBody_` would give to the decoder of forms is one that this can read. -/
def FormFits (r : HttpRequest) (xs : List Byte) : Prop :=
  ∀ r' line, bodyLine r xs = some (r', line) → r'.method = ascii "POST" →
    r'.header (ascii "Content-Type") = some (ascii "application/x-www-form-urlencoded") →
    EscapesFit (toInt line.length).toNat 0 line

/-- `ParsePost_` fails only where the decoder of forms does. -/
theorem parsePost_eq_none_iff :
  parsePost verify r = none ↔
    r.method = ascii "POST" ∧
      r.header (ascii "Content-Type") = some (ascii "application/x-www-form-urlencoded") ∧
      parseFromUrlencoded { r with header := r.header.touch (ascii "Content-Type") } = none
  := by
  have htype : r.header.touch (ascii "Content-Type") (ascii "Content-Type")
        = some (ascii "application/x-www-form-urlencoded") ↔
      r.header (ascii "Content-Type") = some (ascii "application/x-www-form-urlencoded") := by
    rw [StringMap.touch_self]
    cases r.header (ascii "Content-Type") with
    | none => exact ⟨fun h => absurd h (by decide), nofun⟩
    | some v => rfl
  rw [parsePost]
  split
  · rename_i hpost
    dsimp only
    split
    · rename_i hform
      rw [and_iff_right hpost, and_iff_right (htype.mp hform)]
      cases parseFromUrlencoded { r with header := r.header.touch (ascii "Content-Type") } with
      | none => simp
      | some r₁ =>
          simp only [Option.bind_eq_bind, Option.bind_some]
          cases defaultHtmlTag r₁.path with
          | none => simp
          | some tag => simp
    · rename_i hform
      rw [htype] at hform
      simp [hform]
  · rename_i hpost
    simp [hpost]

/-- `ParseBody_` has a result unless it is for a form that the decoder cannot read. -/
theorem parseBody_eq_none_iff :
  parseBody verify r line = none ↔
    r.method = ascii "POST" ∧
      r.header (ascii "Content-Type") = some (ascii "application/x-www-form-urlencoded") ∧
      ¬ EscapesFit (toInt line.length).toNat 0 line
  := by
  have hfit : ∀ q : HttpRequest, parseFromUrlencoded q = none ↔
      ¬ EscapesFit (toInt q.body.length).toNat 0 q.body := by
    intro q
    constructor
    · intro hnone h
      obtain ⟨q', hq', -⟩ := parseFromUrlencoded_of_escapesFit h
      rw [hnone] at hq'
      cases hq'
    · apply parseFromUrlencoded_of_not_escapesFit
  rw [parseBody, Option.bind_eq_bind, Option.bind_eq_none_iff]
  have hsome : (∀ a, parsePost verify { r with body := line } = some a →
      some { a with state := .finish } = none) ↔
      parsePost verify { r with body := line } = none := by
    cases parsePost verify { r with body := line } with
    | none => simp
    | some a => simp
  rw [hsome, parsePost_eq_none_iff, hfit]

/-- The machine has a result unless it comes to a form that the decoder cannot read. -/
theorem parseBytes_eq_none_iff {n : ℕ} (hn : xs.length = n) :
  parseBytes verify r xs = none ↔ ¬ FormFits r xs
  := by
  induction n using Nat.strong_induction_on generalizing r xs with
  | h n ih =>
      by_cases hne : xs = []
      · simp [FormFits, bodyLine, hne]
      · have hlt : (afterLine xs).length < n := hn ▸ length_afterLine_lt hne
        rw [FormFits, bodyLine, dif_neg hne]
        cases hstate : r.state with
        | requestLine =>
            rw [parseBytes_step hne (by simp [hstate])]
            simp only [parseLine, hstate, Option.bind_some]
            cases r.parseRequestLine (firstLine xs) with
            | none => simp
            | some r₁ => apply ih _ hlt rfl
        | headers =>
            rw [parseBytes_step hne (by simp [hstate])]
            simp only [parseLine, hstate, Option.bind_some]
            split
            · simp [parseBytes_finish]
            · apply ih _ hlt rfl
        | body =>
            rw [parseBytes_body hstate hne, Option.map_eq_none_iff, parseBody_eq_none_iff]
            constructor
            · rintro ⟨hpost, hform, hfit⟩ h
              apply hfit (h r _ rfl hpost hform)
            · intro h
              simp only [not_forall] at h
              obtain ⟨r₁, line, heq, hpost, hform, hfit⟩ := h
              cases heq
              exact ⟨hpost, hform, hfit⟩
        | finish => simp [parseBytes_finish hstate]

theorem afterLine_suffix (xs : List Byte) :
  afterLine xs <:+ xs
  := by
  apply List.drop_suffix

/-- The machine leaves a part at the end of the bytes unread. -/
theorem parseBytes_suffix {n : ℕ} (hn : xs.length = n)
    (h : parseBytes verify r xs = some (ok, r', rest)) :
  rest <:+ xs
  := by
  induction n using Nat.strong_induction_on generalizing r xs with
  | h n ih =>
      by_cases hdone : xs = [] ∨ r.state = .finish
      · rw [parseBytes, dif_pos hdone] at h
        cases h
        apply List.suffix_refl
      · rw [not_or] at hdone
        rw [parseBytes_step hdone.1 hdone.2] at h
        obtain ⟨res, -, hres⟩ := Option.bind_eq_some_iff.mp h
        cases res with
        | none =>
            cases hres
            apply List.suffix_refl
        | some r₁ =>
            have hlt : (afterLine xs).length < n := hn ▸ length_afterLine_lt hdone.1
            apply (ih _ hlt rfl hres).trans (afterLine_suffix xs)

/-- A line takes the machine out of the state for the request line. -/
theorem parseLine_state {n : ℕ} (h : parseLine verify r line n = some (some r')) :
  r'.state ≠ .requestLine
  := by
  rw [parseLine] at h
  cases hstate : r.state with
  | requestLine =>
      rw [hstate] at h
      obtain ⟨r₁, hr₁, rfl⟩ := Option.map_eq_some_iff.mp (Option.some.inj h)
      obtain ⟨m, p, v, -, -, -, -, rfl⟩ := parseRequestLine_cases hr₁
      simp [parsePath]
  | headers =>
      rw [hstate] at h
      obtain rfl := Option.some.inj (Option.some.inj h)
      rcases parseHeader_spec r line with ⟨k, -, heq⟩ | ⟨-, heq⟩
      · rw [heq]
        split
        · simp
        · simp [hstate]
      · rw [heq]
        split
        · simp
        · simp
  | body =>
      rw [hstate] at h
      obtain ⟨r₁, hr₁, heq⟩ := Option.map_eq_some_iff.mp h
      cases heq
      rw [parseBody_state hr₁]
      simp
  | finish =>
      rw [hstate] at h
      cases h
      simp [hstate]

/-- The loop of `parse` returns false only in its first turn, for the request line. -/
theorem parseLoop_false {fuel : ℕ} {b b' : Buffer}
    (h : parseLoop verify fuel r b = some (false, r', b')) :
  r.state = .requestLine ∧ r' = r ∧ b' = b
  := by
  induction fuel generalizing r b with
  | zero => cases h
  | succ fuel ih =>
      rw [parseLoop] at h
      split at h
      · cases h
      · obtain ⟨res, hline, hres⟩ := Option.bind_eq_some_iff.mp h
        cases res with
        | none =>
            cases hres
            refine ⟨?_, rfl, rfl⟩
            rw [parseLine] at hline
            split at hline
            · assumption
            · cases hline
            · obtain ⟨_, -, heq⟩ := Option.map_eq_some_iff.mp hline
              cases heq
            · cases hline
        | some r₁ =>
            dsimp only at hres
            split at hres
            · cases hres
            · obtain ⟨b₁, -, hrest⟩ := Option.bind_eq_some_iff.mp hres
              exact absurd (ih hrest).1 (parseLine_state hline)

/-- The buffer after `parse`, and the request if `parse` returns false. -/
structure Leaves (r : HttpRequest) (b : Buffer) (ok : Bool) (r' : HttpRequest) (b' : Buffer) :
    Prop where
  readPos_le : b'.readPos ≤ b'.writePos
  writePos_le : b'.writePos ≤ b'.buffer.length
  suffix : b'.contents <:+ b.contents
  unchanged : ok = false → b' = b ∧ r'.method = r.method ∧ r'.path = r.path ∧
    r'.version = r.version ∧ r'.header = r.header ∧ r'.body = r.body

theorem parse_of_empty (verify : Verify) (r : HttpRequest) {b : Buffer} (h : b.readableBytes = 0) :
  parse verify r b = some (false, r, b)
  := by
  rw [parse, if_pos h]

/-- What `parse` leaves behind if it has a result. -/
theorem parse_leaves {b b' : Buffer} (hinv : b.Inv) (h : parse verify r b = some (ok, r', b')) :
  Leaves r b ok r' b'
  := by
  by_cases hempty : b.readableBytes = 0
  · rw [parse_of_empty verify r hempty] at h
    cases h
    exact ⟨hinv.readPos_le, hinv.writePos_le, List.suffix_refl _, fun _ => ⟨rfl, rfl, rfl, rfl,
      rfl, rfl⟩⟩
  · have hne : b.contents ≠ [] := by
      rw [← List.length_pos_iff, hinv.length_contents]
      omega
    obtain ⟨heq, hkeeps⟩ := parse_eq verify r hinv hne
    have hinv' := hkeeps _ h
    rw [h] at heq
    refine ⟨hinv'.readPos_le, hinv'.writePos_le, parseBytes_suffix rfl heq.symm, ?_⟩
    rintro rfl
    rw [parse, if_neg hempty] at h
    obtain ⟨-, rfl, rfl⟩ := parseLoop_false h
    exact ⟨rfl, rfl, rfl, rfl, rfl, rfl⟩

/-- `parse` ends, with the buffer in order and a part of the bytes at their end unread, and with
nothing changed if it returns false, exactly if it does not come to a form that the decoder cannot
read. -/
theorem parse_defined_iff (verify : Verify) (r : HttpRequest) {b : Buffer}
    (hread : b.readPos ≤ b.writePos) (hwrite : b.writePos ≤ b.buffer.length) :
  (∃ ok r' b', parse verify r b = some (ok, r', b') ∧ Leaves r b ok r' b') ↔
    FormFits r b.contents
  := by
  by_cases hsize : b.buffer.length = 0
  · have hempty : b.readableBytes = 0 := by
      rw [Buffer.readableBytes]
      omega
    have hcontents : b.contents = [] := by
      rw [Buffer.contents, Memory.slice, List.eq_nil_of_length_eq_zero hsize]
      simp
    have hfits : FormFits r b.contents := by simp [FormFits, bodyLine, hcontents]
    exact ⟨fun _ => hfits, fun _ => ⟨false, r, b, parse_of_empty verify r hempty,
      ⟨hread, hwrite, List.suffix_refl _, fun _ => ⟨rfl, rfl, rfl, rfl, rfl, rfl⟩⟩⟩⟩
  · have hinv : b.Inv := ⟨hread, hwrite, by omega⟩
    have hnone : parse verify r b = none ↔ ¬ FormFits r b.contents := by
      by_cases hne : b.contents = []
      · have hempty : b.readableBytes = 0 := by
          rw [← hinv.length_contents, hne, List.length_nil]
        simp [parse_of_empty verify r hempty, FormFits, bodyLine, hne]
      · rw [← parseBytes_eq_none_iff rfl, ← (parse_eq verify r hinv hne).1, Option.map_eq_none_iff]
    constructor
    · rintro ⟨ok, r', b', hparse, -⟩
      by_contra hfit
      rw [hnone.mpr hfit] at hparse
      cases hparse
    · intro hfit
      cases hparse : parse verify r b with
      | none => exact absurd hfit (hnone.mp hparse)
      | some p => exact ⟨p.1, p.2.1, p.2.2, rfl, parse_leaves hinv hparse⟩

/-- The bytes of a form whose body is `%`. -/
def brokenForm : Buffer :=
  let bytes := ascii "POST / HTTP/1.1" ++ crlf ++
    ascii "Content-Type: application/x-www-form-urlencoded" ++ crlf ++ crlf ++ ascii "%"
  ⟨bytes, 0, bytes.length⟩

/-- `parse` has no result for a form whose body is `%`. -/
theorem brokenForm_undefined :
  brokenForm.readPos ≤ brokenForm.writePos ∧ brokenForm.writePos ≤ brokenForm.buffer.length ∧
    ¬ ∃ ok r' b', parse (fun _ _ _ => false) .init brokenForm = some (ok, r', b') ∧
      Leaves .init brokenForm ok r' b'
  := by
  have hnone : parse (fun _ _ _ => false) .init brokenForm = none := by decide
  refine ⟨by decide, by decide, ?_⟩
  rw [hnone]
  rintro ⟨ok, r', b', hparse, -⟩
  cases hparse

/-- The bytes of a form whose body has an escape at its end. -/
def escapedForm : Buffer :=
  let bytes := ascii "POST / HTTP/1.1" ++ crlf ++
    ascii "Content-Type: application/x-www-form-urlencoded" ++ crlf ++ crlf ++ ascii "a=%41"
  ⟨bytes, 0, bytes.length⟩

/-- `parse` comes to this body, and ends. -/
theorem escapedForm_defined :
  (bodyLine .init escapedForm.contents).map (fun p =>
      (p.1.method, p.1.header (ascii "Content-Type"), p.2))
      = some (ascii "POST", some (ascii "application/x-www-form-urlencoded"), ascii "a=%41") ∧
    ∃ ok r' b', parse (fun _ _ _ => false) .init escapedForm = some (ok, r', b') ∧
      Leaves .init escapedForm ok r' b'
  := by
  have hbody : (bodyLine .init escapedForm.contents).map (fun p =>
      (p.1.method, p.1.header (ascii "Content-Type"), p.2))
      = some (ascii "POST", some (ascii "application/x-www-form-urlencoded"), ascii "a=%41") := by
    decide +kernel
  refine ⟨hbody, ?_⟩
  apply (parse_defined_iff (fun _ _ _ => false) .init (by decide) (by decide)).mpr
  intro r' line hline _ _
  rw [hline, Option.map_some] at hbody
  obtain ⟨-, -, rfl⟩ : _ ∧ _ ∧ line = ascii "a=%41" := by simpa using hbody
  have hn : (toInt (ascii "a=%41").length).toNat = 5 := by decide
  have hbytes : ascii "a=%41" = [97, 61, 37, 52, 49] := by decide
  rw [hn, hbytes]
  simp [EscapesFit]

end HttpRequest

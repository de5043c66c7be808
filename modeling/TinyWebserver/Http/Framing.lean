import TinyWebserver.Http.Message

/-!
# Where a request ends

The parser finds the end of the headers and of the body by the ends of lines and by the end of the
unread bytes, and asks no header for the length of the body. So it reads back a message that is all
of the unread bytes and whose body is one line, `parse_serialize`. Of other bytes behind the head
it takes the first line for the body, `parse_framing`.
-/

open Search

namespace Message

open HttpRequest

variable {verify : Verify} {q : Message} {b : Buffer}

/-- The fields of a finished request are those of the message, with the body `body`. -/
structure Carries (q : Message) (body : List Byte) (r : HttpRequest) : Prop where
  state : r.state = .finish
  method : r.method = q.method
  path : r.path = (parsePath { init with path := q.target }).path
  version : r.version = q.version
  header : ∀ k ∈ q.headers, r.header k.1 = some k.2
  body : r.body = body

@[simp]
theorem firstLine_nil :
  firstLine [] = []
  := rfl

@[simp]
theorem afterLine_nil :
  afterLine [] = []
  := rfl

/-- A message that is no form is read back, with the first line behind its head as the body. -/
theorem WellFormed.received (h : q.WellFormed) (hform : ¬ q.IsForm) (verify : Verify)
    (rest : List Byte) :
  ∃ r, q.received verify rest = some (true, r, afterLine rest) ∧ q.Carries (firstLine rest) r
  := by
  unfold Message.received
  split
  · rename_i hrest
    subst hrest
    exact ⟨_, rfl, rfl, rfl, rfl, rfl, fun k hk => headerMap_of_mem h.names hk .empty, rfl⟩
  · obtain ⟨m, hbody, hm⟩ := h.parseBody hform verify (firstLine rest)
    rw [hbody]
    exact ⟨_, rfl, rfl, rfl, rfl, rfl, hm, rfl⟩

theorem serialize_ne_nil (q : Message) :
  q.serialize ≠ []
  := by
  simp [serialize, head, crlf]

/-- `parse` on a message and bytes behind it. -/
theorem WellFormed.parse (h : q.WellFormed) (hb : b.Inv) {s : List Byte}
    (hcontents : b.contents = q.serialize ++ s) :
  (parse verify init b).map outcome = q.received verify (q.body ++ s)
  := by
  have hne : b.contents ≠ [] := by simp [hcontents, serialize_ne_nil]
  rw [(parse_eq verify init hb hne).1, hcontents, serialize, List.append_assoc, h.parseBytes_head]

/-- `parse` on a message that is no form, and bytes behind it. -/
theorem WellFormed.parse_of_not_form (h : q.WellFormed) (hform : ¬ q.IsForm) (verify : Verify)
    (hb : b.Inv) {s : List Byte} (hcontents : b.contents = q.serialize ++ s) :
  ∃ r b', HttpRequest.parse verify init b = some (true, r, b') ∧ b'.Inv ∧
    q.Carries (firstLine (q.body ++ s)) r ∧ b'.contents = afterLine (q.body ++ s)
  := by
  have hne : b.contents ≠ [] := by simp [hcontents, serialize_ne_nil]
  obtain ⟨r, hr, hcarries⟩ := h.received hform verify (q.body ++ s)
  rw [← h.parseBytes_head verify, ← List.append_assoc, ← serialize, ← hcontents] at hr
  obtain ⟨b', hparse, hrest, hInv⟩ := parse_of_parseBytes hb hne hr
  exact ⟨r, b', hparse, hInv, hcarries, hrest⟩

/-! ### The end of the body -/

theorem firstLine_of_oneLine {xs : List Byte} (h : ¬ crlf <:+: xs) :
  firstLine xs = xs
  := by
  rw [firstLine, search_of_not_infix h, List.take_length]

theorem afterLine_of_oneLine {xs : List Byte} (h : ¬ crlf <:+: xs) :
  afterLine xs = []
  := by
  rw [afterLine, search_of_not_infix h, List.drop_eq_nil_of_le (by omega)]

/-- Bytes with an end of line are the first line, its end and what is behind it. -/
theorem length_of_infix {xs : List Byte} (h : crlf <:+: xs) :
  (firstLine xs).length + 2 + (afterLine xs).length = xs.length
  := by
  have hne : search crlf xs ≠ xs.length := by
    intro heq
    have hnot := not_infix_take_search (by simp [crlf] : crlf ≠ []) xs
    rw [heq, List.take_length] at hnot
    apply hnot h
  have hle := search_crlf_add_two_le hne
  simp only [firstLine, afterLine, List.length_take, List.length_drop]
  omega

/-- The first line behind the head is the body of the message, and what follows the message stays
unread, only if nothing follows and the body is one line. -/
theorem split_line_iff (body s : List Byte) :
  firstLine (body ++ s) = body ∧ afterLine (body ++ s) = s ↔ s = [] ∧ ¬ crlf <:+: body
  := by
  constructor
  · rintro ⟨hfirst, hafter⟩
    by_cases hend : crlf <:+: body ++ s
    · have hlen := length_of_infix hend
      rw [hfirst, hafter, List.length_append] at hlen
      omega
    · rw [afterLine_of_oneLine hend] at hafter
      subst hafter
      simpa using hend
  · rintro ⟨rfl, hbody⟩
    rw [List.append_nil]
    exact ⟨firstLine_of_oneLine hbody, afterLine_of_oneLine hbody⟩

/-- `parse` reads back a message that is all of the unread bytes, if its body is one line. -/
theorem parse_serialize (h : q.WellFormed) (hbody : ¬ crlf <:+: q.body) (hform : ¬ q.IsForm)
    (hb : b.Inv) (hcontents : b.contents = q.serialize) :
  ∃ r b', HttpRequest.parse verify init b = some (true, r, b') ∧ q.Carries q.body r ∧
    b'.readableBytes = 0
  := by
  rw [← List.append_nil q.serialize] at hcontents
  obtain ⟨r, b', hparse, hInv, hcarries, hrest⟩ :=
    h.parse_of_not_form hform verify hb hcontents
  rw [List.append_nil] at hcarries hrest
  rw [firstLine_of_oneLine hbody] at hcarries
  rw [afterLine_of_oneLine hbody] at hrest
  refine ⟨r, b', hparse, hcarries, ?_⟩
  rw [← hInv.length_contents, hrest, List.length_nil]

/-- A buffer whose storage is filled with unread bytes. -/
def holding (xs : List Byte) : Buffer := ⟨xs, 0, xs.length⟩

theorem holding_inv {xs : List Byte} (h : xs ≠ []) :
  (holding xs).Inv
  := ⟨Nat.zero_le _, le_refl _, List.length_pos_iff.mpr h⟩

@[simp]
theorem contents_holding (xs : List Byte) :
  (holding xs).contents = xs
  := by
  simp [holding, Buffer.contents, Memory.slice]

/-- A request with a body of one byte, an empty value and a value with a colon. -/
def sample : Message where
  method := ascii "PUT"
  target := ascii "/login"
  version := ascii "1.1"
  headers := [(ascii "Host", ascii " localhost:1316"), (ascii "Accept", [])]
  body := ascii "x"

theorem parse_serialize_sample :
  ∃ r b', HttpRequest.parse (fun _ _ _ => true) init (holding sample.serialize)
      = some (true, r, b') ∧ sample.Carries sample.body r ∧ b'.readableBytes = 0
  := parse_serialize (by decide) (by decide) (by decide) (holding_inv (serialize_ne_nil _))
    (contents_holding _)

/-! ### What follows a message -/

/-- `parse` takes the first line behind the head for the body and leaves what is behind that line,
whatever the headers say of the length of the body. So a message that is no form is framed as its
sender means it only if nothing follows it and its body is one line. -/
theorem parse_framing (verify : Verify) (h : q.WellFormed) (hb : b.Inv) {s : List Byte}
    (hcontents : b.contents = q.serialize ++ s) :
  (HttpRequest.parse verify init b).map outcome = q.received verify (q.body ++ s) ∧
    (¬ q.IsForm →
      ∃ r b', HttpRequest.parse verify init b = some (true, r, b') ∧
        q.Carries (firstLine (q.body ++ s)) r ∧ b'.contents = afterLine (q.body ++ s) ∧
        (r.body = q.body ∧ b'.contents = s ↔ s = [] ∧ ¬ crlf <:+: q.body))
  := by
  refine ⟨h.parse hb hcontents, ?_⟩
  intro hform
  obtain ⟨r, b', hparse, -, hcarries, hrest⟩ :=
    h.parse_of_not_form hform verify hb hcontents
  refine ⟨r, b', hparse, hcarries, hrest, ?_⟩
  rw [hcarries.body, hrest]
  apply split_line_iff

/-- The number that a value made of decimal digits stands for. -/
def decimalValue (v : List Byte) : Option ℕ :=
  if v ≠ [] ∧ v.all (fun c => 48 ≤ c ∧ c ≤ 57) then some (v.foldl (fun n c => 10 * n + (c.toNat - 48)) 0)
  else none

/-- The length of the body by the header for it, none without that header. -/
def contentLength (q : Message) : Option ℕ :=
  match q.headers.lookup (ascii "Content-Length") with
  | some v => decimalValue v
  | none => some 0

/-- A request whose body has an end of line inside. -/
def twoLines : Message where
  method := ascii "PUT"
  target := ascii "/notes"
  version := ascii "1.1"
  headers := [(ascii "Content-Length", ascii "4")]
  body := ascii "a" ++ crlf ++ ascii "b"

/-- A request without a body. -/
def next : Message where
  method := ascii "GET"
  target := ascii "/"
  version := ascii "1.1"
  headers := []
  body := []

theorem parse_framing_twoLines :
  ∃ r b', HttpRequest.parse (fun _ _ _ => true) init (holding (twoLines.serialize ++ next.serialize))
      = some (true, r, b') ∧
    r.body = ascii "a" ∧ b'.contents = ascii "b" ++ next.serialize
  := by
  have hne : twoLines.serialize ++ next.serialize ≠ [] := by simp [serialize_ne_nil]
  obtain ⟨-, hframe⟩ := parse_framing (fun _ _ _ => true) (by decide : twoLines.WellFormed)
    (holding_inv hne) (contents_holding _)
  obtain ⟨r, b', hparse, hcarries, hrest, -⟩ := hframe (by decide)
  have hfirst : firstLine (twoLines.body ++ next.serialize) = ascii "a" := by decide
  have hafter : afterLine (twoLines.body ++ next.serialize) = ascii "b" ++ next.serialize := by
    decide
  exact ⟨r, b', hparse, hcarries.body.trans hfirst, hrest.trans hafter⟩

/-- A body of the length that its header gives, with an end of line inside and a message behind
it, is neither read back nor is what follows it left unread. -/
theorem parse_not_framed :
  twoLines.WellFormed ∧ twoLines.contentLength = some twoLines.body.length ∧
    ¬ ∃ r b', HttpRequest.parse (fun _ _ _ => true) init
        (holding (twoLines.serialize ++ next.serialize)) = some (true, r, b') ∧
      r.body = twoLines.body ∧ b'.contents = next.serialize
  := by
  refine ⟨by decide, by decide, ?_⟩
  rintro ⟨r, b', hparse, hbody, -⟩
  have hcut : (HttpRequest.parse (fun _ _ _ => true) init
      (holding (twoLines.serialize ++ next.serialize))).map (·.2.1.body) = some (ascii "a") := by
    decide
  rw [hparse, Option.map_some, hbody] at hcut
  exact absurd hcut (by decide)

end Message

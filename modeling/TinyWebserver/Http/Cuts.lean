import TinyWebserver.Http.Framing

/-!
# Requests that come in parts

The parser keeps its state from one call to the next, but it takes the end of the unread bytes for the
end of a line, and an empty line at the end of them for the end of the request. `parse_inParts` says
for which cuts a message that comes in two parts is read as if it came at once: behind the end of the
request line or of the line of a header, and in the body behind its first line. Where the body has an
empty first line, as a request without a body does, a few cuts around the empty line do no harm
either, and for requests that are not posted there are no others.
-/

open Search

namespace HttpRequest

variable {verify : Verify}

/-- The parts come one after the other, with a call of `parse` behind each, as long as none returns
false. -/
def parseParts (verify : Verify) (r : HttpRequest) (buff : Buffer) :
    List (List Byte) → Option (Bool × HttpRequest × Buffer)
  | [] => some (true, r, buff)
  | xs :: parts => do
      let buff ← buff.append xs
      let (ok, r, buff) ← parse verify r buff
      if ok then parseParts verify r buff parts else some (false, r, buff)

/-- The same with the unread bytes in place of the buffer. -/
def readParts (verify : Verify) (r : HttpRequest) (unread : List Byte) :
    List (List Byte) → Option (Bool × HttpRequest × List Byte)
  | [] => some (true, r, unread)
  | xs :: parts => do
      let (ok, r, unread) ← parseBytes verify r (unread ++ xs)
      if ok then readParts verify r unread parts else some (false, r, unread)

theorem parseParts_eq {r : HttpRequest} {b : Buffer} (h : b.Inv) {parts : List (List Byte)}
    (hparts : ∀ xs ∈ parts, xs ≠ []) :
  (parseParts verify r b parts).map outcome = readParts verify r b.contents parts
  := by
  induction parts generalizing r b with
  | nil => rfl
  | cons xs parts ih =>
      obtain ⟨hxs, hparts⟩ := List.forall_mem_cons.mp hparts
      obtain ⟨b₁, happend, hb₁, hcontents⟩ := h.append xs
      have hne : b₁.contents ≠ [] := by simp [hcontents, hxs]
      obtain ⟨heq, hInv⟩ := parse_eq verify r hb₁ hne
      rw [parseParts, readParts, happend, ← hcontents, ← heq]
      simp only [Option.bind_eq_bind, Option.bind_some]
      cases hparse : parse verify r b₁ with
      | none => rfl
      | some p =>
          obtain ⟨ok, r', b₂⟩ := p
          cases ok with
          | false => rfl
          | true => apply ih (hInv _ hparse) hparts

@[simp]
theorem readParts_one (r : HttpRequest) (unread xs : List Byte) :
  readParts verify r unread [xs] = parseBytes verify r (unread ++ xs)
  := by
  simp only [readParts]
  cases parseBytes verify r (unread ++ xs) with
  | none => rfl
  | some p =>
      obtain ⟨ok, r', rest⟩ := p
      cases ok <;> rfl

/-- The second part is read where the first one has left the request. -/
theorem readParts_two {r r' : HttpRequest} {a rest : List Byte}
    (ha : parseBytes verify r a = some (true, r', rest)) (b : List Byte) :
  readParts verify r [] [a, b] = parseBytes verify r' (rest ++ b)
  := by
  rw [readParts, List.nil_append, ha]
  apply readParts_one r' rest b

/-! ### Requests that are not posted -/

variable {r r' : HttpRequest} {line rest xs : List Byte} {ok : Bool}

theorem parseBody_of_not_post (h : r.method ≠ ascii "POST") (verify : Verify) (line : List Byte) :
  parseBody verify r line = some { r with body := line, state := .finish }
  := by
  simp [parseBody, parsePost, h]

/-- A line of a header gives an entry, or it is taken for the end of the headers. -/
theorem parseHeader_cases (r : HttpRequest) (line : List Byte) :
  (∃ n o v, line = n ++ colon :: (o ++ v) ∧ colon ∉ n ∧ cr ∉ o ++ v ∧
      r.parseHeader line = { r with header := r.header.set n v }) ∨
    r.parseHeader line = { r with state := .body }
  := by
  rcases parseHeader_spec r line with ⟨⟨n, v⟩, ⟨hn, hv, hline⟩, heq⟩ | ⟨-, heq⟩
  · have hcr : cr ∉ v := fun hc => (hv cr hc).1 rfl
    rcases hline with ⟨rfl, -⟩ | rfl
    · exact Or.inl ⟨n, [], v, rfl, hn, hcr, heq⟩
    · have hspace : cr ∉ [space] ++ v := by
        rw [List.singleton_append, List.mem_cons, not_or]
        exact ⟨by decide, hcr⟩
      exact Or.inl ⟨n, [space], v, rfl, hn, hspace, heq⟩
  · exact Or.inr heq

/-- A request that is not posted and has its request line keeps its method and version. -/
theorem parseLine_keeps (hpost : r.method ≠ ascii "POST") (hr : r.state ≠ .requestLine) {n : ℕ}
    (h : parseLine verify r line n = some (some r')) :
  r'.method = r.method ∧ r'.version = r.version ∧ r'.state ≠ .requestLine
  := by
  unfold parseLine at h
  split at h
  · rename_i hstate
    exact absurd hstate hr
  · rename_i hstate
    obtain rfl := Option.some.inj (Option.some.inj h)
    rcases parseHeader_cases r line with ⟨n, o, v, -, -, -, heq⟩ | heq <;> rw [heq] <;> split <;>
      simp [hstate]
  · rw [parseBody_of_not_post hpost] at h
    obtain rfl := Option.some.inj (Option.some.inj h)
    simp
  · obtain rfl := Option.some.inj (Option.some.inj h)
    exact ⟨rfl, rfl, hr⟩

theorem parseBytes_version (hpost : r.method ≠ ascii "POST") (hr : r.state ≠ .requestLine)
    (h : parseBytes verify r xs = some (ok, r', rest)) :
  r'.version = r.version
  := by
  induction r, xs using parseBytes.induct verify with
  | case1 r xs hend =>
      rw [parseBytes, dif_pos hend] at h
      simp_all
  | case2 r xs hend hline => 
      rw [parseBytes, dif_neg hend, hline] at h
      simp at h
  | case3 r xs hend hline =>
      rw [parseBytes, dif_neg hend, hline] at h
      simp_all
  | case4 r xs hend r₁ hline hlast =>
      rw [parseBytes, dif_neg hend, hline] at h
      have hkeeps := parseLine_keeps hpost hr hline
      simp_all
  | case5 r xs hend r₁ hline hlast ih =>
      rw [parseBytes, dif_neg hend, hline] at h
      have hkeeps := parseLine_keeps hpost hr hline
      simp only [if_neg hlast] at h
      rw [ih (hkeeps.1 ▸ hpost) hkeeps.2.2 h, hkeeps.2.1]

/-- A request that is not posted and is behind its headers keeps them. -/
theorem parseBytes_header (hpost : r.method ≠ ascii "POST")
    (hr : r.state = .body ∨ r.state = .finish)
    (h : parseBytes verify r xs = some (ok, r', rest)) :
  r'.header = r.header
  := by
  by_cases hxs : xs = []
  · rw [hxs, parseBytes_nil] at h
    simp_all
  · rcases hr with hbody | hfinish
    · rw [parseBytes_body hbody hxs, parseBody_of_not_post hpost] at h
      obtain ⟨-, rfl, -⟩ : true = ok ∧ { r with body := firstLine xs, state := .finish } = r' ∧ _ := by
        simpa using h
      rfl
    · rw [parseBytes_finish hfinish] at h
      simp_all

/-- What a line of a header at the end of the unread bytes makes of a request: if it has no more than
two bytes, the request is finished with it. -/
def lastHeader (r : HttpRequest) (line : List Byte) : HttpRequest :=
  if line.length ≤ 2 then { r.parseHeader line with state := .finish } else r.parseHeader line

theorem lastHeader_cases (r : HttpRequest) (line : List Byte) :
  r.lastHeader line = { r.parseHeader line with state := .finish } ∨
    r.lastHeader line = r.parseHeader line
  := by
  unfold lastHeader
  split
  · apply Or.inl rfl
  · apply Or.inr rfl

/-- In the state for the headers, bytes without an end of line are taken for a line of a header. -/
theorem parseBytes_headers_last (hr : r.state = .headers) (hne : line ≠ []) (hline : ¬ crlf <:+: line) :
  parseBytes verify r line = some (true, r.lastHeader line, [])
  := by
  apply parseBytes_last hne hline
  · simp [hr]
  · simp only [parseLine, hr]
    rfl

/-- In the state for the headers a line is taken, with enough bytes behind it. -/
theorem parseBytes_headers_line (hr : r.state = .headers) (hline : cr ∉ line)
    (hrest : rest ≠ []) :
  parseBytes verify r (line ++ crlf ++ rest) = parseBytes verify (r.parseHeader line) rest
  := by
  have hlong : ¬ line.length + 2 + rest.length ≤ 2 := by
    have := List.length_pos_iff.mpr hrest
    omega
  apply parseBytes_line hline
  · simp [hr]
  · simp [parseLine, hr, hlong]

end HttpRequest

namespace Message

open HttpRequest

variable {verify : Verify} {q : Message} {a b c d : List Byte}

/-! ### Cuts -/

@[simp]
theorem joinLines_nil :
  joinLines [] = []
  := rfl

@[simp]
theorem joinLines_cons (l : List Byte) (ls : List (List Byte)) :
  joinLines (l :: ls) = l ++ crlf ++ joinLines ls
  := by
  simp [joinLines]

@[simp]
theorem joinLines_append (ls ls' : List (List Byte)) :
  joinLines (ls ++ ls') = joinLines ls ++ joinLines ls'
  := List.flatMap_append

theorem firstLine_crlf (rest : List Byte) :
  firstLine (crlf ++ rest) = []
  := firstLine_append List.not_mem_nil rest

/-- A cut is behind some lines and in the next one, or behind all of them. -/
theorem joinLines_cut {ls : List (List Byte)} {rest : List Byte}
    (h : joinLines ls ++ rest = a ++ b) :
  (∃ ls₁ l ls₂ c d, ls = ls₁ ++ l :: ls₂ ∧ c ++ d = l ++ crlf ∧ d ≠ [] ∧ a = joinLines ls₁ ++ c ∧
      b = d ++ (joinLines ls₂ ++ rest)) ∨
    ∃ c, a = joinLines ls ++ c ∧ c ++ b = rest
  := by
  induction ls generalizing a with
  | nil => exact Or.inr ⟨a, rfl, h.symm⟩
  | cons l ls ih =>
      rw [joinLines_cons, List.append_assoc, List.append_eq_append_iff] at h
      have hcut : (∃ a', a = l ++ crlf ++ a' ∧ joinLines ls ++ rest = a' ++ b) ∨
          ∃ d, d ≠ [] ∧ l ++ crlf = a ++ d ∧ b = d ++ (joinLines ls ++ rest) := by
        rcases h with hbehind | ⟨d, hl, hb⟩
        · exact Or.inl hbehind
        · by_cases hd : d = []
          · subst hd
            exact Or.inl ⟨[], by simpa using hl.symm, by simpa using hb.symm⟩
          · exact Or.inr ⟨d, hd, hl, hb⟩
      rcases hcut with ⟨a', rfl, hrest⟩ | ⟨d, hd, hl, hb⟩
      · rcases ih hrest with ⟨ls₁, l', ls₂, c, d, rfl, hcd, hd, rfl, rfl⟩ | ⟨c, rfl, rfl⟩
        · exact Or.inl ⟨l :: ls₁, l', ls₂, c, d, rfl, hcd, hd, by simp, rfl⟩
        · exact Or.inr ⟨c, by simp, rfl⟩
      · exact Or.inl ⟨[], l, ls, a, d, rfl, hl.symm, hd, rfl, hb⟩

/-- A cut in a line with its end is between the two bytes of the end, or in the line. -/
theorem line_cut {l : List Byte} (h : c ++ d = l ++ crlf) (hd : d ≠ []) :
  (c = l ++ [cr] ∧ d = [lf]) ∨ ∃ w, l = c ++ w ∧ d = w ++ crlf
  := by
  rcases List.append_eq_append_iff.mp h with ⟨w, hl, hdw⟩ | ⟨e, hc, he⟩
  · exact Or.inr ⟨w, hl, hdw⟩
  · rcases e with _ | ⟨x, _ | ⟨y, e⟩⟩
    · exact Or.inr ⟨[], by simpa using hc.symm, by simpa using he.symm⟩
    · obtain ⟨rfl, rfl⟩ : cr = x ∧ [lf] = d := by simpa [crlf] using he
      exact Or.inl ⟨hc, rfl⟩
    · simp [crlf] at he
      exact absurd he.2.2.2 hd

/-- A line that is cut has no end of line in it. -/
theorem not_infix_of_cut {l : List Byte} (hl : lf ∉ l) (h : c ++ d = l ++ crlf) (hd : d ≠ []) :
  ¬ crlf <:+: c
  := by
  intro hend
  have hlf : lf ∈ c := hend.subset (by decide)
  rcases line_cut h hd with ⟨rfl, -⟩ | ⟨w, rfl, -⟩
  · rcases List.mem_append.mp hlf with hmem | hmem
    · apply hl hmem
    · exact absurd hmem (by decide)
  · apply hl (List.mem_append_left w hlf)

/-- The first part ends behind the end of the request line or of the line of a header. -/
def CutAtLine (q : Message) (a : List Byte) : Prop :=
  ∃ hs hs', q.headers = hs ++ hs' ∧ a = joinLines (q.requestLine :: hs.map headerLine)

/-- The first part ends in the body, and the first line of the body is the first line of what the
first part has of it. -/
def CutInBody (q : Message) (a : List Byte) : Prop :=
  ∃ x, x ≠ [] ∧ a = q.head ++ x ∧ firstLine x = firstLine q.body

/-- The first part ends behind the empty line, between the two bytes of it, in front of the end of the
last line, or in front of the space at the end of the last line if the value there is empty. -/
def CutAtEnd (q : Message) (a : List Byte) : Prop :=
  a = q.head ∨ a = joinLines q.lines ++ [cr] ∨ a ++ crlf = joinLines q.lines ∨
    ∃ hs n, q.headers = hs ++ [(n, [])] ∧
      a = joinLines (q.requestLine :: hs.map headerLine) ++ (n ++ [colon])

/-- The request behind the request line and the lines of some headers. -/
def reached (q : Message) (hs : List (List Byte × List Byte)) : HttpRequest :=
  { q.started with header := headerMap hs .empty }

/-- The request line and the lines of some headers are taken. -/
theorem WellFormed.parseBytes_lines (h : q.WellFormed) (verify : Verify)
    {hs : List (List Byte × List Byte)} (hmem : hs ⊆ q.headers) (rest : List Byte) :
  parseBytes verify init (joinLines (q.requestLine :: hs.map headerLine) ++ rest)
    = parseBytes verify (q.reached hs) rest
  := by
  rw [joinLines_cons, List.append_assoc, h.parseBytes_requestLine]
  apply h.parseBytes_headerLines verify hmem rfl rest

/-- Where a cut can be: in the request line, behind some headers and in the line of the next one, or
behind all headers. -/
theorem serialize_cut (h : q.serialize = a ++ b) :
  (∃ d, a ++ d = q.requestLine ++ crlf ∧ d ≠ [] ∧
      b = d ++ (joinLines (q.headers.map headerLine) ++ (crlf ++ q.body))) ∨
    (∃ hs k hs' c d, q.headers = hs ++ k :: hs' ∧ c ++ d = headerLine k ++ crlf ∧ d ≠ [] ∧
      a = joinLines (q.requestLine :: hs.map headerLine) ++ c ∧
      b = d ++ (joinLines (hs'.map headerLine) ++ (crlf ++ q.body))) ∨
    ∃ c, a = joinLines q.lines ++ c ∧ c ++ b = crlf ++ q.body
  := by
  rw [serialize, head, List.append_assoc] at h
  rcases joinLines_cut h with ⟨ls₁, l, ls₂, c, d, hls, hcd, hd, rfl, rfl⟩ | hc
  · cases ls₁ with
    | nil =>
        obtain ⟨rfl, rfl⟩ : q.requestLine = l ∧ q.headers.map headerLine = ls₂ := by
          simpa [lines] using hls
        exact Or.inl ⟨d, hcd, hd, rfl⟩
    | cons l' ls₁ =>
        obtain ⟨rfl, hmap⟩ : q.requestLine = l' ∧ q.headers.map headerLine = ls₁ ++ l :: ls₂ := by
          simpa [lines] using hls
        obtain ⟨hs, hs'', hheaders, rfl, hmap'⟩ := List.map_eq_append_iff.mp hmap
        obtain ⟨k, hs', rfl, rfl, rfl⟩ := List.map_eq_cons_iff.mp hmap'
        exact Or.inr (Or.inl ⟨hs, k, hs', c, d, hheaders, hcd, hd, rfl, rfl⟩)
  · exact Or.inr (Or.inr hc)

/-! ### What comes of a cut -/

/-- The fields `state_`, `method_`, `path_`, `version_`, `header_` and `body_` are the same. -/
structure Agrees (r r' : HttpRequest) : Prop where
  state : r.state = r'.state
  method : r.method = r'.method
  path : r.path = r'.path
  version : r.version = r'.version
  header : r.header = r'.header
  body : r.body = r'.body

/-- The finished request with the first line of `rest` as its body. -/
def complete (q : Message) (rest : List Byte) : HttpRequest :=
  { q.parsed with body := firstLine rest, state := .finish }

/-- The two parts are read, with no call returning false, and what comes of them agrees with the
message in one part. -/
def ReadsAs (verify : Verify) (q : Message) (a b : List Byte) : Prop :=
  ∃ r rest, readParts verify init [] [a, b] = some (true, r, rest) ∧ Agrees r (q.complete q.body)

theorem received_of_not_post (hpost : q.method ≠ ascii "POST") (verify : Verify)
    (rest : List Byte) :
  q.received verify rest = some (true, q.complete rest, afterLine rest)
  := by
  unfold received
  split
  · rename_i hrest
    rw [hrest]
    rfl
  · rw [parseBody_of_not_post hpost]
    rfl

theorem received_state {rest rest' : List Byte} {ok : Bool} {r : HttpRequest}
    (h : q.received verify rest = some (ok, r, rest')) :
  ok = true ∧ r.state = .finish
  := by
  unfold received at h
  split at h
  · simp only [Option.some.injEq, Prod.mk.injEq] at h
    obtain ⟨rfl, rfl, -⟩ := h
    exact ⟨rfl, rfl⟩
  · obtain ⟨r', hbody, heq⟩ := Option.map_eq_some_iff.mp h
    simp only [Prod.mk.injEq] at heq
    obtain ⟨rfl, rfl, -⟩ := heq
    exact ⟨rfl, parseBody_state hbody⟩

/-- A cut behind the end of a line is none. -/
theorem WellFormed.readParts_line (h : q.WellFormed) (verify : Verify)
    {hs : List (List Byte × List Byte)} (hmem : hs ⊆ q.headers) (c b : List Byte) :
  readParts verify init [] [joinLines (q.requestLine :: hs.map headerLine) ++ c, b]
    = readParts verify (q.reached hs) [] [c, b]
  := by
  simp only [readParts, List.nil_append, h.parseBytes_lines verify hmem]

theorem WellFormed.readParts_cutAtLine (h : q.WellFormed) (verify : Verify) (ha : q.CutAtLine a)
    (b : List Byte) :
  readParts verify init [] [a, b] = parseBytes verify init (a ++ b)
  := by
  obtain ⟨hs, hs', hheaders, rfl⟩ := ha
  have hmem : hs ⊆ q.headers := by simp [hheaders]
  have hcut := h.readParts_line verify hmem [] b
  rw [List.append_nil] at hcut
  rw [hcut, readParts_two (parseBytes_nil _), List.nil_append, h.parseBytes_lines verify hmem]

/-- Behind the empty line the request is finished with the first part. -/
theorem WellFormed.readParts_head (h : q.WellFormed) (verify : Verify) (x b : List Byte) :
  readParts verify init [] [q.head ++ x, b]
    = (q.received verify x).map fun p => (p.1, p.2.1, p.2.2 ++ b)
  := by
  have hhead := h.parseBytes_head verify x
  cases hreceived : q.received verify x with
  | none => simp [readParts, hhead, hreceived]
  | some p =>
      obtain ⟨ok, r, rest⟩ := p
      obtain ⟨rfl, hfinish⟩ := received_state hreceived
      rw [readParts_two (hhead.trans hreceived), parseBytes_finish hfinish]
      rfl

/-- Between the two bytes of the empty line the request is finished too. -/
theorem WellFormed.readParts_emptyLine (h : q.WellFormed) (verify : Verify) (b : List Byte) :
  readParts verify init [] [joinLines q.lines ++ [cr], b] = some (true, q.complete [], b)
  := by
  have hcr : parseBytes verify q.parsed [cr] = some (true, q.complete [], []) := by
    have hmatch : Regex.fullMatch headerPattern [cr] = none := by decide
    rw [parseBytes_headers_last rfl (by simp) (by decide), lastHeader, HttpRequest.parseHeader, hmatch]
    rfl
  rw [lines, h.readParts_line verify (List.Subset.refl _)]
  exact (readParts_two hcr b).trans (parseBytes_finish rfl b)

/-! ### Cuts in the line of a header -/

variable {hs hs' : List (List Byte × List Byte)} {k : List Byte × List Byte}

/-- The name of a header is not the name of one before it or behind it. -/
theorem WellFormed.name_notMem (h : q.WellFormed) (hheaders : q.headers = hs ++ k :: hs') :
  k.1 ∉ hs.map Prod.fst ∧ k.1 ∉ hs'.map Prod.fst
  := by
  have hnames := h.names
  rw [hheaders, List.map_append, List.map_cons, List.nodup_append] at hnames
  obtain ⟨-, hrest, hdisjoint⟩ := hnames
  constructor
  · intro hmem
    apply hdisjoint _ hmem _ List.mem_cons_self rfl
  · apply (List.nodup_cons.mp hrest).1

/-- Headers of a message with other names, the empty line and a body do not give a header. -/
theorem WellFormed.header_of_lines (h : q.WellFormed) (hmem : hs' ⊆ q.headers) {n : List Byte}
    (hn : n ∉ hs'.map Prod.fst) {r r' : HttpRequest} (hpost : r.method ≠ ascii "POST")
    (hr : r.state ≠ .requestLine) {body rest : List Byte} {ok : Bool}
    (hparse : parseBytes verify r (joinLines (hs'.map headerLine) ++ (crlf ++ body))
      = some (ok, r', rest)) :
  r'.header n = r.header n
  := by
  cases hstate : r.state with
  | requestLine => exact absurd hstate hr
  | headers =>
      rw [h.parseBytes_headerLines verify hmem hstate,
        parseBytes_emptyLine verify (r := { r with header := headerMap hs' r.header }) hstate] at hparse
      rw [parseBytes_header _ _ hparse]
      · apply headerMap_of_notMem hn r.header
      · apply hpost
      · dsimp only
        split <;> simp
  | body => rw [parseBytes_header hpost (Or.inl hstate) hparse]
  | finish => rw [parseBytes_header hpost (Or.inr hstate) hparse]

/-- A header that the first part has not given, and the rest of its line cannot give, is missing. -/
theorem WellFormed.header_ne (h : q.WellFormed) (hheaders : q.headers = hs ++ k :: hs')
    {r r' : HttpRequest} (hpost : r.method ≠ ascii "POST") (hr : r.state ≠ .requestLine)
    (hmissing : r.header k.1 ≠ some k.2) {w : List Byte} (hw : cr ∉ w)
    (hrest : ∀ n o v, w = n ++ colon :: (o ++ v) → v ≠ k.2) {rest : List Byte} {ok : Bool}
    (hparse : parseBytes verify r
      (w ++ crlf ++ (joinLines (hs'.map headerLine) ++ (crlf ++ q.body))) = some (ok, r', rest)) :
  r'.header k.1 ≠ some k.2
  := by
  have hmem : hs' ⊆ q.headers := by simp [hheaders]
  have hk := (h.name_notMem hheaders).2
  have hsettled : r.state = .body ∨ r.state = .finish → r'.header k.1 ≠ some k.2 := by
    intro hstate
    rw [parseBytes_header hpost hstate hparse]
    apply hmissing
  cases hstate : r.state with
  | requestLine => exact absurd hstate hr
  | headers =>
      rw [parseBytes_headers_line hstate hw (by simp [crlf])] at hparse
      rcases parseHeader_cases r w with ⟨n, o, v, hsplit, -, -, heq⟩ | heq <;> rw [heq] at hparse
      · rw [h.header_of_lines hmem hk (by exact hpost) (by simp [hstate]) hparse]
        by_cases hn : k.1 = n
        · simpa [StringMap.set, hn] using hrest n o v hsplit
        · simpa [StringMap.set, hn] using hmissing
      · rw [h.header_of_lines hmem hk (by exact hpost) (by simp) hparse]
        apply hmissing
  | body => apply hsettled (Or.inl hstate)
  | finish => apply hsettled (Or.inr hstate)

/-- What a first part of the line of a header is: a part of the name, the name and the colon, or these
with a space and a part of the value. -/
theorem headerLine_cut {w : List Byte} (h : headerLine k = c ++ w) :
  (∃ x, k.1 = c ++ x ∧ w = x ++ colon :: space :: k.2) ∨
    (c = k.1 ++ [colon] ∧ w = space :: k.2) ∨
    ∃ v, c = k.1 ++ colon :: space :: v ∧ k.2 = v ++ w
  := by
  rw [headerLine, List.append_eq_append_iff] at h
  rcases h with ⟨e, rfl, he⟩ | ⟨x, hk, hw⟩
  · rcases e with _ | ⟨x, _ | ⟨y, v⟩⟩
    · exact Or.inl ⟨[], by simp, by simpa using he.symm⟩
    · obtain ⟨rfl, rfl⟩ : colon = x ∧ space :: k.2 = w := by simpa using he
      exact Or.inr (Or.inl ⟨rfl, rfl⟩)
    · obtain ⟨rfl, rfl, hv⟩ : colon = x ∧ space = y ∧ k.2 = v ++ w := by simpa using he
      exact Or.inr (Or.inr ⟨v, rfl, hv⟩)
  · exact Or.inl ⟨x, hk, hw⟩

theorem parseHeader_colon (hname : ∀ c ∈ k.1, c ≠ colon) (r : HttpRequest) :
  r.parseHeader (k.1 ++ [colon]) = { r with header := r.header.set k.1 [] }
  := by
  have hname' : ∀ c ∈ k.1, decide (c ≠ colon) = true := by simpa using hname
  have hmatch : Regex.fullMatch headerPattern (k.1 ++ [colon]) = some [k.1, []] := by
    simp only [headerPattern]
    rw [Regex.fullMatch_group_append (by simp) hname']
    rfl
  rw [HttpRequest.parseHeader, hmatch]

/-- Bytes that are not the name of a header, a colon and a value end the headers. -/
theorem parseHeader_of_lost (hname : colon ∉ k.1)
    (hc : (∃ x, k.1 = c ++ x) ∨ c = headerLine k ++ [cr]) (r : HttpRequest) :
  r.parseHeader c = { r with state := .body }
  := by
  refine (parseHeader_cases r c).resolve_left ?_
  rintro ⟨n, o, v, hsplit, hn, hcr, -⟩
  rcases hc with ⟨x, hx⟩ | hend
  · apply hname
    rw [hx, hsplit]
    simp
  · rw [hend, headerLine, List.append_assoc, List.cons_append] at hsplit
    obtain ⟨-, hsplit⟩ := append_cons_inj_of_notMem hname hn hsplit
    apply hcr
    rw [← hsplit]
    simp

/-- A cut in the line of a header: the second part is read where the first one has left off. -/
theorem WellFormed.readParts_header (h : q.WellFormed) (verify : Verify)
    (hheaders : q.headers = hs ++ k :: hs') (hcd : c ++ d = headerLine k ++ crlf) (hc : c ≠ [])
    (hd : d ≠ []) (b : List Byte) :
  readParts verify init [] [joinLines (q.requestLine :: hs.map headerLine) ++ c, b]
    = parseBytes verify ((q.reached hs).lastHeader c) b
  := by
  have hmem : hs ⊆ q.headers := by simp [hheaders]
  have hk : k ∈ q.headers := by simp [hheaders]
  have honeLine := not_infix_of_cut (h.notMem_headerLine hk (by decide)) hcd hd
  rw [h.readParts_line verify hmem]
  apply readParts_two (parseBytes_headers_last rfl hc honeLine)

/-- A first part that ends the headers loses this one. -/
theorem WellFormed.header_of_lost (h : q.WellFormed) (hpost : q.method ≠ ascii "POST")
    (hheaders : q.headers = hs ++ k :: hs')
    (hc : (∃ x, k.1 = c ++ x) ∨ c = headerLine k ++ [cr]) {r : HttpRequest} {rest : List Byte}
    {ok : Bool} (hparse : parseBytes verify ((q.reached hs).lastHeader c) b = some (ok, r, rest)) :
  r.header k.1 = none
  := by
  have hk : k ∈ q.headers := by simp [hheaders]
  have hname : colon ∉ k.1 := fun hcolon => (h.name k hk colon hcolon).1 rfl
  have hbefore : (q.reached hs).header k.1 = none := headerMap_of_notMem (h.name_notMem hheaders).1 _
  have hbody := parseHeader_of_lost hname hc (q.reached hs)
  rcases lastHeader_cases (q.reached hs) c with hlast | hlast
  · rw [hlast, hbody] at hparse
    rw [parseBytes_header (by exact hpost) (Or.inr rfl) hparse]
    apply hbefore
  · rw [hlast, hbody] at hparse
    rw [parseBytes_header (by exact hpost) (Or.inl rfl) hparse]
    apply hbefore

/-- A first part with another value gives the wrong one, and the rest of the line does not mend it. -/
theorem WellFormed.header_of_short (h : q.WellFormed) (hpost : q.method ≠ ascii "POST")
    (hheaders : q.headers = hs ++ k :: hs') {v w : List Byte}
    (hheader : (q.reached hs).parseHeader c
      = { q.reached hs with header := (q.reached hs).header.set k.1 v }) (hv : v ≠ k.2)
    (hw : cr ∉ w) (hmend : ∀ n o v', w = n ++ colon :: (o ++ v') → v' ≠ k.2) {r : HttpRequest}
    {rest : List Byte} {ok : Bool}
    (hparse : parseBytes verify ((q.reached hs).lastHeader c)
      (w ++ crlf ++ (joinLines (hs'.map headerLine) ++ (crlf ++ q.body))) = some (ok, r, rest)) :
  r.header k.1 ≠ some k.2
  := by
  have hwrong : (q.reached hs).header.set k.1 v k.1 ≠ some k.2 := by simpa [StringMap.set] using hv
  rcases lastHeader_cases (q.reached hs) c with hlast | hlast
  · rw [hlast, hheader] at hparse
    apply h.header_ne hheaders (by exact hpost) (by simp) hwrong hw hmend hparse
  · rw [hlast, hheader] at hparse
    exact h.header_ne hheaders (by exact hpost) (by simp [reached, started, parsePath]) hwrong hw
      hmend hparse

/-- The value of a header, with a space in front, is not a header with that value. -/
theorem value_ne_of_space {v n o v' : List Byte} (h : space :: v = n ++ colon :: (o ++ v')) :
  v' ≠ v
  := by
  rintro rfl
  cases n with
  | nil =>
      obtain ⟨hspace, -⟩ : space = colon ∧ _ := by simpa using h
      apply absurd hspace
      decide
  | cons x n =>
      have hlen := congrArg List.length h
      simp only [List.length_append, List.length_cons] at hlen
      omega

/-- The end of a value is not a header with the whole value. -/
theorem value_ne_of_append {u v w n o v' : List Byte} (hv : v = u ++ w)
    (hw : w = n ++ colon :: (o ++ v')) :
  v' ≠ v
  := by
  rintro rfl
  have hlen := congrArg List.length hv
  rw [hw] at hlen
  simp only [List.length_append, List.length_cons] at hlen
  omega

/-- The first part of the line of a header gives the header, if it gives anything of use. -/
theorem WellFormed.cut_of_readsAs (h : q.WellFormed) (hpost : q.method ≠ ascii "POST")
    (hheaders : q.headers = hs ++ k :: hs') (hcd : c ++ d = headerLine k ++ crlf) (hc : c ≠ [])
    (hd : d ≠ [])
    (hreads : q.ReadsAs verify (joinLines (q.requestLine :: hs.map headerLine) ++ c)
      (d ++ (joinLines (hs'.map headerLine) ++ (crlf ++ q.body)))) :
  c = headerLine k ∨ (k.2 = [] ∧ c = k.1 ++ [colon])
  := by
  have hk : k ∈ q.headers := by simp [hheaders]
  have hname : ∀ e ∈ k.1, e ≠ colon := fun e he => (h.name k hk e he).1
  obtain ⟨r, rest, hparts, hagrees⟩ := hreads
  have hgiven : r.header k.1 = some k.2 := by
    rw [hagrees.header]
    apply headerMap_of_mem h.names hk
  rw [h.readParts_header verify hheaders hcd hc hd] at hparts
  have hlost : ¬ ((∃ x, k.1 = c ++ x) ∨ c = headerLine k ++ [cr]) := by
    intro hcases
    rw [h.header_of_lost hpost hheaders hcases hparts] at hgiven
    simp at hgiven
  rcases line_cut hcd hd with ⟨hend, -⟩ | ⟨w, hl, rfl⟩
  · exact (hlost (Or.inr hend)).elim
  · have hw : cr ∉ w := by
      intro hmem
      apply h.notMem_headerLine hk (by decide : cr ∈ crlf)
      rw [hl]
      apply List.mem_append_right c hmem
    rcases headerLine_cut hl with ⟨x, hx, -⟩ | ⟨hcolon, hw'⟩ | ⟨v, hv, hvalue⟩
    · exact (hlost (Or.inl ⟨x, hx⟩)).elim
    · refine Or.inr ⟨?_, hcolon⟩
      by_contra hne
      have hheader := parseHeader_colon hname (q.reached hs)
      rw [← hcolon] at hheader
      apply h.header_of_short hpost hheaders hheader (Ne.symm hne) hw _ hparts hgiven
      intro n o v' hsplit
      rw [hw'] at hsplit
      apply value_ne_of_space hsplit
    · refine Or.inl ?_
      by_contra hne
      have hheader := parseHeader_headerLine (k := (k.1, v)) hname
        (fun e he => h.value k hk e (hvalue ▸ List.mem_append_left w he)) (q.reached hs)
      rw [headerLine, ← hv] at hheader
      have hv' : v ≠ k.2 := by
        rintro rfl
        apply hne
        rw [hv]
        rfl
      apply h.header_of_short hpost hheaders hheader hv' hw _ hparts hgiven
      intro n o v' hsplit
      apply value_ne_of_append hvalue hsplit

theorem reached_append (q : Message) (hs : List (List Byte × List Byte))
    (k : List Byte × List Byte) :
  q.reached (hs ++ [k]) = { q.reached hs with header := (q.reached hs).header.set k.1 k.2 }
  := by
  simp [reached, headerMap]

/-- The line of a header without its end gives the header, but what is left of the line ends the
headers. -/
theorem WellFormed.readParts_headerLine (h : q.WellFormed) (hpost : q.method ≠ ascii "POST")
    (verify : Verify) (hheaders : q.headers = hs ++ k :: hs') {w : List Byte}
    (hl : headerLine k = c ++ w) (hc : c = headerLine k ∨ (k.2 = [] ∧ c = k.1 ++ [colon])) :
  ∃ x rest, readParts verify init [] [joinLines (q.requestLine :: hs.map headerLine) ++ c,
        w ++ crlf ++ (joinLines (hs'.map headerLine) ++ (crlf ++ q.body))]
      = some (true, { q.reached (hs ++ [k]) with body := x, state := .finish }, rest) ∧
    (hs' = [] → x = [])
  := by
  have hk : k ∈ q.headers := by simp [hheaders]
  have hne : c ≠ [] := by
    rcases hc with rfl | ⟨-, rfl⟩ <;> simp [headerLine]
  have hcd : c ++ (w ++ crlf) = headerLine k ++ crlf := by rw [hl, List.append_assoc]
  have hheader : (q.reached hs).parseHeader c = q.reached (hs ++ [k]) := by
    rw [reached_append]
    rcases hc with rfl | ⟨hvalue, rfl⟩
    · apply h.parseHeader hk _
    · rw [hvalue]
      apply parseHeader_colon (fun e he => (h.name k hk e he).1) _
  have hw : w = [] ∨ w = [space] := by
    rcases hc with rfl | ⟨hvalue, rfl⟩
    · exact Or.inl (by simpa using hl)
    · refine Or.inr ?_
      simpa [headerLine, hvalue] using hl.symm
  rw [h.readParts_header verify hheaders hcd hne (by simp [crlf])]
  rcases lastHeader_cases (q.reached hs) c with hlast | hlast
  · rw [hlast, hheader]
    exact ⟨[], _, parseBytes_finish rfl _, fun _ => rfl⟩
  · rw [hlast, hheader]
    have hmatch : Regex.fullMatch headerPattern w = none := by
      rcases hw with rfl | rfl <;> decide
    have hcr : cr ∉ w := by
      rcases hw with rfl | rfl <;> decide
    have hrest : joinLines (hs'.map headerLine) ++ (crlf ++ q.body) ≠ [] := by simp [crlf]
    rw [parseBytes_headers_line rfl hcr hrest, HttpRequest.parseHeader, hmatch,
      parseBytes_body rfl hrest, parseBody_of_not_post hpost]
    refine ⟨_, _, rfl, ?_⟩
    rintro rfl
    apply firstLine_crlf q.body

theorem WellFormed.headers_of_header (h : q.WellFormed) (hheaders : q.headers = hs ++ hs')
    (heq : headerMap hs .empty = headerMap q.headers .empty) :
  hs' = []
  := by
  cases hs' with
  | nil => rfl
  | cons k hs' =>
      have hk := (h.name_notMem hheaders).1
      have hgiven := headerMap_of_mem h.names (h := k) (by simp [hheaders]) .empty
      rw [← heq, headerMap_of_notMem hk] at hgiven
      simp [StringMap.empty] at hgiven

/-- A cut in the line of a header does no harm only at the end of the last line, before a body with
an empty first line. -/
theorem WellFormed.readsAs_header_iff (h : q.WellFormed) (hpost : q.method ≠ ascii "POST")
    (hheaders : q.headers = hs ++ k :: hs') (hcd : c ++ d = headerLine k ++ crlf) (hc : c ≠ [])
    (hd : d ≠ []) :
  q.ReadsAs verify (joinLines (q.requestLine :: hs.map headerLine) ++ c)
      (d ++ (joinLines (hs'.map headerLine) ++ (crlf ++ q.body))) ↔
    hs' = [] ∧ firstLine q.body = [] ∧
      (c = headerLine k ∨ (k.2 = [] ∧ c = k.1 ++ [colon]))
  := by
  have hresult : (c = headerLine k ∨ (k.2 = [] ∧ c = k.1 ++ [colon])) → ∃ x rest,
      readParts verify init [] [joinLines (q.requestLine :: hs.map headerLine) ++ c,
          d ++ (joinLines (hs'.map headerLine) ++ (crlf ++ q.body))]
        = some (true, { q.reached (hs ++ [k]) with body := x, state := .finish }, rest) ∧
      (hs' = [] → x = []) := by
    intro hgood
    obtain ⟨w, hl⟩ : ∃ w, headerLine k = c ++ w := by
      rcases hgood with rfl | ⟨hvalue, rfl⟩
      · exact ⟨[], by simp⟩
      · exact ⟨[space], by simp [headerLine, hvalue]⟩
    obtain rfl : d = w ++ crlf := by
      rw [hl, List.append_assoc] at hcd
      apply List.append_cancel_left hcd
    apply h.readParts_headerLine hpost verify hheaders hl hgood
  constructor
  · intro hreads
    have hgood := h.cut_of_readsAs hpost hheaders hcd hc hd hreads
    obtain ⟨r, rest, hparts, hagrees⟩ := hreads
    obtain ⟨x, rest', hparts', hx⟩ := hresult hgood
    obtain ⟨rfl, -⟩ : _ = r ∧ _ := by simpa using hparts'.symm.trans hparts
    obtain rfl := h.headers_of_header
      (by simpa using hheaders : q.headers = hs ++ [k] ++ hs') hagrees.header
    exact ⟨rfl, hagrees.body.symm.trans (hx rfl), hgood⟩
  · rintro ⟨rfl, hbody, hgood⟩
    obtain ⟨x, rest, hparts, hx⟩ := hresult hgood
    refine ⟨_, rest, hparts, rfl, rfl, rfl, rfl, ?_, ?_⟩
    · simp only [complete, parsed, reached, hheaders]
    · exact (hx rfl).trans hbody.symm

/-! ### Cuts in the request line -/

/-- Bytes without an end of line that are not a request line are refused. -/
theorem parseBytes_refused (ha : a ≠ []) (honeLine : ¬ crlf <:+: a)
    (hline : init.parseRequestLine a = none) :
  parseBytes verify init a = some (false, init, a)
  := by
  have hgo : ¬ (a = [] ∨ init.state = .finish) := by simp [ha, init]
  have hparse : parseLine verify init a a.length = some none := by
    simp only [parseLine, init] at hline ⊢
    rw [hline]
    rfl
  rw [parseBytes, dif_neg hgo, firstLine_of_oneLine honeLine, hparse]

/-- Bytes without an end of line that are a request line are taken for one. -/
theorem parseBytes_started {r : HttpRequest} (ha : a ≠ []) (honeLine : ¬ crlf <:+: a)
    (hline : init.parseRequestLine a = some r) :
  parseBytes verify init a = some (true, r.parsePath, [])
  := by
  apply parseBytes_last ha honeLine
  · exact nofun
  · simp only [parseLine, init] at hline ⊢
    rw [hline]
    rfl

/-- The request line without its end is taken, but then its end is taken for the empty line. -/
theorem WellFormed.readParts_requestLine (h : q.WellFormed) (hpost : q.method ≠ ascii "POST")
    (verify : Verify) {rest : List Byte} (hrest : rest ≠ []) :
  readParts verify init [] [q.requestLine, crlf ++ rest]
    = some (true, { q.started with body := firstLine rest, state := .finish }, afterLine rest)
  := by
  have hne : q.requestLine ≠ [] := by simp [requestLine]
  have honeLine : ¬ crlf <:+: q.requestLine :=
    fun hend => h.notMem_requestLine (by decide : lf ∈ crlf) (hend.subset (by decide))
  rw [readParts_two (parseBytes_started hne honeLine (h.parseRequestLine init)), List.nil_append,
    parseBytes_emptyLine verify rfl, if_neg hrest, parseBytes_body rfl hrest,
    parseBody_of_not_post (by exact hpost)]
  rfl

/-- The first part of a request line that can be taken for one has the right method and path. -/
theorem WellFormed.requestLine_cut (h : q.WellFormed) (had : a ++ d = q.requestLine ++ crlf)
    {r : HttpRequest} (hline : init.parseRequestLine a = some r) :
  ∃ v, a = q.method ++ space :: (q.target ++ space :: (ascii "HTTP/" ++ v)) ∧
    r = { init with method := q.method, path := q.target, version := v, state := .headers }
  := by
  have hspace : ∀ {xs : List Byte}, (∀ c ∈ xs, c ≠ space ∧ c ≠ cr ∧ c ≠ lf) → space ∉ xs :=
    fun hxs hmem => (hxs space hmem).1 rfl
  obtain ⟨m, p, v, rfl, hm, hp, -, rfl⟩ := parseRequestLine_cases hline
  simp only [requestLine, List.append_assoc, List.cons_append] at had
  obtain ⟨rfl, hrest⟩ := append_cons_inj_of_notMem hm (hspace h.method) had
  obtain ⟨rfl, -⟩ := append_cons_inj_of_notMem hp (hspace h.target) hrest
  exact ⟨v, rfl, rfl⟩

/-- A cut in the request line does no harm only at its end, if there are no headers and the body has
an empty first line. -/
theorem WellFormed.readsAs_requestLine_iff (h : q.WellFormed) (hpost : q.method ≠ ascii "POST")
    (verify : Verify) (had : a ++ d = q.requestLine ++ crlf) (ha : a ≠ []) (hd : d ≠ []) :
  q.ReadsAs verify a (d ++ (joinLines (q.headers.map headerLine) ++ (crlf ++ q.body))) ↔
    q.headers = [] ∧ firstLine q.body = [] ∧ a = q.requestLine
  := by
  have honeLine := not_infix_of_cut (h.notMem_requestLine (by decide)) had hd
  have hrest : joinLines (q.headers.map headerLine) ++ (crlf ++ q.body) ≠ [] := by simp [crlf]
  have hresult := h.readParts_requestLine hpost verify hrest
  constructor
  · rintro ⟨r, rest, hparts, hagrees⟩
    obtain rfl : a = q.requestLine := by
      cases hline : init.parseRequestLine a with
      | none => simp [readParts, parseBytes_refused ha honeLine hline] at hparts
      | some r₁ =>
          obtain ⟨v, hav, rfl⟩ := h.requestLine_cut had hline
          rw [readParts_two (parseBytes_started ha honeLine hline)] at hparts
          have hversion := parseBytes_version (by exact hpost) (by simp [parsePath]) hparts
          obtain rfl : v = q.version := hversion.symm.trans hagrees.version
          apply hav
    obtain rfl := List.append_cancel_left had
    obtain ⟨rfl, -⟩ : _ = r ∧ _ := by simpa using hresult.symm.trans hparts
    have hheaders : q.headers = [] := h.headers_of_header (List.nil_append _).symm hagrees.header
    refine ⟨hheaders, hagrees.body.symm.trans ?_, rfl⟩
    rw [hheaders]
    apply firstLine_crlf q.body
  · rintro ⟨hheaders, hbody, rfl⟩
    obtain rfl := List.append_cancel_left had
    refine ⟨_, _, hresult, rfl, rfl, rfl, rfl, ?_, ?_⟩
    · simp [complete, parsed, hheaders]
      rfl
    · rw [hheaders]
      exact (firstLine_crlf q.body).trans hbody.symm

/-! ### All cuts -/

/-- A result of reading a part of the message that differs from the message at most in the body. -/
theorem readsAs_of_complete {x rest : List Byte}
    (h : readParts verify init [] [a, b] = some (true, q.complete x, rest)) :
  q.ReadsAs verify a b ↔ firstLine x = firstLine q.body
  := by
  constructor
  · rintro ⟨r, rest', hparts, hagrees⟩
    obtain ⟨rfl, -⟩ : q.complete x = r ∧ _ := by simpa using h.symm.trans hparts
    apply hagrees.body
  · intro hline
    exact ⟨_, _, h, rfl, rfl, rfl, rfl, rfl, hline⟩

theorem WellFormed.readsAs_head_iff (h : q.WellFormed) (hpost : q.method ≠ ascii "POST")
    (verify : Verify) (x b : List Byte) :
  q.ReadsAs verify (q.head ++ x) b ↔ firstLine x = firstLine q.body
  := by
  apply readsAs_of_complete
  · rw [h.readParts_head, received_of_not_post hpost]
    rfl

theorem WellFormed.readsAs_cutAtLine (h : q.WellFormed) (hpost : q.method ≠ ascii "POST")
    (hcut : q.serialize = a ++ b) (ha : q.CutAtLine a) :
  q.ReadsAs verify a b
  := by
  have hparts := h.readParts_cutAtLine verify ha b
  rw [← hcut, serialize, h.parseBytes_head, received_of_not_post hpost] at hparts
  exact (readsAs_of_complete hparts).mpr rfl

/-- A cut that does no harm is one of these. -/
theorem WellFormed.cut_of_reads (h : q.WellFormed) (hpost : q.method ≠ ascii "POST")
    (hcut : q.serialize = a ++ b) (ha : a ≠ []) (hreads : q.ReadsAs verify a b) :
  q.CutAtLine a ∨ q.CutInBody a ∨ (firstLine q.body = [] ∧ q.CutAtEnd a)
  := by
  rcases serialize_cut hcut with
    ⟨d, had, hd, rfl⟩ | ⟨hs, k, hs', c, d, hheaders, hcd, hd, rfl, rfl⟩ | ⟨c, rfl, hcb⟩
  · obtain ⟨hheaders, hbody, rfl⟩ := (h.readsAs_requestLine_iff hpost verify had ha hd).mp hreads
    refine Or.inr (Or.inr ⟨hbody, Or.inr (Or.inr (Or.inl ?_))⟩)
    simp [lines, hheaders]
  · by_cases hc : c = []
    · exact Or.inl ⟨hs, k :: hs', hheaders, by rw [hc, List.append_nil]⟩
    · obtain ⟨rfl, hbody, hgood⟩ := (h.readsAs_header_iff hpost hheaders hcd hc hd).mp hreads
      refine Or.inr (Or.inr ⟨hbody, Or.inr (Or.inr ?_)⟩)
      rcases hgood with rfl | ⟨hvalue, rfl⟩
      · refine Or.inl ?_
        simp [lines, hheaders]
      · refine Or.inr ⟨hs, k.1, ?_, rfl⟩
        rw [hheaders, ← hvalue]
  · rcases c with _ | ⟨e, _ | ⟨e', x⟩⟩
    · exact Or.inl ⟨q.headers, [], by simp, by simp [lines]⟩
    · obtain ⟨rfl, -⟩ : e = cr ∧ _ := by simpa [crlf] using hcb
      have hbody := (readsAs_of_complete (h.readParts_emptyLine verify b)).mp hreads
      exact Or.inr (Or.inr ⟨hbody.symm, Or.inr (Or.inl rfl)⟩)
    · obtain ⟨rfl, rfl, -⟩ : e = cr ∧ e' = lf ∧ _ := by simpa [crlf] using hcb
      have hhead : joinLines q.lines ++ cr :: lf :: x = q.head ++ x := by simp [head, crlf]
      rw [hhead] at hreads ⊢
      have hbody := (h.readsAs_head_iff hpost verify x b).mp hreads
      by_cases hx : x = []
      · subst hx
        exact Or.inr (Or.inr ⟨hbody.symm, Or.inl (by simp)⟩)
      · exact Or.inr (Or.inl ⟨x, hx, rfl, hbody⟩)

/-- The cuts around the empty line do no harm if the first line of the body is empty. -/
theorem WellFormed.readsAs_cutAtEnd (h : q.WellFormed) (hpost : q.method ≠ ascii "POST")
    (hcut : q.serialize = a ++ b) (hbody : firstLine q.body = []) (ha : q.CutAtEnd a) :
  q.ReadsAs verify a b
  := by
  rcases ha with rfl | rfl | hend | ⟨hs, n, hheaders, rfl⟩
  · have hreads := (h.readsAs_head_iff hpost verify [] b).mpr hbody.symm
    rwa [List.append_nil] at hreads
  · exact (readsAs_of_complete (h.readParts_emptyLine verify b)).mpr hbody.symm
  · obtain rfl : b = crlf ++ (crlf ++ q.body) := by
      rw [serialize, head, ← hend] at hcut
      simpa using hcut.symm
    rcases List.eq_nil_or_concat q.headers with hheaders | ⟨hs, k, hheaders⟩
    · obtain rfl : a = q.requestLine := by simpa [lines, hheaders] using hend
      have hreads := (h.readsAs_requestLine_iff hpost verify rfl (by simp [requestLine])
        (by simp [crlf])).mpr ⟨hheaders, hbody, rfl⟩
      simpa [hheaders] using hreads
    · rw [List.concat_eq_append] at hheaders
      obtain rfl : a = joinLines (q.requestLine :: hs.map headerLine) ++ headerLine k := by
        simpa [lines, hheaders, ← List.append_assoc] using hend
      exact (h.readsAs_header_iff hpost hheaders rfl (by simp [headerLine]) (by simp [crlf])).mpr
        ⟨rfl, hbody, Or.inl rfl⟩
  · obtain rfl : b = [space] ++ crlf ++ (crlf ++ q.body) := by
      simpa [serialize, head, lines, hheaders, headerLine] using hcut.symm
    have hcd : n ++ [colon] ++ ([space] ++ crlf) = headerLine (n, []) ++ crlf := by
      simp [headerLine]
    exact (h.readsAs_header_iff hpost hheaders hcd (by simp) (by simp [crlf])).mpr
      ⟨rfl, hbody, Or.inr ⟨rfl, rfl⟩⟩

/-- For a request that is not posted, the cuts that do no harm. -/
theorem WellFormed.readsAs_iff (h : q.WellFormed) (hpost : q.method ≠ ascii "POST")
    (verify : Verify) (hcut : q.serialize = a ++ b) (ha : a ≠ []) :
  q.ReadsAs verify a b ↔
    q.CutAtLine a ∨ q.CutInBody a ∨ (firstLine q.body = [] ∧ q.CutAtEnd a)
  := by
  constructor
  · apply h.cut_of_reads hpost hcut ha
  · rintro (hline | ⟨x, -, rfl, hx⟩ | ⟨hbody, hend⟩)
    · apply h.readsAs_cutAtLine hpost hcut hline
    · exact (h.readsAs_head_iff hpost verify x b).mpr hx
    · apply h.readsAs_cutAtEnd hpost hcut hbody hend

/-! ### The calls of `parse` -/

variable {buff : Buffer}

/-- What is behind the head is read the same if it has the same first line. -/
theorem received_of_firstLine {x y : List Byte} (hx : x ≠ []) (hy : y ≠ [])
    (hline : firstLine x = firstLine y) (verify : Verify) (q : Message) :
  (q.received verify x).map (fun p => (p.1, p.2.1)) = (q.received verify y).map fun p => (p.1, p.2.1)
  := by
  rw [received, received, if_neg hx, if_neg hy, hline, Option.map_map, Option.map_map]
  rfl

/-- A cut behind the end of a line, or in the body behind its first line, changes neither the request
nor the answers. -/
theorem WellFormed.readParts_of_cut (h : q.WellFormed) (verify : Verify)
    (hcut : q.serialize = a ++ b) (ha : q.CutAtLine a ∨ q.CutInBody a) :
  (readParts verify init [] [a, b]).map (fun p => (p.1, p.2.1))
    = (q.received verify q.body).map fun p => (p.1, p.2.1)
  := by
  rcases ha with hline | ⟨x, hx, rfl, hfirst⟩
  · rw [h.readParts_cutAtLine verify hline, ← hcut, serialize, h.parseBytes_head]
  · have hbody : q.body = x ++ b := by simpa [serialize] using hcut
    have hne : q.body ≠ [] := by simp [hbody, hx]
    rw [h.readParts_head, Option.map_map, ← received_of_firstLine hx hne hfirst]
    rfl

/-- A result of `parse` by its outcome. -/
theorem exists_of_outcome {p : Option (Bool × HttpRequest × Buffer)} {ok : Bool} {r : HttpRequest}
    {rest : List Byte} (h : p.map outcome = some (ok, r, rest)) :
  ∃ b', p = some (ok, r, b')
  := by
  obtain ⟨⟨ok', r', b'⟩, rfl, hout⟩ := Option.map_eq_some_iff.mp h
  simp only [outcome, Prod.mk.injEq] at hout
  obtain ⟨rfl, rfl, -⟩ := hout
  exact ⟨b', rfl⟩

/-- A message that comes in two parts gives the request that it gives in one, and no call of `parse`
returns false, if the first part ends behind the end of a line of the head, or in the body behind its
first line. For a request that is not posted this, and the cuts around the empty line before a body
with an empty first line, are all cuts of that kind. -/
theorem parse_inParts (verify : Verify) (h : q.WellFormed) (hcut : q.serialize = a ++ b)
    (ha : a ≠ []) (hb : b ≠ []) (hInv : buff.Inv) (hempty : buff.contents = []) :
  (q.CutAtLine a ∨ q.CutInBody a →
      (parseParts verify init buff [a, b]).map (fun p => (p.1, p.2.1))
        = (parseParts verify init buff [q.serialize]).map (fun p => (p.1, p.2.1)) ∧
      ∀ p, parseParts verify init buff [a, b] = some p → p.1 = true) ∧
    (q.method ≠ ascii "POST" →
      ∃ r b₁, parseParts verify init buff [q.serialize] = some (true, r, b₁) ∧
        ((∃ r' b₂, parseParts verify init buff [a, b] = some (true, r', b₂) ∧ Agrees r' r) ↔
          q.CutAtLine a ∨ q.CutInBody a ∨ (firstLine q.body = [] ∧ q.CutAtEnd a)))
  := by
  have hone : (parseParts verify init buff [q.serialize]).map outcome = q.received verify q.body := by
    rw [parseParts_eq hInv (by simp [serialize_ne_nil]), hempty, readParts_one, List.nil_append,
      serialize, h.parseBytes_head]
  have htwo : (parseParts verify init buff [a, b]).map outcome = readParts verify init [] [a, b] := by
    rw [parseParts_eq hInv (by simp [ha, hb]), hempty]
  constructor
  · intro hgood
    have hcut' := h.readParts_of_cut verify hcut hgood
    have hanswer : ∀ p : Option (Bool × HttpRequest × Buffer),
        p.map (fun p => (p.1, p.2.1)) = (p.map outcome).map fun p => (p.1, p.2.1) := by
      intro p
      cases p <;> rfl
    refine ⟨by rw [hanswer, hanswer, htwo, hone, hcut'], ?_⟩
    rintro ⟨ok, r, b₂⟩ hparts
    rw [← htwo, hparts] at hcut'
    obtain ⟨⟨ok', r', rest⟩, hreceived, heq⟩ := Option.map_eq_some_iff.mp hcut'.symm
    obtain ⟨rfl, -⟩ := received_state hreceived
    exact (Prod.mk.inj heq).1.symm
  · intro hpost
    rw [received_of_not_post hpost] at hone
    obtain ⟨b₁, hparts₁⟩ := exists_of_outcome hone
    refine ⟨q.complete q.body, b₁, hparts₁, ?_⟩
    rw [← h.readsAs_iff hpost verify hcut ha]
    constructor
    · rintro ⟨r', b₂, hparts, hagrees⟩
      rw [hparts] at htwo
      exact ⟨r', _, htwo.symm, hagrees⟩
    · rintro ⟨r', rest, hparts, hagrees⟩
      obtain ⟨b₂, hparts₂⟩ := exists_of_outcome (htwo.trans hparts)
      exact ⟨r', b₂, hparts₂, hagrees⟩

theorem parse_inParts_sample :
  ∃ r b₁ r' b₂,
    parseParts (fun _ _ _ => true) init (Buffer.new 1) [sample.serialize] = some (true, r, b₁) ∧
      parseParts (fun _ _ _ => true) init (Buffer.new 1)
        [sample.requestLine ++ crlf, sample.serialize.drop (sample.requestLine ++ crlf).length]
          = some (true, r', b₂) ∧
      Agrees r' r
  := by
  have hcut : sample.serialize = sample.requestLine ++ crlf ++
      sample.serialize.drop (sample.requestLine ++ crlf).length := by decide
  obtain ⟨-, hparts⟩ := parse_inParts (fun _ _ _ => true) (by decide) hcut (by decide) (by decide)
    (Buffer.new_inv (le_refl 1)) (Buffer.contents_new 1)
  obtain ⟨r, b₁, hone, hiff⟩ := hparts (by decide)
  obtain ⟨r', b₂, htwo, hagrees⟩ := hiff.mpr (Or.inl ⟨[], sample.headers, rfl, by simp⟩)
  exact ⟨r, b₁, r', b₂, hone, htwo, hagrees⟩

/-- A request line that comes in two parts is refused. -/
theorem parse_cut_refused :
  next.WellFormed ∧ next.serialize = ascii "GE" ++ next.serialize.drop 2 ∧
    (parseParts (fun _ _ _ => true) init (Buffer.new 1)
      [ascii "GE", next.serialize.drop 2]).map (fun p => p.1) = some false
  := ⟨by decide, by decide, by decide⟩

end Message

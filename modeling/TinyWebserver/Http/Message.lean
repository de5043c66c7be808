import TinyWebserver.Http.Parsing

/-!
# Request messages

A `Message` is a request as its sender means it, and `serialize` is how it is sent: the request
line, a line for each header, an empty line and the body. The main result, `parseBytes_serialize`,
is what the parser makes of a well formed message and of the bytes that follow it.
-/

open Search

/-- A request as its sender means it. -/
structure Message where
  method : List Byte
  target : List Byte
  version : List Byte
  headers : List (List Byte × List Byte)
  body : List Byte

namespace Message

/-- The request line, without its end. -/
def requestLine (q : Message) : List Byte :=
  q.method ++ space :: (q.target ++ space :: (ascii "HTTP/" ++ q.version))

/-- The line of a header, without its end. -/
def headerLine (h : List Byte × List Byte) : List Byte := h.1 ++ colon :: space :: h.2

/-- The request line and the lines of the headers, without their ends. -/
def lines (q : Message) : List (List Byte) := q.requestLine :: q.headers.map headerLine

/-- Lines, each with its end. -/
def joinLines (ls : List (List Byte)) : List Byte := ls.flatMap (· ++ crlf)

/-- The lines of the message up to the empty line, with their ends. -/
def head (q : Message) : List Byte := joinLines q.lines ++ crlf

/-- The bytes of the message. -/
def serialize (q : Message) : List Byte := q.head ++ q.body

/-- No part of the message contains what ends the part. -/
structure WellFormed (q : Message) : Prop where
  method : ∀ c ∈ q.method, c ≠ space ∧ c ≠ cr ∧ c ≠ lf
  target : ∀ c ∈ q.target, c ≠ space ∧ c ≠ cr ∧ c ≠ lf
  version : ∀ c ∈ q.version, c ≠ space ∧ c ≠ cr ∧ c ≠ lf
  name : ∀ h ∈ q.headers, ∀ c ∈ h.1, c ≠ colon ∧ c ≠ cr ∧ c ≠ lf
  value : ∀ h ∈ q.headers, ∀ c ∈ h.2, c ≠ cr ∧ c ≠ lf
  names : (q.headers.map Prod.fst).Nodup

instance WellFormed.decidable (q : Message) : Decidable q.WellFormed :=
  decidable_of_iff
    (q.method.all (fun c => c ≠ space ∧ c ≠ cr ∧ c ≠ lf) = true ∧
      q.target.all (fun c => c ≠ space ∧ c ≠ cr ∧ c ≠ lf) = true ∧
      q.version.all (fun c => c ≠ space ∧ c ≠ cr ∧ c ≠ lf) = true ∧
      q.headers.all (fun h => h.1.all fun c => c ≠ colon ∧ c ≠ cr ∧ c ≠ lf) = true ∧
      q.headers.all (fun h => h.2.all fun c => c ≠ cr ∧ c ≠ lf) = true ∧
      (q.headers.map Prod.fst).Nodup) <| by
    simp only [List.all_eq_true, decide_eq_true_eq]
    exact ⟨fun ⟨hmethod, htarget, hversion, hname, hvalue, hnames⟩ =>
        ⟨hmethod, htarget, hversion, hname, hvalue, hnames⟩,
      fun ⟨hmethod, htarget, hversion, hname, hvalue, hnames⟩ =>
        ⟨hmethod, htarget, hversion, hname, hvalue, hnames⟩⟩

/-- The message posts a form, whose body the parser decodes. -/
def IsForm (q : Message) : Prop :=
  q.method = ascii "POST" ∧
    (ascii "Content-Type", ascii "application/x-www-form-urlencoded") ∈ q.headers

instance (q : Message) : Decidable q.IsForm := inferInstanceAs (Decidable (_ ∧ _))

/-! ### What the parser knows of a message -/

/-- The map of the headers. -/
def headerMap (hs : List (List Byte × List Byte)) (m : StringMap) : StringMap :=
  hs.foldl (fun m h => m.set h.1 h.2) m

/-- The request behind the request line. -/
def started (q : Message) : HttpRequest :=
  HttpRequest.parsePath
    { HttpRequest.init with
      method := q.method, path := q.target, version := q.version, state := .headers }

/-- The request behind the lines of the headers. -/
def parsed (q : Message) : HttpRequest :=
  { q.started with header := headerMap q.headers .empty }

theorem headerMap_of_notMem {hs : List (List Byte × List Byte)} {n : List Byte}
    (h : n ∉ hs.map Prod.fst) (m : StringMap) :
  headerMap hs m n = m n
  := by
  induction hs generalizing m with
  | nil => rfl
  | cons k hs ih =>
      simp only [List.map_cons, List.mem_cons, not_or] at h
      rw [headerMap, List.foldl_cons]
      exact (ih h.2 _).trans (Function.update_of_ne h.1 _ _)

/-- What is in the map comes from a header or was there before. -/
theorem mem_or_of_headerMap {hs : List (List Byte × List Byte)} {m : StringMap}
    {n v : List Byte} (h : headerMap hs m n = some v) :
  (n, v) ∈ hs ∨ m n = some v
  := by
  induction hs generalizing m with
  | nil => exact Or.inr h
  | cons k hs ih =>
      cases ih h with
      | inl hmem => exact Or.inl (List.mem_cons_of_mem k hmem)
      | inr hset =>
          by_cases hn : n = k.1
          · subst hn
            obtain rfl : k.2 = v := by simpa [StringMap.set] using hset
            exact Or.inl List.mem_cons_self
          · exact Or.inr (by simpa [StringMap.set, hn] using hset)

/-- Headers with distinct names are all in the map. -/
theorem headerMap_of_mem {hs : List (List Byte × List Byte)} (hnames : (hs.map Prod.fst).Nodup)
    {h : List Byte × List Byte} (hmem : h ∈ hs) (m : StringMap) :
  headerMap hs m h.1 = some h.2
  := by
  induction hs generalizing m with
  | nil => simp at hmem
  | cons k hs ih =>
      simp only [List.map_cons, List.nodup_cons] at hnames
      rw [headerMap, List.foldl_cons]
      cases List.mem_cons.mp hmem with
      | inl heq =>
          subst heq
          exact (headerMap_of_notMem hnames.1 _).trans (Function.update_self _ _ _)
      | inr hrest => apply ih hnames.2 hrest _

/-! ### The lines of a message -/

/-- A name and a value are read back from their line. -/
theorem parseHeader_headerLine {k : List Byte × List Byte} (hname : ∀ c ∈ k.1, c ≠ colon)
    (hvalue : ∀ c ∈ k.2, c ≠ cr ∧ c ≠ lf) (r : HttpRequest) :
  r.parseHeader (headerLine k) = { r with header := r.header.set k.1 k.2 }
  := by
  have hname' : ∀ c ∈ k.1, decide (c ≠ colon) = true := by simpa using hname
  have hvalue' : k.2.all (fun c => c ≠ cr ∧ c ≠ lf) = true := by simpa using hvalue
  have hmatch : Regex.fullMatch HttpRequest.headerPattern (headerLine k) = some [k.1, k.2] := by
    simp only [HttpRequest.headerPattern, headerLine]
    rw [Regex.fullMatch_group_append (by simp) hname', Regex.fullMatch, if_pos rfl,
      Regex.fullMatch_group_end, if_pos hvalue']
    rfl
  rw [HttpRequest.parseHeader, hmatch]

namespace WellFormed

variable {q : Message}

/-- The request line has no byte of an end of line in it. -/
theorem notMem_requestLine (h : q.WellFormed) {e : Byte} (he : e ∈ crlf) :
  e ∉ q.requestLine
  := by
  obtain ⟨hspace, hhttp, hend⟩ : e ≠ space ∧ e ∉ ascii "HTTP/" ∧ ¬ (e ≠ cr ∧ e ≠ lf) := by
    simp only [crlf, List.mem_cons, List.not_mem_nil, or_false] at he
    rcases he with rfl | rfl <;> decide
  simp only [requestLine, List.mem_append, List.mem_cons, not_or]
  refine ⟨fun hc => hend (h.method e hc).2, hspace, fun hc => hend (h.target e hc).2, hspace,
    hhttp, fun hc => hend (h.version e hc).2⟩

/-- The line of a header has no byte of an end of line in it. -/
theorem notMem_headerLine (h : q.WellFormed) {k : List Byte × List Byte} (hk : k ∈ q.headers)
    {e : Byte} (he : e ∈ crlf) :
  e ∉ headerLine k
  := by
  obtain ⟨hcolon, hspace, hend⟩ : e ≠ colon ∧ e ≠ space ∧ ¬ (e ≠ cr ∧ e ≠ lf) := by
    simp only [crlf, List.mem_cons, List.not_mem_nil, or_false] at he
    rcases he with rfl | rfl <;> decide
  simp only [headerLine, List.mem_append, List.mem_cons, not_or]
  refine ⟨fun hc => hend (h.name k hk e hc).2, hcolon, hspace,
    fun hc => hend (h.value k hk e hc)⟩

/-- The request line of a message is read back. -/
theorem parseRequestLine (h : q.WellFormed) (r : HttpRequest) :
  r.parseRequestLine q.requestLine
    = some { r with
      method := q.method, path := q.target, version := q.version, state := .headers }
  := by
  have hmethod : ∀ c ∈ q.method, decide (c ≠ space) = true := by simpa using fun c hc => (h.method c hc).1
  have htarget : ∀ c ∈ q.target, decide (c ≠ space) = true := by simpa using fun c hc => (h.target c hc).1
  have hversion : q.version.all (· ≠ space) = true := by simpa using fun c hc => (h.version c hc).1
  have hmatch : Regex.fullMatch HttpRequest.requestLinePattern q.requestLine
      = some [q.method, q.target, q.version] := by
    simp only [HttpRequest.requestLinePattern, requestLine, List.cons_append, List.nil_append]
    rw [Regex.fullMatch_group_append (by simp) hmethod, Regex.fullMatch_group_append (by simp) htarget,
      Regex.fullMatch_chars, Regex.fullMatch_group_end, if_pos hversion]
    rfl
  rw [HttpRequest.parseRequestLine, hmatch]

/-- The line of a header is read back. -/
theorem parseHeader (h : q.WellFormed) {k : List Byte × List Byte} (hk : k ∈ q.headers)
    (r : HttpRequest) :
  r.parseHeader (headerLine k) = { r with header := r.header.set k.1 k.2 }
  := parseHeader_headerLine (fun c hc => (h.name k hk c hc).1) (h.value k hk) r

/-- The request line of a message and its end are taken. -/
theorem parseBytes_requestLine (h : q.WellFormed) (verify : HttpRequest.Verify)
    (rest : List Byte) :
  HttpRequest.parseBytes verify .init (q.requestLine ++ crlf ++ rest)
    = HttpRequest.parseBytes verify q.started rest
  := by
  apply HttpRequest.parseBytes_line (h.notMem_requestLine (by decide))
  · apply ParseState.noConfusion
  · rw [HttpRequest.parseLine]
    simp only [HttpRequest.init, h.parseRequestLine]
    rfl

/-- Lines of headers of a message and their ends are taken. -/
theorem parseBytes_headerLines (h : q.WellFormed) (verify : HttpRequest.Verify)
    {hs : List (List Byte × List Byte)} (hmem : hs ⊆ q.headers) {r : HttpRequest}
    (hr : r.state = .headers) (rest : List Byte) :
  HttpRequest.parseBytes verify r (joinLines (hs.map headerLine) ++ rest)
    = HttpRequest.parseBytes verify { r with header := headerMap hs r.header } rest
  := by
  induction hs generalizing r with
  | nil => rfl
  | cons k hs ih =>
      rw [List.cons_subset] at hmem
      have hjoin : joinLines ((k :: hs).map headerLine) ++ rest
          = headerLine k ++ crlf ++ (joinLines (hs.map headerLine) ++ rest) := by
        simp [joinLines]
      have hlong : ¬ (headerLine k).length + 2 +
          (joinLines (hs.map headerLine) ++ rest).length ≤ 2 := by
        simp only [headerLine, List.length_append, List.length_cons]
        omega
      have hline : HttpRequest.parseLine verify r (headerLine k)
          ((headerLine k).length + 2 + (joinLines (hs.map headerLine) ++ rest).length)
            = some (some { r with header := r.header.set k.1 k.2 }) := by
        simp only [HttpRequest.parseLine, hr, h.parseHeader hmem.1, if_neg hlong]
      rw [hjoin, HttpRequest.parseBytes_line (h.notMem_headerLine hmem.1 (by decide)) _ hline]
      · exact ih hmem.2 hr
      · simp [hr]

end WellFormed

/-- The empty line ends the headers: without bytes behind it the request is finished, otherwise
they are the body. -/
theorem parseBytes_emptyLine (verify : HttpRequest.Verify) {r : HttpRequest}
    (hr : r.state = .headers) (rest : List Byte) :
  HttpRequest.parseBytes verify r (crlf ++ rest)
    = HttpRequest.parseBytes verify
        { r with state := if rest = [] then .finish else .body } rest
  := by
  apply HttpRequest.parseBytes_line (List.not_mem_nil : cr ∉ ([] : List Byte))
  · simp [hr]
  · have hmatch : Regex.fullMatch HttpRequest.headerPattern [] = none := by decide
    simp only [HttpRequest.parseLine, hr, HttpRequest.parseHeader, hmatch, List.length_nil]
    cases rest with
    | nil => rfl
    | cons c rest =>
        rw [if_neg (by simp)]
        simp

/-- What the parser makes of the bytes `rest` behind the head of the message: none of them is a
request without a body, and otherwise their first line is the body. -/
def received (verify : HttpRequest.Verify) (q : Message) (rest : List Byte) :
    Option (Bool × HttpRequest × List Byte) :=
  if rest = [] then some (true, { q.parsed with state := .finish }, [])
  else
    (HttpRequest.parseBody verify { q.parsed with state := .body }
      (HttpRequest.firstLine rest)).map fun r => (true, r, HttpRequest.afterLine rest)

/-- Behind the headers of the message the parser comes to `received`. -/
theorem parseBytes_parsed (verify : HttpRequest.Verify) (q : Message) (rest : List Byte) :
  HttpRequest.parseBytes verify q.parsed (crlf ++ rest) = q.received verify rest
  := by
  rw [parseBytes_emptyLine verify rfl, received]
  split
  · rename_i hrest
    rw [hrest, HttpRequest.parseBytes_nil]
  · rename_i hrest
    apply HttpRequest.parseBytes_body rfl hrest

/-- What the parser makes of the head of a well formed message and any bytes behind it. -/
theorem WellFormed.parseBytes_head {q : Message} (h : q.WellFormed) (verify : HttpRequest.Verify)
    (rest : List Byte) :
  HttpRequest.parseBytes verify .init (q.head ++ rest) = q.received verify rest
  := by
  have hhead : q.head ++ rest
      = q.requestLine ++ crlf ++ (joinLines (q.headers.map headerLine) ++ (crlf ++ rest)) := by
    simp [head, lines, joinLines]
  rw [hhead, h.parseBytes_requestLine, h.parseBytes_headerLines verify (List.Subset.refl _) rfl]
  apply parseBytes_parsed

/-- The parser keeps a body that is not a form as it is. -/
theorem WellFormed.parseBody {q : Message} (h : q.WellFormed) (hform : ¬ q.IsForm)
    (verify : HttpRequest.Verify) (line : List Byte) :
  ∃ m, HttpRequest.parseBody verify { q.parsed with state := .body } line
      = some { q.parsed with body := line, header := m, state := .finish } ∧
    ∀ k ∈ q.headers, m k.1 = some k.2
  := by
  have hgiven : ∀ k ∈ q.headers, q.parsed.header k.1 = some k.2 :=
    fun k hk => headerMap_of_mem h.names hk .empty
  simp only [HttpRequest.parseBody, HttpRequest.parsePost]
  by_cases hpost : q.parsed.method = ascii "POST"
  · have htype : q.parsed.header.touch (ascii "Content-Type") (ascii "Content-Type")
        ≠ some (ascii "application/x-www-form-urlencoded") := by
      intro heq
      apply hform ⟨hpost, ?_⟩
      cases hlookup : q.parsed.header (ascii "Content-Type") with
      | none =>
          rw [StringMap.touch_self, hlookup] at heq
          exact absurd heq (by decide)
      | some v =>
          rw [StringMap.touch_self, hlookup] at heq
          obtain rfl : v = _ := by simpa using heq
          exact (mem_or_of_headerMap hlookup).resolve_right nofun
    rw [if_pos hpost, if_neg htype]
    exact ⟨_, rfl, fun k hk => StringMap.touch_of_some _ (hgiven k hk)⟩
  · rw [if_neg hpost]
    exact ⟨_, rfl, hgiven⟩

end Message

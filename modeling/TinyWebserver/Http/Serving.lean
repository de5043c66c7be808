import TinyWebserver.Http.Framing
import TinyWebserver.Http.Lengths
import TinyWebserver.Http.ResponseText

/-!
# Serving a page

A client sends a message for a page of the resource directory, and the kernel accepts the response in any
number of parts. What it is sent is the reply with the page: the status line for 200, the header fields for
the page and its length, and the bytes of the file, or the beginning of it if the kernel accepts no more,
`serve_page`. The buffers, the parser, the mapping and the two vectors are all between the message and the
reply, and none of them shows. The message has to be there when `read` is called, and its calls of `readv`
deliver it to the last byte: one call, as nothing ever sets `isET`.
-/

open Memory Transition

/-! ### The page that a message asks for -/

namespace Message

open HttpRequest

variable {verify : Verify} {q : Message}

/-- The path of the page that the message asks for. -/
def path (q : Message) : List Byte := (parsePath { init with path := q.target }).path

/-- The message asks for a connection that is kept. -/
def IsAlive (q : Message) : Prop :=
  (ascii "Connection", ascii "keep-alive") ∈ q.headers ∧ q.version = ascii "1.1"

instance (q : Message) : Decidable q.IsAlive := inferInstanceAs (Decidable (_ ∧ _))

theorem WellFormed.headerMap_iff (h : q.WellFormed) (k : List Byte × List Byte) :
  headerMap q.headers .empty k.1 = some k.2 ↔ k ∈ q.headers
  := by
  constructor
  · intro hk
    cases mem_or_of_headerMap hk with
    | inl hmem => exact hmem
    | inr hempty => cases hempty
  · intro hmem
    apply headerMap_of_mem h.names hmem

/-- What `ParsePost_` does to a message that is no form. -/
theorem WellFormed.parsePost (h : q.WellFormed) (hform : ¬ q.IsForm) (verify : Verify) {r : HttpRequest}
    (hmethod : r.method = q.method) (hheader : r.header = headerMap q.headers .empty) :
  ∃ m, r.parsePost verify = some { r with header := m } ∧
    ∀ n, n ≠ ascii "Content-Type" → m n = r.header n
  := by
  rw [HttpRequest.parsePost]
  by_cases hpost : r.method = ascii "POST"
  · rw [if_pos hpost]
    have htype : r.header.touch (ascii "Content-Type") (ascii "Content-Type")
        ≠ some (ascii "application/x-www-form-urlencoded") := by
      rw [StringMap.touch_self]
      intro heq
      cases hlookup : r.header (ascii "Content-Type") with
      | none =>
          rw [hlookup] at heq
          exact absurd heq (by decide)
      | some value =>
          rw [hlookup] at heq
          obtain rfl : value = ascii "application/x-www-form-urlencoded" := by simpa using heq
          apply hform
          refine ⟨hmethod.symm.trans hpost, (h.headerMap_iff _).mp ?_⟩
          rw [← hheader, hlookup]
    dsimp only
    rw [if_neg htype]
    refine ⟨_, rfl, ?_⟩
    intro n hn
    unfold StringMap.touch
    split
    · rfl
    · rw [StringMap.set, Function.update_of_ne hn]
  · rw [if_neg hpost]
    exact ⟨r.header, rfl, fun _ _ => rfl⟩

/-- The request that the parser makes of the message and the bytes behind its head asks for the page at
`path`, and for a connection that is kept if the message does. -/
def Asks (verify : Verify) (q : Message) (rest path : List Byte) : Prop :=
  ∃ r, q.received verify rest = some (true, r, afterLine rest) ∧ r.path = path ∧
    (r.isKeepAlive = true ↔ q.IsAlive)

/-- The parser keeps the header `Connection`. -/
theorem WellFormed.alive_iff (h : q.WellFormed) {m : StringMap}
    (hm : m (ascii "Connection") = headerMap q.headers .empty (ascii "Connection")) :
  m (ascii "Connection") = some (ascii "keep-alive") ∧ q.version = ascii "1.1" ↔ q.IsAlive
  := by
  rw [hm, IsAlive, ← h.headerMap_iff]

/-- A message that is no form asks for its page. -/
theorem WellFormed.asks (h : q.WellFormed) (hform : ¬ q.IsForm) (verify : Verify) (rest : List Byte) :
  q.Asks verify rest q.path
  := by
  unfold Asks Message.received
  split
  · rename_i hrest
    refine ⟨{ q.parsed with state := .finish }, by rw [hrest, afterLine_nil], rfl, ?_⟩
    rw [isKeepAlive, decide_eq_true_eq]
    apply h.alive_iff (m := q.parsed.header) rfl
  · let r : HttpRequest := { q.parsed with state := .body, body := firstLine rest }
    obtain ⟨m, hpost, hm⟩ := h.parsePost hform verify (r := r) rfl rfl
    refine ⟨{ r with header := m, state := .finish }, ?_, rfl, ?_⟩
    · have hbody : HttpRequest.parseBody verify { q.parsed with state := .body } (firstLine rest)
          = some { r with header := m, state := .finish } := by
        rw [HttpRequest.parseBody, hpost]
        rfl
      rw [hbody]
      rfl
    · rw [isKeepAlive, decide_eq_true_eq]
      apply h.alive_iff
      apply hm _ (by decide)

end Message

/-! ### The reply with a page -/

/-- The file `file` is there under a name: others can read it, and it can be opened and mapped. -/
structure FileSystem.Has (fs : FileSystem) (name file : List Byte) : Prop where
  stat : ∃ s, fs.stat name = some s ∧ s.isDir = false ∧ s.othersRead = true ∧ s.size = file.length
  opens : fs.opens name = true
  mmap : file ≠ [] → ∃ mapped, fs.mmap name file.length = some mapped ∧ mapped.1 = file

/-- The reply with a page. -/
def Reply.page (r : HttpResponse) (file : List Byte) : Reply :=
  ⟨HttpResponse.statusLine (200, ascii "OK"), r.headerFields ++ [HttpResponse.lengthField file.length], file⟩

namespace HttpResponse

/-- The response for a path of a directory, before it is made. -/
def found (srcDir path : List Byte) (isKeepAlive : Bool) : HttpResponse :=
  ⟨200, isKeepAlive, path, srcDir, none, ⟨0, 0⟩⟩

variable {fs : FileSystem} {file : List Byte} {r : HttpResponse}

/-- `AddContent_` for a file that is there. -/
theorem addContent_page (hfile : fs.Has r.fileName file)
    (hsize : r.mmFileStat.size = file.length) :
  ∃ r' strs, strs.flatten ++ r'.file.getD [] = (lengthField file.length).text ++ crlf ++ file ∧
    r'.Mapped ∧ r'.fileLen = file.length ∧ Buffer.Appends (r.addContent fs) r' strs
  := by
  have hlength : ascii "Content-length: " = ascii "Content-length" ++ ascii ": " := by decide
  unfold addContent
  simp only [hfile.opens, if_true]
  by_cases hempty : file = []
  · subst hempty
    simp only [hsize, List.length_nil, if_true]
    refine ⟨{ r with mmFile := none }, _, ?_, by simp [Mapped], by simpa [fileLen] using hsize,
      Buffer.appends_append _ _⟩
    have htext : ascii "Content-length: 0" ++ crlf ++ crlf = (lengthField 0).text ++ crlf := by decide
    simp only [HttpResponse.file, Option.getD_none, List.flatten_cons, List.flatten_nil, List.append_nil,
      htext]
  · have hpos : r.mmFileStat.size ≠ 0 := by simpa [hsize] using hempty
    obtain ⟨mapped, hmap, rfl⟩ : ∃ mapped, fs.mmap r.fileName r.mmFileStat.size = some mapped ∧
        mapped.1 = file := by
      rw [hsize]
      apply hfile.mmap hempty
    simp only [if_neg hpos, hmap]
    refine ⟨{ r with mmFile := some mapped.1 }, _, ?_, ?_, hsize, Buffer.appends_append _ _⟩
    · simp only [HttpResponse.file, Option.getD_some, List.flatten_cons, List.flatten_nil,
        List.append_nil, HeaderField.text, lengthField, hlength, hsize, List.append_assoc]
    · rintro file' ⟨⟩
      exact hsize.symm

/-- `MakeResponse` for a file that is there appends the reply with it, less the file that it maps. -/
theorem makeResponse_page {srcDir path : List Byte} {isKeepAlive : Bool}
    (hfile : fs.Has (found srcDir path isKeepAlive).fileName file) :
  ∃ r' strs, strs.flatten ++ r'.file.getD [] = (Reply.page (found srcDir path isKeepAlive) file).text ∧
    r'.Mapped ∧ r'.fileLen = file.length ∧
    Buffer.Appends ((found srcDir path isKeepAlive).makeResponse fs) r' strs
  := by
  obtain ⟨s, hstat, hdir, hread, hsize⟩ := hfile.stat
  generalize hfound : found srcDir path isKeepAlive = r at hfile hstat
  have hr : r.code = 200 := by simp [← hfound, found]
  have hcode : chooseCode r.code (some s) s = 200 := by simp [chooseCode, hdir, hread, hr]
  have herror : errorHtml fs { r with mmFileStat := s, code := 200 } = { r with mmFileStat := s } := by
    have hlookup : codePath.lookup 200 = none := by decide
    simp only [errorHtml, hlookup]
    rw [← hr]
  have hstate := addStateLine_text { r with mmFileStat := s }
  have hstatus : statusOf r.code = (200, ascii "OK") := by rw [hr]; rfl
  simp only [hstatus] at hstate
  obtain ⟨strs, hstrs, hheader⟩ := addHeader_text { r with mmFileStat := s, code := 200 }
  obtain ⟨r', strs', hbody, hmapped, hlen, hcontent⟩ :=
    addContent_page (r := { r with mmFileStat := s, code := 200 }) hfile hsize
  refine ⟨r', [lineText (200, ascii "OK")] ++ (strs ++ strs'), ?_, hmapped, hlen, ?_⟩
  · have hfields : headerFields { r with mmFileStat := s, code := 200 } = r.headerFields := rfl
    simp only [List.flatten_append, List.flatten_cons, List.flatten_nil, List.append_nil, hstrs, hfields,
      List.append_assoc, hbody]
    simp only [Reply.text, Reply.page, lineText, statusLine, List.flatMap_append, List.flatMap_cons,
      List.flatMap_nil, List.append_nil, List.append_assoc]
  · unfold makeResponse
    dsimp only
    rw [hstat, Option.getD_some, hcode, herror]
    refine hstate.bind (g := fun r buff => do
      let buff ← r.addHeader buff
      r.addContent fs buff) ?_
    intro buff
    dsimp only
    rw [hheader, Buffer.appendAll_append]
    cases buff.appendAll strs with
    | none => rfl
    | some buff₁ => apply hcontent

end HttpResponse

namespace HttpConn

open HttpResponse

variable {c : HttpConn}

/-! ### What is sent of a response -/

/-- The kernel accepts some bytes at a time, until it has accepted all `n`. -/
def AcceptsAll : ℕ → List Accepted → Prop
  | 0, _ => True
  | _ + 1, [] => False
  | _ + 1, .error _ :: _ => False
  | n + 1, .ok len :: results => 0 < len ∧ len ≤ n + 1 ∧ AcceptsAll (n + 1 - len) results

/-- What is sent is the beginning of what the vectors describe. -/
theorem Sending.sentBy_prefix (h : c.Sending) (results : List Accepted) :
  c.sentBy results <+: c.described
  := by
  induction results generalizing c with
  | nil => apply List.nil_prefix
  | cons res results ih =>
      cases res with
      | error e => apply List.nil_prefix
      | ok len =>
          by_cases hlen : len ≤ c.total
          · by_cases hpos : len = 0
            · simp [HttpConn.sentBy, HttpConn.writeTurn, hpos]
            · obtain ⟨hsend, hdescribed⟩ := h.advance hlen
              have hrest := ih hsend
              rw [h.sentBy_ok hpos hlen, restSentBy]
              split
              · rw [hdescribed] at hrest
                have hjoin := (List.prefix_append_right_inj (c.described.take len)).mpr hrest
                rwa [List.take_append_drop] at hjoin
              · rw [List.append_nil]
                apply List.take_prefix
          · simp [HttpConn.sentBy, HttpConn.writeTurn, not_le.mp hlen]

/-- If the kernel accepts everything, everything is sent. -/
theorem Sending.sentBy_eq (h : c.Sending) (hlens : c.lens < 2 ^ 31) {results : List Accepted}
    (hall : AcceptsAll c.total results) :
  c.sentBy results = c.described
  := by
  induction results generalizing c with
  | nil =>
      cases htotal : c.total with
      | zero =>
          rw [sentBy_of_total_eq_zero htotal, eq_comm, ← List.length_eq_zero_iff, h.length_described, htotal]
      | succ n =>
          rw [htotal] at hall
          cases hall
  | cons res results ih =>
      cases htotal : c.total with
      | zero =>
          rw [sentBy_of_total_eq_zero htotal, eq_comm, ← List.length_eq_zero_iff, h.length_described, htotal]
      | succ n =>
          rw [htotal] at hall
          cases res with
          | error e => cases hall
          | ok len =>
              obtain ⟨hpos, hlen, hrest⟩ := hall
              rw [← htotal] at hlen hrest
              obtain ⟨hsend, hdescribed⟩ := h.advance hlen
              have hlens' : (c.advance len).lens < 2 ^ 31 := by
                rw [lens_advance hlen]
                omega
              have hsent := ih hsend hlens' (by rw [total_advance hlen]; exact hrest)
              rw [h.sentBy_ok (by omega) hlen, restSentBy, ← lens]
              split
              · rw [hsent, hdescribed, List.take_append_drop]
              · rename_i hstop
                rw [toInt_pos_iff hlens', not_lt, Nat.le_zero] at hstop
                have hle := (c.advance len).total_le_lens
                have hend : (c.advance len).described = [] := by
                  rw [← List.length_eq_zero_iff, hsend.length_described]
                  omega
                rw [hdescribed, List.drop_eq_nil_iff] at hend
                rw [List.append_nil, List.take_of_length_le hend]

/-! ### From the message to the reply -/

/-- The bytes that the calls of `readv` have delivered. -/
def delivered (results : List (Except Errno (List Byte))) : List Byte :=
  results.flatMap fun
    | .ok data => data
    | .error _ => []

/-- `read` puts what was delivered behind the contents of the read buffer. -/
theorem read_delivered {isET : Bool} {results : List (Except Errno (List Byte))} {c' : HttpConn}
    {len : Except Errno ℕ} (h : c.readBuff.Inv) (hread : c.read isET results = some (len, c')) :
  ∃ readBuff, c' = { c with readBuff := readBuff } ∧ readBuff.Inv ∧
    readBuff.contents = c.readBuff.contents ++ delivered results
  := by
  induction results generalizing c with
  | nil => cases hread
  | cons res results ih =>
      obtain ⟨len₁, readBuff, hfd, hcases⟩ := read_cons hread
      have hbuff : readBuff.Inv ∧ readBuff.contents = c.readBuff.contents ++ delivered [res] := by
        cases res with
        | error e =>
            obtain ⟨-, rfl⟩ : _ ∧ c.readBuff = readBuff := by simpa [Buffer.readFd] using hfd
            exact ⟨h, by simp [delivered]⟩
        | ok data =>
            obtain ⟨readBuff', hfd', hInv, hcontents⟩ := h.readFd data
            obtain ⟨-, rfl⟩ := Prod.mk.inj (Option.some.inj (hfd'.symm.trans hfd))
            exact ⟨hInv, by simp [delivered, hcontents]⟩
      obtain ⟨hInv, hcontents⟩ := hbuff
      rcases hcases with ⟨rfl, -, rfl⟩ | hrest
      · exact ⟨readBuff, rfl, hInv, hcontents⟩
      · obtain ⟨readBuff', rfl, hInv', hcontents'⟩ := ih hInv hrest
        refine ⟨readBuff', rfl, hInv', ?_⟩
        rw [hcontents', hcontents, List.append_assoc]
        simp [delivered]

/-- The response to a message whose page is there. -/
theorem startResponse_page {q : Message} {r : HttpRequest} {srcDir path : List Byte} (hdir : srcDir ≠ [])
    (hpath : r.path = path) (halive : r.isKeepAlive = true ↔ q.IsAlive) :
  startResponse srcDir true r = some (found srcDir path (decide q.IsAlive))
  := by
  have heq : r.isKeepAlive = decide q.IsAlive := by
    rw [Bool.eq_iff_iff, halive, decide_eq_true_eq]
  rw [startResponse, if_pos rfl, HttpResponse.init, if_neg hdir, hpath, heq]
  rfl

/-- A connection that has read a message for a page which is there sends the reply with the page. -/
theorem Ready.process_page {q : Message} (hq : q.WellFormed) {verify : HttpRequest.Verify}
    {path : List Byte} (hasks : q.Asks verify q.body path) (h : Ready q.serialize c) {fs : FileSystem}
    {srcDir file : List Byte} (hdir : srcDir ≠ [])
    (hfile : fs.Has (found srcDir path (decide q.IsAlive)).fileName file) :
  ∃ c', c.process verify fs srcDir = some (true, c') ∧ c'.Sending ∧
    c'.described = (Reply.page (found srcDir path (decide q.IsAlive)) file).text ∧
    c'.lens < 2 ^ 30 + c'.described.length
  := by
  have hne : c.readBuff.contents ≠ [] := by
    rw [h.contents]
    apply q.serialize_ne_nil
  have hreadable : c.readBuff.readableBytes ≠ 0 := by
    rw [← h.readBuff.length_contents]
    simpa using hne
  obtain ⟨r, hreceived, hpath, halive⟩ := hasks
  have hbytes : HttpRequest.parseBytes verify .init c.readBuff.contents
      = some (true, r, HttpRequest.afterLine q.body) := by
    rw [h.contents, Message.serialize, hq.parseBytes_head, hreceived]
  obtain ⟨readBuff, hparse, -, -⟩ := HttpRequest.parse_of_parseBytes h.readBuff hne hbytes
  obtain ⟨r', strs, htext, hmapped, hlen, happends⟩ := makeResponse_page hfile
  obtain ⟨writeBuff, hmake, hInv, hcontents⟩ := happends.of_inv h.writeBuff
  rw [h.empty, List.nil_append] at hcontents
  let d : HttpConn :=
    { c with request := r, readBuff := readBuff, response := r', writeBuff := writeBuff }
  obtain ⟨hsend, hdescribed⟩ := describe_sending (c := d) hInv hmapped
  rw [List.nil_append, responseText, (describe_keeps d).1, (describe_keeps d).2] at hdescribed
  refine ⟨d.describe, ?_, hsend, ?_, ?_⟩
  · simp [HttpConn.process, hreadable, hparse, startResponse_page hdir hpath halive, hmake, d]
  · rw [hdescribed, ← htext]
    simp only [d, hcontents]
  · obtain ⟨hlen₀, hlen₁, hcnt⟩ := describe_lens d
    have hiov : d.iov1.len < 2 ^ 30 := h.iov1
    rw [hsend.length_described]
    dsimp only
    by_cases hmap : HasFile d.response
    · rw [if_pos hmap] at hcnt
      rw [total_of_two hcnt, lens]
      omega
    · rw [if_neg hmap] at hlen₁ hcnt
      rw [total_of_one hcnt, lens, hlen₁]
      omega

/-- Of a text the beginning is sent that the kernel accepts, and all of it if it accepts so much, up to one
gibibyte. -/
structure Sends (text : List Byte) (results : List Accepted) (sent : List Byte) : Prop where
  isPrefix : sent <+: text
  eq : text.length ≤ 2 ^ 30 → AcceptsAll text.length results → sent = text

/-- A connection that has read a message for a page which is there sends the reply with the page. -/
theorem Ready.sends_page {q : Message} (hq : q.WellFormed) {verify : HttpRequest.Verify}
    {path : List Byte} (hasks : q.Asks verify q.body path) (h : Ready q.serialize c) {fs : FileSystem}
    {srcDir file : List Byte} (hdir : srcDir ≠ [])
    (hfile : fs.Has (found srcDir path (decide q.IsAlive)).fileName file) :
  ∃ c', c.process verify fs srcDir = some (true, c') ∧ ∀ results,
    Sends (Reply.page (found srcDir path (decide q.IsAlive)) file).text results (c'.sentBy results)
  := by
  obtain ⟨c', hprocess, hsend, hdescribed, hlens⟩ := h.process_page hq hasks hdir hfile
  refine ⟨c', hprocess, ?_⟩
  intro results
  rw [← hdescribed]
  refine ⟨hsend.sentBy_prefix results, ?_⟩
  intro hlen hall
  rw [hsend.length_described] at hall
  apply hsend.sentBy_eq _ hall
  omega

/-- What a client is sent that has sent a message which asks for a page that is there. -/
theorem Reusable.sends_page (hc : c.Reusable) {v : Visit} (hfd : 0 < v.fd) {q : Message}
    (hq : q.WellFormed) {path : List Byte} (hasks : q.Asks v.verify q.body path) {len : Except Errno ℕ}
    {c₁ : HttpConn}
    (hread : (c.init v.fd v.isKeepAlive).read v.isET v.delivered = some (len, c₁))
    (hdelivered : delivered v.delivered = q.serialize) (hdir : v.srcDir ≠ []) {file : List Byte}
    (hfile : v.fs.Has (found v.srcDir path (decide q.IsAlive)).fileName file) :
  ∃ sent, c.serve v = some sent ∧
    Sends (Reply.page (found v.srcDir path (decide q.IsAlive)) file).text v.accepted sent
  := by
  have hready := hc.ready hfd v.isKeepAlive
  obtain ⟨readBuff, rfl, hInv, hcontents⟩ := read_delivered hready.readBuff hread
  rw [hready.contents, List.nil_append, hdelivered] at hcontents
  have hready₁ : Ready q.serialize { c.init v.fd v.isKeepAlive with readBuff := readBuff } :=
    ⟨hInv, hcontents, hready.writeBuff, hready.empty, hready.iov1⟩
  obtain ⟨c₂, hprocess, hsends⟩ := hready₁.sends_page hq hasks hdir hfile
  refine ⟨c₂.sentBy v.accepted, ?_, hsends v.accepted⟩
  simp [serve, hread, hprocess]

/-- The same, whatever the object was used for before. -/
theorem serve_asked {ops : List Op} (hops : ∀ op ∈ ops, op.Small) (hrun : run step new ops = some c)
    {v : Visit} (hfd : 0 < v.fd) {q : Message} (hq : q.WellFormed) {path : List Byte}
    (hasks : q.Asks v.verify q.body path) (hread : (new.read v.isET v.delivered).isSome = true)
    (hdelivered : delivered v.delivered = q.serialize) (hdir : v.srcDir ≠ []) {file : List Byte}
    (hfile : v.fs.Has (found v.srcDir path (decide q.IsAlive)).fileName file) :
  ∃ sent, c.serve v = some sent ∧
    Sends (Reply.page (found v.srcDir path (decide q.IsAlive)) file).text v.accepted sent
  := by
  have hc : c.Reusable :=
    run_guarded_invariant (fun _ _ _ hs hop hstep => hs.step hop hstep) new_reusable
      (guarded_of_forall hops) hrun
  obtain ⟨len, c₁, hc₁⟩ : ∃ len c₁,
      (c.init v.fd v.isKeepAlive).read v.isET v.delivered = some (len, c₁) := by
    obtain hnone | ⟨len, bytes, hsome⟩ := read_spec v.isET v.delivered
    · simp [hnone new new_reusable.readBuff] at hread
    · obtain ⟨readBuff, hread, -⟩ := hsome _ (hc.ready hfd v.isKeepAlive).readBuff
      exact ⟨len, _, hread⟩
  apply hc.sends_page hfd hq hasks hc₁ hdelivered hdir hfile

/-- Whatever the object was used for before: if a client for whom it is initialised sends a well-formed
message that is no form, which the calls of `readv` deliver to the last byte, and the page it asks for is
there, then what the kernel accepts is the beginning of the reply with the page, and all of it if the kernel
accepts that much. -/
theorem serve_page {ops : List Op} (hops : ∀ op ∈ ops, op.Small) (hrun : run step new ops = some c)
    {v : Visit} (hfd : 0 < v.fd) {q : Message} (hq : q.WellFormed) (hform : ¬ q.IsForm)
    (hread : (new.read v.isET v.delivered).isSome = true) (hdelivered : delivered v.delivered = q.serialize)
    (hdir : v.srcDir ≠ []) {file : List Byte}
    (hfile : v.fs.Has (found v.srcDir q.path (decide q.IsAlive)).fileName file) :
  ∃ sent, c.serve v = some sent ∧
    Sends (Reply.page (found v.srcDir q.path (decide q.IsAlive)) file).text v.accepted sent
  := serve_asked hops hrun hfd hq (hq.asks hform _ _) hread hdelivered hdir hfile

/-- A message for the first page. -/
def forIndex : Message where
  method := ascii "GET"
  target := ascii "/"
  version := ascii "1.1"
  headers := [(ascii "Host", ascii "localhost"), (ascii "Connection", ascii "keep-alive")]
  body := []

/-- The message comes in two parts, and the response goes out in two. -/
def inTwoParts : Visit where
  fd := 5
  isKeepAlive := false
  isET := true
  delivered := [.ok (forIndex.serialize.take 9), .ok (forIndex.serialize.drop 9), .error 11]
  verify := fun _ _ _ => true
  fs := threeBytes
  srcDir := ascii "/srv"
  accepted := [.ok 60, .ok 62]

theorem threeBytes_has (name : List Byte) :
  threeBytes.Has name (ascii "abc")
  := by
  refine ⟨⟨⟨0o100644, 3⟩, rfl, by decide, by decide, by decide⟩, rfl, ?_⟩
  intro _
  exact ⟨_, rfl, by decide⟩

theorem serve_page_inTwoParts :
  ∃ c sent, run step new hungUp = some c ∧ c.serve inTwoParts = some sent ∧
    Sends (Reply.page (found (ascii "/srv") forIndex.path (decide forIndex.IsAlive)) (ascii "abc")).text
      inTwoParts.accepted sent
  := by
  have hsome : (run step new hungUp).isSome = true := by decide +kernel
  obtain ⟨c, hc⟩ := Option.isSome_iff_exists.mp hsome
  have hops : ∀ op ∈ hungUp, op.Small := by simp [hungUp, Op.Small, threeBytes_small]
  obtain ⟨sent, hserve, hsends⟩ := serve_page hops hc (v := inTwoParts) (q := forIndex) (by decide) (by decide)
    (by decide) (by decide +kernel) (by decide) (by decide) (threeBytes_has _)
  exact ⟨c, sent, hc, hserve, hsends⟩

end HttpConn

import TinyWebserver.Http.Request

/-!
# Parsing as a function of the unread bytes

What `parse` does depends on the buffer only through its unread bytes: `parseBytes` is the same
state machine on a list of bytes, and `parse_eq` says that `parse` follows it and keeps the buffer
in good order. The lemmas after it say what one line does in each state of the machine.
-/

open Search

namespace HttpRequest

variable {verify : Verify}

/-- The part of `xs` in front of its first end of line, all of it if there is none. -/
def firstLine (xs : List Byte) : List Byte := xs.take (search crlf xs)

/-- The part of `xs` behind its first end of line, none of it if there is none. -/
def afterLine (xs : List Byte) : List Byte := xs.drop (search crlf xs + 2)

theorem length_afterLine_lt {xs : List Byte} (h : xs ≠ []) :
  (afterLine xs).length < xs.length
  := by
  have := List.length_pos_iff.mpr h
  simp only [afterLine, List.length_drop]
  omega

/-- The state machine of `parse` on the unread bytes `xs`: the value returned, the request and the
bytes still unread. -/
def parseBytes (verify : Verify) (r : HttpRequest) (xs : List Byte) :
    Option (Bool × HttpRequest × List Byte) :=
  if _h : xs = [] ∨ r.state = .finish then some (true, r, xs)
  else
    match parseLine verify r (firstLine xs) xs.length with
    | none => none
    | some none => some (false, r, xs)
    | some (some r') =>
        if search crlf xs = xs.length then some (true, r', [])
        else parseBytes verify r' (afterLine xs)
termination_by xs.length
decreasing_by
  apply length_afterLine_lt
  intro hempty
  apply _h (Or.inl hempty)

/-- A result of `parse`, with the unread bytes of the buffer in place of the buffer. -/
def outcome : Bool × HttpRequest × Buffer → Bool × HttpRequest × List Byte
  | (ok, r, buff) => (ok, r, buff.contents)

/-! ### The buffer -/

/-- The end of line found by a search is in the list. -/
theorem search_crlf_add_two_le {xs : List Byte} (h : search crlf xs ≠ xs.length) :
  search crlf xs + 2 ≤ xs.length
  := by
  have hlt : search crlf xs < xs.length := lt_of_le_of_ne (search_le crlf xs) h
  have hlen := congrArg List.length (search_spec hlt)
  simp only [List.length_append, List.length_take, crlf, List.length_cons, List.length_nil] at hlen
  simp only [crlf]
  omega

/-- The line that `parse` takes from the storage is the first line of the unread bytes. -/
theorem slice_line {b : Buffer} (h : b.Inv) :
  Memory.slice b.buffer b.readPos (b.readPos + search crlf b.contents) = firstLine b.contents
  := by
  have hle := search_le crlf b.contents
  have hlen := h.length_contents
  have hread := h.readPos_le
  simp only [Buffer.readableBytes] at hlen
  rw [firstLine, Buffer.contents, Memory.slice, Memory.slice, List.take_drop, List.take_take]
  congr 2
  simp only [Buffer.contents, Memory.slice] at hle hlen ⊢
  omega

/-- The loop of `parse`, with enough fuel, follows `parseBytes` and keeps the buffer in good
order. -/
theorem parseLoop_eq {fuel : ℕ} {r : HttpRequest} {b : Buffer} (h : b.Inv)
    (hfuel : b.readableBytes < fuel) :
  (parseLoop verify fuel r b).map outcome = parseBytes verify r b.contents ∧
    ∀ p, parseLoop verify fuel r b = some p → p.2.2.Inv
  := by
  induction fuel generalizing r b with
  | zero => omega
  | succ fuel ih =>
      have hlen := h.length_contents
      have hempty : b.contents = [] ↔ b.readableBytes = 0 := by
        rw [← hlen, List.length_eq_zero_iff]
      rw [parseLoop, parseBytes]
      simp only [hempty, slice_line h, hlen]
      split
      · refine ⟨rfl, ?_⟩
        rintro p ⟨⟩
        apply h
      · rename_i hgo
        simp only [not_or] at hgo
        cases hline : parseLine verify r (firstLine b.contents) b.readableBytes with
        | none => simp
        | some res =>
            cases res with
            | none =>
                refine ⟨rfl, ?_⟩
                rintro p ⟨⟩
                apply h
            | some r' =>
                have hend : b.readPos + search crlf b.contents = b.writePos ↔
                    search crlf b.contents = b.readableBytes := by
                  have := h.readPos_le
                  simp only [Buffer.readableBytes]
                  omega
                simp only [Option.bind_eq_bind, Option.bind_some, hend]
                split
                · refine ⟨by simp [outcome], ?_⟩
                  rintro p ⟨⟩
                  apply h.retrieveAll
                · rename_i hmore
                  have hle := search_crlf_add_two_le (hlen ▸ hmore)
                  rw [hlen] at hle
                  have huntil : b.retrieveUntil (b.readPos + search crlf b.contents + 2)
                      = some (b.retrieve (search crlf b.contents + 2)) := by
                    rw [Buffer.retrieveUntil, if_pos (by omega)]
                    congr 2
                    omega
                  rw [huntil, Option.bind_some, afterLine, ← Buffer.contents_retrieve]
                  apply ih (h.retrieve hle)
                  simp only [Buffer.readableBytes, Buffer.retrieve] at hfuel hle ⊢
                  omega

/-- `parse` on a buffer that is not empty follows `parseBytes` on its unread bytes, and keeps the
buffer in good order. -/
theorem parse_eq (verify : Verify) (r : HttpRequest) {b : Buffer} (h : b.Inv)
    (hne : b.contents ≠ []) :
  (parse verify r b).map outcome = parseBytes verify r b.contents ∧
    ∀ p, parse verify r b = some p → p.2.2.Inv
  := by
  have hpos : b.readableBytes ≠ 0 := by
    rw [← h.length_contents]
    simpa using hne
  rw [parse, if_neg hpos]
  apply parseLoop_eq h (Nat.lt_succ_self _)

/-- If `parseBytes` has a result then `parse` has it too, in a buffer in good order. -/
theorem parse_of_parseBytes {r r' : HttpRequest} {b : Buffer} {ok : Bool} {rest : List Byte}
    (h : b.Inv) (hne : b.contents ≠ [])
    (hbytes : parseBytes verify r b.contents = some (ok, r', rest)) :
  ∃ b', parse verify r b = some (ok, r', b') ∧ b'.contents = rest ∧ b'.Inv
  := by
  obtain ⟨heq, hInv⟩ := parse_eq verify r h hne
  rw [hbytes, Option.map_eq_some_iff] at heq
  obtain ⟨⟨ok', r'', b'⟩, hparse, hout⟩ := heq
  simp only [outcome, Prod.mk.injEq] at hout
  obtain ⟨rfl, rfl, hrest⟩ := hout
  exact ⟨b', hparse, hrest, hInv _ hparse⟩

/-! ### Lines -/

variable {r r' : HttpRequest} {line rest : List Byte}

theorem firstLine_append (hline : cr ∉ line) (rest : List Byte) :
  firstLine (line ++ crlf ++ rest) = line
  := by
  rw [firstLine, crlf, search_append hline, List.append_assoc, List.take_left]

theorem afterLine_append (hline : cr ∉ line) (rest : List Byte) :
  afterLine (line ++ crlf ++ rest) = rest
  := by
  have hlen : line.length + 2 = (line ++ crlf).length := by simp [crlf]
  rw [afterLine, crlf, search_append hline, ← crlf, hlen, List.drop_left]

@[simp]
theorem parseBytes_nil (r : HttpRequest) :
  parseBytes verify r [] = some (true, r, [])
  := by
  rw [parseBytes]
  simp

/-- A request that is finished reads nothing more. -/
theorem parseBytes_finish (h : r.state = .finish) (xs : List Byte) :
  parseBytes verify r xs = some (true, r, xs)
  := by
  rw [parseBytes]
  simp [h]

/-- A line with its end is taken, and the machine goes on behind it. -/
theorem parseBytes_line (hline : cr ∉ line) (hstate : r.state ≠ .finish)
    (h : parseLine verify r line (line.length + 2 + rest.length) = some (some r')) :
  parseBytes verify r (line ++ crlf ++ rest) = parseBytes verify r' rest
  := by
  have hlen : (line ++ crlf ++ rest).length = line.length + 2 + rest.length := by
    simp only [crlf, List.length_append, List.length_cons, List.length_nil]
  have hsearch : search crlf (line ++ crlf ++ rest) = line.length := search_append hline rest
  have hgo : ¬ (line ++ crlf ++ rest = [] ∨ r.state = .finish) := by simp [crlf, hstate]
  rw [parseBytes, dif_neg hgo, firstLine_append hline, hlen, h, hsearch, afterLine_append hline]
  dsimp only
  rw [if_neg (by omega)]

/-- Bytes without an end of line are one line, and the last one. -/
theorem parseBytes_last (hne : line ≠ []) (hline : ¬ crlf <:+: line) (hstate : r.state ≠ .finish)
    (h : parseLine verify r line line.length = some (some r')) :
  parseBytes verify r line = some (true, r', [])
  := by
  have hgo : ¬ (line = [] ∨ r.state = .finish) := by simp [hne, hstate]
  have hsearch := search_of_not_infix hline
  have hfirst : firstLine line = line := by rw [firstLine, hsearch, List.take_length]
  rw [parseBytes, dif_neg hgo, hfirst, h, hsearch]
  simp

/-- A request line is a method, a path and a version. -/
theorem parseRequestLine_cases (h : r.parseRequestLine line = some r') :
  ∃ m p v, line = m ++ space :: (p ++ space :: (ascii "HTTP/" ++ v)) ∧ space ∉ m ∧ space ∉ p ∧
    space ∉ v ∧ r' = { r with method := m, path := p, version := v, state := .headers }
  := by
  unfold parseRequestLine at h
  split at h
  · rename_i m p v hmatch
    cases Regex.matches_of_fullMatch hmatch with
    | group hm hrest =>
        cases hrest with
        | char hrest =>
            cases hrest with
            | group hp hrest =>
                cases hrest with
                | char hrest =>
                    obtain ⟨ys, rfl, hend⟩ := hrest.chars
                    obtain ⟨rfl, hv⟩ := hend.group_end
                    refine ⟨m, p, _, rfl, ?_, ?_, ?_, (Option.some.inj h).symm⟩
                    · exact fun hspace => by simpa using hm space hspace
                    · exact fun hspace => by simpa using hp space hspace
                    · exact fun hspace => by simpa using hv space hspace
  · simp at h

/-- After a body the request is finished. -/
theorem parseBody_state (h : parseBody verify r line = some r') :
  r'.state = .finish
  := by
  obtain ⟨r'', -, hr⟩ := Option.bind_eq_some_iff.mp h
  obtain rfl : { r'' with state := .finish } = r' := by simpa using hr
  rfl

/-- In the state for the body the first line is the body, and what is behind it stays unread. -/
theorem parseBytes_body (hstate : r.state = .body) (hne : rest ≠ []) :
  parseBytes verify r rest
    = (parseBody verify r (firstLine rest)).map fun r' => (true, r', afterLine rest)
  := by
  have hgo : ¬ (rest = [] ∨ r.state = .finish) := by simp [hne, hstate]
  rw [parseBytes, dif_neg hgo, parseLine, hstate]
  cases hbody : parseBody verify r (firstLine rest) with
  | none => rfl
  | some r' =>
      have hfinish := parseBody_state hbody
      simp only [Option.map_some]
      split
      · rename_i hend
        rw [afterLine, hend, List.drop_eq_nil_of_le (by omega)]
      · rw [parseBytes_finish hfinish]

/-! ### Lines of headers -/

/-- A line with a name, a colon, at most one space and a value without CR and LF. The space behind
the colon is not part of the value. -/
def IsHeader (line : List Byte) (h : List Byte × List Byte) : Prop :=
  colon ∉ h.1 ∧ (∀ c ∈ h.2, c ≠ cr ∧ c ≠ lf) ∧
    (line = h.1 ++ colon :: h.2 ∧ h.2.head? ≠ some space ∨ line = h.1 ++ colon :: space :: h.2)

/-- A line without a colon, or with CR or LF behind its first colon. -/
def NoHeader (line : List Byte) : Prop :=
  colon ∉ line ∨ ∃ name value, line = name ++ colon :: value ∧ colon ∉ name ∧
    ∃ c ∈ value, c = cr ∨ c = lf

/-- The value behind the colon of a header. -/
theorem fullMatch_value (ys : List Byte) :
  (∃ v, Regex.fullMatch [.opt space, .group fun c => c ≠ cr ∧ c ≠ lf] ys = some [v] ∧
      (∀ c ∈ v, c ≠ cr ∧ c ≠ lf) ∧ (ys = v ∧ v.head? ≠ some space ∨ ys = space :: v)) ∨
    Regex.fullMatch [.opt space, .group fun c => c ≠ cr ∧ c ≠ lf] ys = none ∧
      ∃ c ∈ ys, c = cr ∨ c = lf
  := by
  have hgroup : ∀ zs : List Byte,
      Regex.fullMatch [.group fun c => decide (c ≠ cr ∧ c ≠ lf)] zs
        = if ∀ c ∈ zs, c ≠ cr ∧ c ≠ lf then some [zs] else none := by
    intro zs
    rw [Regex.fullMatch_group_end]
    simp
  cases ys with
  | nil =>
      refine Or.inl ⟨[], ?_, by simp, Or.inl ⟨rfl, by simp⟩⟩
      rw [Regex.fullMatch, hgroup]
      simp
  | cons y ys =>
      rw [Regex.fullMatch, hgroup, hgroup]
      by_cases hall : ∀ c ∈ ys, c ≠ cr ∧ c ≠ lf
      · by_cases hy : y = space
        · refine Or.inl ⟨ys, ?_, hall, Or.inr (by rw [hy])⟩
          rw [if_pos hy, if_pos hall, Option.some_or]
        · by_cases hend : y ≠ cr ∧ y ≠ lf
          · have hcons : ∀ c ∈ y :: ys, c ≠ cr ∧ c ≠ lf := by simpa using ⟨hend, hall⟩
            refine Or.inl ⟨y :: ys, ?_, hcons, Or.inl ⟨rfl, by simpa using hy⟩⟩
            rw [if_neg hy, if_pos hcons, Option.none_or]
          · refine Or.inr ⟨?_, y, List.mem_cons_self, by tauto⟩
            rw [if_neg hy, if_neg fun h => hend (h y List.mem_cons_self), Option.none_or]
      · have hcons : ¬ ∀ c ∈ y :: ys, c ≠ cr ∧ c ≠ lf :=
          fun h => hall fun c hc => h c (List.mem_cons_of_mem y hc)
        obtain ⟨c, hc, hend⟩ : ∃ c ∈ ys, c = cr ∨ c = lf := by
          by_contra hnone
          apply hall
          intro c hc
          constructor
          · exact fun h => hnone ⟨c, hc, Or.inl h⟩
          · exact fun h => hnone ⟨c, hc, Or.inr h⟩
        refine Or.inr ⟨?_, c, List.mem_cons_of_mem y hc, hend⟩
        rw [if_neg hall, if_neg hcons, ite_self, Option.none_or]

/-- A line is taken as a header, or it ends the headers. -/
theorem parseHeader_spec (r : HttpRequest) (line : List Byte) :
  (∃ h, IsHeader line h ∧ r.parseHeader line = { r with header := r.header.set h.1 h.2 }) ∨
    NoHeader line ∧ r.parseHeader line = { r with state := .body }
  := by
  have hmatch : Regex.fullMatch headerPattern line
      = (Regex.fullMatch [.char colon, .opt space, .group fun c => decide (c ≠ cr ∧ c ≠ lf)]
          (line.dropWhile fun c => decide (c ≠ colon))).map
            (line.takeWhile (fun c => decide (c ≠ colon)) :: ·) := by
    rw [headerPattern, Regex.fullMatch_group_char (by simp)]
  have hline : line.takeWhile (fun c => decide (c ≠ colon)) ++
      line.dropWhile (fun c => decide (c ≠ colon)) = line := List.takeWhile_append_dropWhile
  have hname : colon ∉ line.takeWhile fun c => decide (c ≠ colon) := by
    intro hmem
    simpa using List.mem_takeWhile_imp hmem
  generalize line.takeWhile (fun c => decide (c ≠ colon)) = name at hmatch hline hname
  cases hdrop : line.dropWhile (fun c => decide (c ≠ colon)) with
  | nil =>
      rw [hdrop] at hmatch hline
      refine Or.inr ⟨Or.inl ?_, ?_⟩
      · rw [← hline]
        simpa using hname
      · simp only [parseHeader, hmatch]
        rfl
  | cons c ys =>
      have hc : c = colon := by
        have hhead := List.head?_dropWhile_not (fun c => decide (c ≠ colon)) line
        rw [hdrop] at hhead
        simpa using hhead
      subst hc
      rw [hdrop, Regex.fullMatch, if_pos rfl] at hmatch
      rw [hdrop] at hline
      rcases fullMatch_value ys with ⟨v, hv, hvalue, hys⟩ | ⟨hv, hend⟩
      · refine Or.inl ⟨(name, v), ⟨hname, hvalue, ?_⟩, ?_⟩
        · rw [← hline]
          rcases hys with ⟨rfl, hhead⟩ | rfl
          · exact Or.inl ⟨rfl, hhead⟩
          · exact Or.inr rfl
        · simp only [parseHeader, hmatch, hv, Option.map_some]
      · refine Or.inr ⟨Or.inr ⟨name, ys, hline.symm, hname, hend⟩, ?_⟩
        simp only [parseHeader, hmatch, hv, Option.map_none]

end HttpRequest

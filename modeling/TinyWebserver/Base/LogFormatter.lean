import TinyWebserver.Base.LogCodec

/-!
# The patterns of log formatters

`LogFormatter::Init` of `src/base/log.cpp` scans a pattern with an index and a flag, and `Format` writes an
event with the items that it has found. A `Pattern` is a sequence of literal texts and items in the
documented language. `implements_iff` says for which patterns the formatter writes each item as it is
meant: there is one string for the formats of all dates, behind a `%d` without a format the scanner
looks for the end of one where the pattern ends, and a date is written through a buffer of 64 bytes.
-/

namespace LogFormatter

/-- The byte `'%'`. -/
def percent : Byte := 37

/-- The byte `'d'`. -/
def letterD : Byte := 100

/-- The byte `'{'`. -/
def openBrace : Byte := 123

/-- The byte `'}'`. -/
def closeBrace : Byte := 125

/-! ### Items -/

/-- What the items write of a `LogEvent`. -/
structure LogEvent where
  level : LogLevel
  file : Text
  line : ℤ
  elapse : ℤ
  time : ℤ
  loggerName : Text
  content : Text

/-- The classes derived from `FormatItem`. -/
inductive FormatItem where
  | message
  | level
  | loggerName
  | dateTime (format : Text)
  | elapse
  | fileName
  | line
  | percentSign
  | tab
  | newLine
  | string (text : Text)
deriving DecidableEq

/-- `"%Y-%m-%d %H:%M:%S"` -/
def defaultDateFormat : Text := ascii "%Y-%m-%d %H:%M:%S"

/-- The constructor of `DateTimeFormatItem` takes the default for an empty format. -/
def newDateTime (format : Text) : FormatItem :=
  .dateTime (if format = [] then defaultDateFormat else format)

/-- `strftime(buf, sizeof(buf), ..)` with `char buf[64]`, and `os << buf`, for a text that is to be put into
`buf`: it is there if there is room for it and its terminator. If not, the result of `strftime` that says so
is not looked at, and what is read from `buf` is not defined. -/
def buffered (text : Text) : Option Text := if text.length < 64 then some text else none

/-- The member functions `Format`, with `none` for a read that is not defined. The text that `localtime_r`
and `strftime` make of a format and a time, for any room, is a parameter. -/
def FormatItem.format (strftime : Text → ℤ → Text) (event : LogEvent) : FormatItem → Option Text
  | .message => some event.content
  | .level => some event.level.toString
  | .loggerName => some event.loggerName
  | .dateTime format => buffered (strftime format event.time)
  | .elapse => some (decimal event.elapse)
  | .fileName => some event.file
  | .line => some (decimal event.line)
  | .percentSign => some (ascii "%")
  | .tab => some (ascii "\t")
  | .newLine => some (ascii "\n")
  | .string text => some text

/-- `s_format_items` -/
def s_format_items : List (Text × (Text → FormatItem)) :=
  [(ascii "m", fun _ => .message), (ascii "p", fun _ => .level), (ascii "c", fun _ => .loggerName),
    (ascii "d", newDateTime), (ascii "r", fun _ => .elapse), (ascii "f", fun _ => .fileName),
    (ascii "l", fun _ => .line), (ascii "%", fun _ => .percentSign), (ascii "T", fun _ => .tab),
    (ascii "n", fun _ => .newLine)]

/-! ### The scanner -/

/-- The variables of the loop of `Init`. A pattern in `patterns` is of type 0, a text, or of type 1, an
item. -/
structure Scan where
  i : ℕ
  patterns : List (ℕ × Text)
  tmp : Text
  dateformat : Text
  parsing_string : Bool
  error : Bool
deriving DecidableEq

/-- `m_pattern[i]`, which is `'\0'` at the end and not defined behind it. -/
def charAt (m_pattern : Text) (i : ℕ) : Option Byte :=
  if i = m_pattern.length then some 0 else m_pattern[i]?

/-- The rest of a pass behind `%d`, where `i` is the index of the byte behind it. The inner loop takes the
bytes in front of the brace that ends the format, or in front of the end. -/
def scanDate (m_pattern : Text) (s : Scan) : Option Scan :=
  if s.i < m_pattern.length ∧ m_pattern[s.i]? ≠ some openBrace then
    some s
  else
    let fmt := (m_pattern.drop (s.i + 1)).takeWhile (· ≠ closeBrace)
    let i := s.i + 1 + fmt.length
    let s := { s with dateformat := s.dateformat ++ fmt }
    (charAt m_pattern i).map fun b =>
      if b ≠ closeBrace then { s with i := i, error := true } else { s with i := i + 1 }

/-- One pass of the loop, with `none` for an access that is not defined. -/
def scanStep (m_pattern : Text) (s : Scan) : Option Scan :=
  (charAt m_pattern s.i).bind fun c =>
    if c = percent then
      if s.parsing_string = true then
        some { s with
          patterns := if s.tmp ≠ [] then s.patterns ++ [(0, s.tmp)] else s.patterns
          tmp := []
          parsing_string := false
          i := s.i + 1 }
      else
        some { s with
          patterns := s.patterns ++ [(1, [c])], parsing_string := true, i := s.i + 1 }
    else if s.parsing_string = true then
      some { s with tmp := s.tmp ++ [c], i := s.i + 1 }
    else
      let s := { s with
        patterns := s.patterns ++ [(1, [c])], parsing_string := true, i := s.i + 1 }
      if c ≠ letterD then some s else scanDate m_pattern s

/-- At most the given number of passes. The loop ends at the end of the pattern or with an error. -/
def scan (m_pattern : Text) : ℕ → Scan → Option Scan
  | 0, s => some s
  | passes + 1, s =>
      if s.i < m_pattern.length ∧ s.error = false then
        (scanStep m_pattern s).bind (scan m_pattern passes)
      else
        some s

/-- The variables in front of the loop. -/
def start : Scan := ⟨0, [], [], [], true, false⟩

/-- The loop over `patterns`: `m_error` and `m_items`. -/
def makeItems (dateformat : Text) (m_items : List FormatItem) : List (ℕ × Text) → Bool × List FormatItem
  | [] => (false, m_items)
  | v :: patterns =>
      if v.1 = 0 then
        makeItems dateformat (m_items ++ [.string v.2]) patterns
      else if v.2 = ascii "d" then
        makeItems dateformat (m_items ++ [newDateTime dateformat]) patterns
      else
        match s_format_items.lookup v.2 with
        | none => (true, m_items)
        | some C => makeItems dateformat (m_items ++ [C v.2]) patterns

/-- `Init`: `m_error` and `m_items`, or `none` if it makes an access that is not defined. No pass leaves
the index where it is, so there are at most as many passes as the pattern has bytes. -/
def init (m_pattern : Text) : Option (Bool × List FormatItem) :=
  (scan m_pattern m_pattern.length start).map fun s =>
    if s.error = true then
      (true, [])
    else
      makeItems s.dateformat [] (if s.tmp ≠ [] then s.patterns ++ [(0, s.tmp)] else s.patterns)

/-- One text behind the other, if both are defined. -/
def behind (t u : Option Text) : Option Text := t.bind fun a => u.map (a ++ ·)

/-- What is written one behind the other, if all of it is defined. -/
def joined (ts : List (Option Text)) : Option Text := ts.foldr behind (some [])

/-- `Format` -/
def format (strftime : Text → ℤ → Text) (m_items : List FormatItem) (event : LogEvent) : Option Text :=
  joined (m_items.map (FormatItem.format strftime event))

/-! ### The language of patterns -/

/-- The items without a date. -/
inductive Plain where
  | percentSign
  | message
  | level
  | loggerName
  | elapse
  | fileName
  | line
  | tab
  | newLine
deriving DecidableEq

/-- The letter of an item. -/
def Plain.letter : Plain → Byte
  | .percentSign => 37
  | .message => 109
  | .level => 112
  | .loggerName => 99
  | .elapse => 114
  | .fileName => 102
  | .line => 108
  | .tab => 84
  | .newLine => 110

/-- What an item is to write. -/
def Plain.render (event : LogEvent) : Plain → Text
  | .percentSign => ascii "%"
  | .message => event.content
  | .level => event.level.toString
  | .loggerName => event.loggerName
  | .elapse => decimal event.elapse
  | .fileName => event.file
  | .line => decimal event.line
  | .tab => ascii "\t"
  | .newLine => ascii "\n"

/-- A part of a pattern: literal text, an item, `%d`, or `%d` with a format. -/
inductive Part where
  | text (t : Text)
  | plain (k : Plain)
  | date
  | dateFormat (fmt : Text)
deriving DecidableEq

/-- How a part is written. -/
def Part.source : Part → Text
  | .text t => t
  | .plain k => [percent, k.letter]
  | .date => [percent, letterD]
  | .dateFormat fmt => percent :: letterD :: openBrace :: (fmt ++ [closeBrace])

/-- How a sequence of parts is written. -/
def source (ps : List Part) : Text := ps.flatMap Part.source

/-- The format that a date is meant to have. -/
def Part.format? : Part → Option Text
  | .date => some []
  | .dateFormat fmt => some fmt
  | _ => none

/-- The formats of the dates. -/
def formats (ps : List Part) : List Text := ps.filterMap Part.format?

/-- The format that is used for an empty one. -/
def effective (fmt : Text) : Text := if fmt = [] then defaultDateFormat else fmt

/-- What a part is to write, each date with its own format and in full. -/
def Part.render (strftime : Text → ℤ → Text) (event : LogEvent) : Part → Text
  | .text t => t
  | .plain k => k.render event
  | .date => strftime defaultDateFormat event.time
  | .dateFormat fmt => strftime (effective fmt) event.time

/-- What a sequence of parts is to write. -/
def render (strftime : Text → ℤ → Text) (event : LogEvent) (ps : List Part) : Text :=
  ps.flatMap (Part.render strftime event)

/-- The parts of a pattern: no `%` in literal text, no `{` behind `%d`, and no `}` in a format. -/
def WellFormed : List Part → Prop
  | [] => True
  | .text t :: ps => percent ∉ t ∧ WellFormed ps
  | .plain _ :: ps => WellFormed ps
  | .date :: ps => (source ps).head? ≠ some openBrace ∧ WellFormed ps
  | .dateFormat fmt :: ps => closeBrace ∉ fmt ∧ WellFormed ps

/-- A pattern of the documented language. -/
structure Pattern where
  parts : List Part
  wellFormed : WellFormed parts

/-- There is a `%d` with nothing behind it. -/
def EndsInDate : List Part → Prop
  | [] => False
  | p :: ps => p = .date ∧ source ps = [] ∨ EndsInDate ps

/-- No format interferes with another date: all are empty, there is only one date, or the only format that
is not empty is the default. -/
def Separate (fmts : List Text) : Prop :=
  (∀ f ∈ fmts, f = []) ∨ fmts.length = 1 ∨
    (∀ f ∈ fmts, f = [] ∨ f = defaultDateFormat) ∧ (fmts.filter (· ≠ [])).length = 1

/-- The dates of an event have at most `room` bytes, each with its own format. -/
def Short (room : ℕ) (strftime : Text → ℤ → Text) (event : LogEvent) (ps : List Part) : Prop :=
  ∀ fmt ∈ formats ps, (strftime (effective fmt) event.time).length ≤ room

/-- `Init` ends without an error, and `Format` writes each part as it is meant, however dates are
written, where they have at most `room` bytes. -/
def Implements (room : ℕ) (p : Pattern) : Prop :=
  ∃ m_items, init (source p.parts) = some (false, m_items) ∧
    ∀ strftime event, Short room strftime event p.parts →
      format strftime m_items event = some (render strftime event p.parts)

/-! ### Passes of the scanner -/

theorem charAt_of_drop {m_pattern : Text} {i : ℕ} {c : Byte} {rest : Text}
    (h : m_pattern.drop i = c :: rest) :
  i < m_pattern.length ∧ charAt m_pattern i = some c ∧ m_pattern[i]? = some c ∧
    m_pattern.drop (i + 1) = rest
  := by
  have hi : i < m_pattern.length := by
    by_contra hle
    rw [List.drop_eq_nil_of_le (not_lt.mp hle)] at h
    cases h
  rw [List.drop_eq_getElem_cons hi] at h
  obtain ⟨hc, hrest⟩ := List.cons.inj h
  have hget : m_pattern[i]? = some c := by rw [List.getElem?_eq_getElem hi, hc]
  refine ⟨hi, ?_, hget, hrest⟩
  rw [charAt, if_neg hi.ne, hget]

theorem scan_succ {m_pattern : Text} {s s' : Scan} (hi : s.i < m_pattern.length)
    (herror : s.error = false) (h : scanStep m_pattern s = some s') (n : ℕ) :
  scan m_pattern (n + 1) s = scan m_pattern n s'
  := by
  rw [scan, if_pos ⟨hi, herror⟩, h, Option.bind_some]

theorem scan_of_ended {m_pattern : Text} {s : Scan} (h : ¬ (s.i < m_pattern.length ∧ s.error = false))
    (n : ℕ) :
  scan m_pattern n s = some s
  := by
  cases n with
  | zero => rfl
  | succ n => rw [scan, if_neg h]

/-- Passes are made one after the other. -/
theorem scan_add (m_pattern : Text) (k n : ℕ) (s : Scan) :
  scan m_pattern (k + n) s = (scan m_pattern k s).bind (scan m_pattern n)
  := by
  induction k generalizing s with
  | zero => simp [scan]
  | succ k ih =>
      rw [Nat.add_right_comm]
      by_cases h : s.i < m_pattern.length ∧ s.error = false
      · rw [scan, scan, if_pos h, if_pos h]
        cases scanStep m_pattern s with
        | none => rfl
        | some s' => apply ih
      · rw [scan_of_ended h, scan_of_ended h, Option.bind_some, scan_of_ended h]

/-- The patterns with the text that is collected so far. -/
def Scan.flushed (s : Scan) : List (ℕ × Text) :=
  if s.tmp ≠ [] then s.patterns ++ [(0, s.tmp)] else s.patterns

/-- The variables behind the `%` of an item. -/
def Scan.opened (s : Scan) : Scan :=
  { s with patterns := s.flushed, tmp := [], parsing_string := false, i := s.i + 1 }

/-- The variables behind `%` and a letter. -/
def Scan.pushed (s : Scan) (letter : Byte) : Scan :=
  { s with i := s.i + 2, patterns := s.flushed ++ [(1, [letter])], tmp := [], parsing_string := true }

/-- The variables behind a part of a pattern. -/
def Part.scanned (s : Scan) : Part → Scan
  | .text t => { s with i := s.i + t.length, tmp := s.tmp ++ t }
  | .plain k => s.pushed k.letter
  | .date => s.pushed letterD
  | .dateFormat fmt =>
      let s := s.pushed letterD
      { s with i := s.i + (fmt.length + 2), dateformat := s.dateformat ++ fmt }

/-- The number of passes that a part takes. -/
def Part.passes : Part → ℕ
  | .text t => t.length
  | _ => 2

/-- Between two parts. -/
def Scan.Between (s : Scan) : Prop := s.parsing_string = true ∧ s.error = false

theorem Part.between_scanned {s : Scan} (h : s.Between) (p : Part) :
  (p.scanned s).Between
  := by
  cases p with
  | text t => apply h
  | plain k => exact ⟨rfl, h.2⟩
  | date => exact ⟨rfl, h.2⟩
  | dateFormat fmt => exact ⟨rfl, h.2⟩

/-- A single pass. -/
theorem scan_one {m_pattern : Text} {s : Scan} (hi : s.i < m_pattern.length) (herror : s.error = false) :
  scan m_pattern 1 s = scanStep m_pattern s
  := by
  rw [scan, if_pos ⟨hi, herror⟩]
  cases scanStep m_pattern s with
  | none => rfl
  | some s' => rfl

/-- Literal text takes a pass for each byte. -/
theorem scan_text {m_pattern : Text} {s : Scan} (hs : s.Between) {t rest : Text} (ht : percent ∉ t)
    (h : m_pattern.drop s.i = t ++ rest) :
  scan m_pattern t.length s = some ((Part.text t).scanned s)
  := by
  induction t generalizing s with
  | nil => simp [scan, Part.scanned]
  | cons c t ih =>
      obtain ⟨hi, hc, -, hrest⟩ := charAt_of_drop h
      have hne : c ≠ percent := by
        rintro rfl
        simp at ht
      have hstep : scanStep m_pattern s = some { s with tmp := s.tmp ++ [c], i := s.i + 1 } := by
        rw [scanStep, hc, Option.bind_some, if_neg hne, if_pos hs.1]
      rw [List.length_cons, scan_succ hi hs.2 hstep]
      have hnext : Scan.Between { s with tmp := s.tmp ++ [c], i := s.i + 1 } := hs
      rw [ih hnext (List.not_mem_of_not_mem_cons ht) hrest]
      simp only [Part.scanned, List.length_cons, List.append_assoc, List.singleton_append]
      congr 2
      omega

/-- The pass for a `%` in front of an item. -/
theorem scan_percent {m_pattern : Text} {s : Scan} (hs : s.Between) {rest : Text}
    (h : m_pattern.drop s.i = percent :: rest) (n : ℕ) :
  scan m_pattern (n + 1) s = scan m_pattern n s.opened
  := by
  obtain ⟨hi, hc, -, -⟩ := charAt_of_drop h
  apply scan_succ hi hs.2
  rw [scanStep, hc, Option.bind_some, if_pos rfl, if_pos hs.1]
  rfl

theorem Plain.letter_ne (k : Plain) :
  k.letter ≠ letterD
  := by
  cases k <;> decide

/-- An item without a date takes two passes. -/
theorem scan_plain {m_pattern : Text} {s : Scan} (hs : s.Between) (k : Plain) {rest : Text}
    (h : m_pattern.drop s.i = percent :: k.letter :: rest) :
  scan m_pattern 2 s = some (s.pushed k.letter)
  := by
  obtain ⟨-, -, -, hdrop⟩ := charAt_of_drop h
  obtain ⟨hi, hc, -, -⟩ := charAt_of_drop hdrop
  have hopened : s.opened.i < m_pattern.length := hi
  have hletter : charAt m_pattern s.opened.i = some k.letter := hc
  rw [scan_percent hs h, scan_one hopened hs.2, scanStep, hletter, Option.bind_some]
  split
  · rfl
  · simp [k.letter_ne, Scan.pushed, Scan.opened]

/-- Behind `%d` the second pass looks for a format. -/
theorem scan_letterD {m_pattern : Text} {s : Scan} (hs : s.Between) {rest : Text}
    (h : m_pattern.drop s.i = percent :: letterD :: rest) :
  scan m_pattern 2 s = scanDate m_pattern (s.pushed letterD)
  := by
  obtain ⟨-, -, -, hdrop⟩ := charAt_of_drop h
  obtain ⟨hi, hc, -, -⟩ := charAt_of_drop hdrop
  have hopened : s.opened.i < m_pattern.length := hi
  have hletter : charAt m_pattern s.opened.i = some letterD := hc
  rw [scan_percent hs h, scan_one hopened hs.2, scanStep, hletter, Option.bind_some,
    if_neg (by decide), if_neg (by simp [Scan.opened])]
  simp [Scan.pushed, Scan.opened]

theorem drop_pushed {m_pattern : Text} {s : Scan} {a b : Byte} {rest : Text}
    (h : m_pattern.drop s.i = a :: b :: rest) (letter : Byte) :
  m_pattern.drop (s.pushed letter).i = rest
  := by
  change m_pattern.drop (s.i + 2) = rest
  rw [← List.drop_drop, h]
  rfl

/-- A date without a format, in front of something else. -/
theorem scan_date {m_pattern : Text} {s : Scan} (hs : s.Between) {rest : Text}
    (h : m_pattern.drop s.i = percent :: letterD :: rest) (hne : rest ≠ [])
    (hhead : rest.head? ≠ some openBrace) :
  scan m_pattern 2 s = some (s.pushed letterD)
  := by
  obtain ⟨c, rest, rfl⟩ := List.exists_cons_of_ne_nil hne
  obtain ⟨hi, -, hget, -⟩ := charAt_of_drop (drop_pushed h letterD)
  rw [scan_letterD hs h, scanDate, if_pos]
  rw [hget]
  exact ⟨hi, hhead⟩

/-- With nothing behind `%d` the scanner looks behind the end of the pattern. -/
theorem scanDate_of_ended {m_pattern : Text} {s : Scan} (hend : m_pattern.length ≤ s.i) :
  scanDate m_pattern s = none
  := by
  have hdrop : m_pattern.drop (s.i + 1) = [] := by
    apply List.drop_eq_nil_of_le
    omega
  have hbehind : charAt m_pattern (s.i + 1) = none := by
    rw [charAt, if_neg (by omega)]
    apply List.getElem?_eq_none
    omega
  rw [scanDate, if_neg (fun h => absurd h.1 (not_lt.mpr hend)), hdrop]
  dsimp only
  rw [List.takeWhile_nil, List.length_nil, Nat.add_zero, hbehind, Option.map_none]

/-- A date without a format at the end. -/
theorem scan_date_end {m_pattern : Text} {s : Scan} (hs : s.Between)
    (h : m_pattern.drop s.i = [percent, letterD]) :
  scan m_pattern 2 s = none
  := by
  have hlength := congrArg List.length h
  simp only [List.length_drop, List.length_cons, List.length_nil] at hlength
  rw [scan_letterD hs h]
  apply scanDate_of_ended
  simp only [Scan.pushed]
  omega

/-- A date with a format takes two passes. -/
theorem scan_dateFormat {m_pattern : Text} {s : Scan} (hs : s.Between) {fmt rest : Text}
    (hfmt : closeBrace ∉ fmt)
    (h : m_pattern.drop s.i = percent :: letterD :: openBrace :: (fmt ++ closeBrace :: rest)) :
  scan m_pattern 2 s = some ((Part.dateFormat fmt).scanned s)
  := by
  obtain ⟨-, -, hget, hdrop⟩ := charAt_of_drop (drop_pushed h letterD)
  have htake : (fmt ++ closeBrace :: rest).takeWhile (· ≠ closeBrace) = fmt := by
    rw [List.takeWhile_append_of_pos (by simpa using all_ne_of_notMem hfmt)]
    simp
  have hbrace : m_pattern.drop ((s.pushed letterD).i + 1 + fmt.length) = closeBrace :: rest := by
    rw [← List.drop_drop, hdrop, List.drop_left]
  obtain ⟨-, hc, -, -⟩ := charAt_of_drop hbrace
  rw [scan_letterD hs h, scanDate, if_neg (fun hlt => hlt.2 hget), hdrop, htake]
  simp only [hc, Option.map_some, ne_eq, not_true_eq_false, if_false, Part.scanned]
  congr 2
  omega

/-! ### Whole patterns -/

/-- All parts after one another. -/
def scanned (s : Scan) (ps : List Part) : Scan := ps.foldl Part.scanned s

theorem between_scanned {s : Scan} (h : s.Between) (ps : List Part) :
  (scanned s ps).Between
  := by
  induction ps generalizing s with
  | nil => apply h
  | cons p ps ih => apply ih (p.between_scanned h)

theorem Part.i_scanned (s : Scan) (p : Part) :
  (p.scanned s).i = s.i + p.source.length
  := by
  cases p with
  | text t => rfl
  | plain k => rfl
  | date => rfl
  | dateFormat fmt =>
      simp only [Part.scanned, Scan.pushed, Part.source, List.length_cons, List.length_append,
        List.length_nil]
      omega

theorem source_cons (p : Part) (ps : List Part) :
  source (p :: ps) = p.source ++ source ps
  := List.flatMap_cons

theorem i_scanned (s : Scan) (ps : List Part) :
  (scanned s ps).i = s.i + (source ps).length
  := by
  induction ps generalizing s with
  | nil => rfl
  | cons p ps ih =>
      have hrest := ih (p.scanned s)
      rw [scanned] at hrest
      rw [scanned, List.foldl_cons, hrest, p.i_scanned, source_cons, List.length_append]
      omega

theorem dateformat_scanned (s : Scan) (ps : List Part) :
  (scanned s ps).dateformat = s.dateformat ++ (formats ps).flatten
  := by
  induction ps generalizing s with
  | nil => simp [scanned, formats]
  | cons p ps ih =>
      have hrest := ih (p.scanned s)
      rw [scanned] at hrest
      rw [scanned, List.foldl_cons, hrest]
      cases p with
      | text t => rfl
      | plain k => rfl
      | date => simp [Part.scanned, Scan.pushed, formats, Part.format?]
      | dateFormat fmt => simp [Part.scanned, Scan.pushed, formats, Part.format?]

theorem WellFormed.tail {p : Part} {ps : List Part} (h : WellFormed (p :: ps)) :
  WellFormed ps
  := by
  cases p with
  | text t => apply h.2
  | plain k => apply h
  | date => apply h.2
  | dateFormat fmt => apply h.2

theorem Part.passes_le (p : Part) :
  p.passes ≤ p.source.length
  := by
  cases p <;> simp [Part.passes, Part.source]

/-- The passes of one part, unless that is a date with nothing behind it. -/
theorem scan_part {m_pattern : Text} {s : Scan} (hs : s.Between) {p : Part} {ps : List Part}
    (hwf : WellFormed (p :: ps)) (hend : ¬ (p = .date ∧ source ps = []))
    (h : m_pattern.drop s.i = source (p :: ps)) :
  scan m_pattern p.passes s = some (p.scanned s)
  := by
  rw [source_cons] at h
  cases p with
  | text t => apply scan_text hs hwf.1 h
  | plain k => apply scan_plain hs k h
  | date =>
      apply scan_date hs h
      · intro hnil
        apply hend ⟨rfl, hnil⟩
      · apply hwf.1
  | dateFormat fmt =>
      have hsource : m_pattern.drop s.i
          = percent :: letterD :: openBrace :: (fmt ++ closeBrace :: source ps) := by
        rw [h]
        simp [Part.source]
      apply scan_dateFormat hs hwf.1 hsource

theorem drop_scanned {m_pattern : Text} {s : Scan} {p : Part} {ps : List Part}
    (h : m_pattern.drop s.i = source (p :: ps)) :
  m_pattern.drop (p.scanned s).i = source ps
  := by
  rw [p.i_scanned, ← List.drop_drop, h, source_cons, List.drop_left]

/-- The passes of all parts, if none of them is a date with nothing behind it. -/
theorem scan_parts {m_pattern : Text} {s : Scan} (hs : s.Between) {ps : List Part}
    (hwf : WellFormed ps) (hend : ¬ EndsInDate ps) (h : m_pattern.drop s.i = source ps) :
  ∃ k ≤ (source ps).length, scan m_pattern k s = some (scanned s ps)
  := by
  induction ps generalizing s with
  | nil => exact ⟨0, le_refl 0, rfl⟩
  | cons p ps ih =>
      simp only [EndsInDate, not_or] at hend
      obtain ⟨k, hk, hscan⟩ := ih (p.between_scanned hs) hwf.tail hend.2 (drop_scanned h)
      refine ⟨p.passes + k, ?_, ?_⟩
      · have := p.passes_le
        rw [source_cons, List.length_append]
        omega
      · rw [scan_add, scan_part hs hwf hend.1 h, Option.bind_some, hscan]
        rfl

/-- The passes up to a date with nothing behind it. -/
theorem scan_of_endsInDate {m_pattern : Text} {s : Scan} (hs : s.Between) {ps : List Part}
    (hwf : WellFormed ps) (hend : EndsInDate ps) (h : m_pattern.drop s.i = source ps) :
  ∃ k ≤ (source ps).length, scan m_pattern k s = none
  := by
  induction ps generalizing s with
  | nil => cases hend
  | cons p ps ih =>
      by_cases hlast : p = .date ∧ source ps = []
      · obtain ⟨rfl, hnil⟩ := hlast
        rw [source_cons, hnil, List.append_nil] at h
        refine ⟨2, ?_, scan_date_end hs h⟩
        rw [source_cons, List.length_append]
        apply Nat.le_add_right
      · obtain ⟨k, hk, hscan⟩ :=
          ih (p.between_scanned hs) hwf.tail (hend.resolve_left hlast) (drop_scanned h)
        refine ⟨p.passes + k, ?_, ?_⟩
        · have := p.passes_le
          rw [source_cons, List.length_append]
          omega
        · rw [scan_add, scan_part hs hwf hlast h, Option.bind_some, hscan]

theorem between_start :
  start.Between
  := ⟨rfl, rfl⟩

theorem drop_start (m_pattern : Text) :
  m_pattern.drop start.i = m_pattern
  := rfl

/-- The loop ends behind the last part. -/
theorem scan_source {ps : List Part} (hwf : WellFormed ps) (hend : ¬ EndsInDate ps) :
  scan (source ps) (source ps).length start = some (scanned start ps)
  := by
  obtain ⟨k, hk, hscan⟩ := scan_parts between_start hwf hend (drop_start _)
  obtain ⟨n, hn⟩ := Nat.exists_eq_add_of_le hk
  have hended : ¬ ((scanned start ps).i < (source ps).length ∧ (scanned start ps).error = false) := by
    rw [i_scanned]
    change ¬ (0 + (source ps).length < _ ∧ _)
    omega
  rw [hn, scan_add, hscan, Option.bind_some, scan_of_ended hended]

/-- With a date at the end the scanner leaves the pattern. -/
theorem init_of_endsInDate {ps : List Part} (hwf : WellFormed ps) (hend : EndsInDate ps) :
  init (source ps) = none
  := by
  obtain ⟨k, hk, hscan⟩ := scan_of_endsInDate between_start hwf hend (drop_start _)
  obtain ⟨n, hn⟩ := Nat.exists_eq_add_of_le hk
  rw [init]
  nth_rewrite 1 [hn]
  rw [scan_add, hscan]
  rfl

/-! ### Items of a pattern -/

/-- The item for a pattern, `none` for an unknown letter. -/
def itemOf (dateformat : Text) (v : ℕ × Text) : Option FormatItem :=
  if v.1 = 0 then
    some (.string v.2)
  else if v.2 = ascii "d" then
    some (newDateTime dateformat)
  else
    (s_format_items.lookup v.2).map fun C => C v.2

theorem makeItems_of_items {dateformat : Text} {patterns : List (ℕ × Text)} {items : List FormatItem}
    (h : patterns.map (itemOf dateformat) = items.map some) (m_items : List FormatItem) :
  makeItems dateformat m_items patterns = (false, m_items ++ items)
  := by
  induction patterns generalizing items m_items with
  | nil => cases items with
    | nil => simp [makeItems]
    | cons i items => cases h
  | cons v patterns ih => cases items with
    | nil => cases h
    | cons i items =>
        obtain ⟨hv, hrest⟩ := List.cons.inj h
        have hnext := ih hrest (m_items ++ [i])
        rw [List.append_assoc, List.singleton_append] at hnext
        rw [itemOf] at hv
        rw [makeItems]
        split at hv
        · rename_i htype
          rw [if_pos htype, Option.some.inj hv, hnext]
        · rename_i htype
          rw [if_neg htype]
          split at hv
          · rename_i hletter
            rw [if_pos hletter, Option.some.inj hv, hnext]
          · rename_i hletter
            obtain ⟨C, hC, rfl⟩ := Option.map_eq_some_iff.mp hv
            rw [if_neg hletter, hC]
            apply hnext

/-- What a part is written as if all dates have one format. -/
def Part.renderWith (dateformat : Text) (strftime : Text → ℤ → Text) (event : LogEvent) :
    Part → Option Text
  | .text t => some t
  | .plain k => some (k.render event)
  | .date => buffered (strftime (effective dateformat) event.time)
  | .dateFormat _ => buffered (strftime (effective dateformat) event.time)

/-- What a sequence of parts is written as if all dates have one format. -/
def renderWith (dateformat : Text) (strftime : Text → ℤ → Text) (event : LogEvent) (ps : List Part) :
    Option Text :=
  joined (ps.map (Part.renderWith dateformat strftime event))

@[simp]
theorem behind_nil (t : Option Text) :
  behind t (some []) = t
  := by
  cases t <;> simp [behind]

@[simp]
theorem nil_behind (t : Option Text) :
  behind (some []) t = t
  := by
  simp [behind]

theorem behind_assoc (t u v : Option Text) :
  behind (behind t u) v = behind t (behind u v)
  := by
  cases t with
  | none => rfl
  | some a =>
      cases u with
      | none => rfl
      | some b => cases v <;> simp [behind]

@[simp]
theorem joined_nil :
  joined [] = some []
  := rfl

@[simp]
theorem joined_cons (t : Option Text) (ts : List (Option Text)) :
  joined (t :: ts) = behind t (joined ts)
  := rfl

theorem joined_append (ts us : List (Option Text)) :
  joined (ts ++ us) = behind (joined ts) (joined us)
  := by
  induction ts with
  | nil => simp
  | cons t ts ih => rw [List.cons_append, joined_cons, joined_cons, ih, behind_assoc]

/-- If everything is defined, all of it is written. -/
theorem joined_map_of_some {α : Type} {f : α → Option Text} {g : α → Text} {xs : List α}
    (h : ∀ x ∈ xs, f x = some (g x)) :
  joined (xs.map f) = some (xs.flatMap g)
  := by
  induction xs with
  | nil => rfl
  | cons x xs ih =>
      have hrest := ih fun y hy => h y (List.mem_cons_of_mem x hy)
      rw [List.map_cons, joined_cons, h x List.mem_cons_self, hrest]
      rfl

/-- Something that is not defined leaves nothing defined. -/
theorem joined_of_none {ts : List (Option Text)} (h : none ∈ ts) :
  joined ts = none
  := by
  obtain ⟨before, after, rfl⟩ := List.append_of_mem h
  rw [joined_append]
  cases joined before with
  | none => rfl
  | some a => rfl

/-- The items for the patterns and the collected text write a given text. -/
def Scan.Writes (dateformat : Text) (s : Scan) (text : (Text → ℤ → Text) → LogEvent → Option Text) :
    Prop :=
  ∃ items : List FormatItem, s.patterns.map (itemOf dateformat) = items.map some ∧
    ∀ strftime event, behind (format strftime items event) (some s.tmp) = text strftime event

/-- The item for the letter of a part. -/
def Plain.item : Plain → FormatItem
  | .percentSign => .percentSign
  | .message => .message
  | .level => .level
  | .loggerName => .loggerName
  | .elapse => .elapse
  | .fileName => .fileName
  | .line => .line
  | .tab => .tab
  | .newLine => .newLine

theorem itemOf_letter (dateformat : Text) (k : Plain) :
  itemOf dateformat (1, [k.letter]) = some k.item
  := by
  cases k <;> rfl

theorem format_item (strftime : Text → ℤ → Text) (event : LogEvent) (k : Plain) :
  k.item.format strftime event = some (k.render event)
  := by
  cases k <;> rfl

theorem format_append (strftime : Text → ℤ → Text) (items items' : List FormatItem) (event : LogEvent) :
  format strftime (items ++ items') event
    = behind (format strftime items event) (format strftime items' event)
  := by
  rw [format, List.map_append, joined_append]
  rfl

/-- The collected text becomes an item. -/
theorem Scan.Writes.flushed {dateformat : Text} {s : Scan}
    {text : (Text → ℤ → Text) → LogEvent → Option Text} (h : s.Writes dateformat text) :
  ∃ items : List FormatItem, s.flushed.map (itemOf dateformat) = items.map some ∧
    ∀ strftime event, format strftime items event = text strftime event
  := by
  obtain ⟨items, hmap, htext⟩ := h
  rw [Scan.flushed]
  split
  · refine ⟨items ++ [.string s.tmp], ?_, ?_⟩
    · rw [List.map_append, List.map_append, hmap]
      rfl
    · intro strftime event
      have htmp : format strftime [.string s.tmp] event = some s.tmp := behind_nil (some s.tmp)
      rw [← htext, format_append, htmp]
  · rename_i hnil
    refine ⟨items, hmap, ?_⟩
    intro strftime event
    rw [← htext, not_not.mp hnil, behind_nil]

/-- An item behind what is written. -/
theorem Scan.Writes.pushed {dateformat : Text} {s : Scan}
    {text : (Text → ℤ → Text) → LogEvent → Option Text} (h : s.Writes dateformat text) {letter : Byte}
    {item : FormatItem} (hitem : itemOf dateformat (1, [letter]) = some item) :
  (s.pushed letter).Writes dateformat
    fun strftime event => behind (text strftime event) (item.format strftime event)
  := by
  obtain ⟨items, hmap, htext⟩ := h.flushed
  refine ⟨items ++ [item], ?_, ?_⟩
  · rw [Scan.pushed, List.map_append, List.map_append, hmap, List.map_singleton, hitem]
    rfl
  · intro strftime event
    have hone : format strftime [item] event = item.format strftime event := behind_nil _
    have htmp : (s.pushed letter).tmp = [] := rfl
    simp only [← htext]
    rw [format_append, hone, htmp, behind_nil]

/-- One more part. -/
theorem Scan.Writes.part {dateformat : Text} {s : Scan}
    {text : (Text → ℤ → Text) → LogEvent → Option Text} (h : s.Writes dateformat text) (p : Part) :
  (p.scanned s).Writes dateformat
    fun strftime event => behind (text strftime event) (p.renderWith dateformat strftime event)
  := by
  cases p with
  | text t =>
      obtain ⟨items, hmap, htext⟩ := h
      refine ⟨items, hmap, ?_⟩
      intro strftime event
      simp only [← htext]
      rw [behind_assoc]
      rfl
  | plain k =>
      have hk := h.pushed (itemOf_letter dateformat k)
      simp only [format_item] at hk
      apply hk
  | date =>
      have hdate : itemOf dateformat (1, [letterD]) = some (newDateTime dateformat) := rfl
      apply h.pushed hdate
  | dateFormat fmt =>
      have hdate : itemOf dateformat (1, [letterD]) = some (newDateTime dateformat) := rfl
      apply h.pushed hdate

/-- All parts. -/
theorem Scan.Writes.parts {dateformat : Text} {s : Scan}
    {text : (Text → ℤ → Text) → LogEvent → Option Text} (h : s.Writes dateformat text) (ps : List Part) :
  (scanned s ps).Writes dateformat
    fun strftime event => behind (text strftime event) (renderWith dateformat strftime event ps)
  := by
  induction ps generalizing s text with
  | nil => simpa [scanned, renderWith] using h
  | cons p ps ih => simpa [scanned, renderWith, behind_assoc] using ih (h.part p)

/-- What `Init` finds in a pattern: one item for each part, where all dates have the formats of all dates
one behind the other. -/
theorem init_source {ps : List Part} (hwf : WellFormed ps) (hend : ¬ EndsInDate ps) :
  ∃ m_items, init (source ps) = some (false, m_items) ∧
    ∀ strftime event, format strftime m_items event = renderWith (formats ps).flatten strftime event ps
  := by
  have hstart : start.Writes (formats ps).flatten fun _ _ => some [] := ⟨[], rfl, fun _ _ => rfl⟩
  obtain ⟨items, hmap, htext⟩ := (hstart.parts ps).flushed
  have hdates : (scanned start ps).dateformat = (formats ps).flatten := dateformat_scanned start ps
  refine ⟨items, ?_, ?_⟩
  · rw [init, scan_source hwf hend, Option.map_some, (between_scanned between_start ps).2, hdates]
    rw [if_neg (by decide)]
    change some (makeItems _ [] (scanned start ps).flushed) = _
    rw [makeItems_of_items hmap, List.nil_append]
  · intro strftime event
    rw [htext, nil_behind]

/-! ### Formats that do not interfere -/

theorem effective_nil :
  effective [] = defaultDateFormat
  := rfl

theorem effective_of_ne_nil {fmt : Text} (h : fmt ≠ []) :
  effective fmt = fmt
  := if_neg h

/-- Empty formats make no difference to all of them together. -/
theorem flatten_filter (fmts : List Text) :
  (fmts.filter (· ≠ [])).flatten = fmts.flatten
  := by
  induction fmts with
  | nil => rfl
  | cons f fmts ih =>
      rcases eq_or_ne f [] with rfl | hf
      · simpa using ih
      · simpa [hf] using ih

/-- If one of the formats is all of them together, only that one is not empty. -/
theorem length_filter_of_eq_flatten {fmts : List Text} {f : Text} (hne : f ≠ [])
    (h : f = fmts.flatten) (hall : ∀ g ∈ fmts, g ≠ [] → g = f) :
  (fmts.filter (· ≠ [])).length = 1
  := by
  have hflat := flatten_filter fmts
  have hrep : fmts.filter (· ≠ []) = List.replicate (fmts.filter (· ≠ [])).length f := by
    apply List.eq_replicate_of_mem
    intro g hg
    obtain ⟨hmem, hg⟩ := List.mem_filter.mp hg
    apply hall g hmem (by simpa using hg)
  have hlength := congrArg List.length hflat
  rw [hrep, ← h, List.length_flatten, List.map_replicate, List.sum_replicate, smul_eq_mul] at hlength
  apply Nat.eq_of_mul_eq_mul_right (List.length_pos_iff.mpr hne)
  rw [hlength, Nat.one_mul]

/-- All dates are written with their own formats exactly if no format interferes. -/
theorem effective_flatten_iff (fmts : List Text) :
  (∀ f ∈ fmts, effective f = effective fmts.flatten) ↔ Separate fmts
  := by
  constructor
  · intro h
    by_cases hempty : ∀ f ∈ fmts, f = []
    · exact Or.inl hempty
    · push Not at hempty
      obtain ⟨f, hf, hne⟩ := hempty
      have hflatten : fmts.flatten ≠ [] := by
        intro hnil
        apply hne (List.flatten_eq_nil_iff.mp hnil f hf)
      have hall : ∀ g ∈ fmts, g ≠ [] → g = f := by
        intro g hg hgne
        have hgf := (h g hg).trans (h f hf).symm
        rwa [effective_of_ne_nil hgne, effective_of_ne_nil hne] at hgf
      have hf' := h f hf
      rw [effective_of_ne_nil hne, effective_of_ne_nil hflatten] at hf'
      have hone := length_filter_of_eq_flatten hne hf' hall
      by_cases hsome : [] ∈ fmts
      · have hdefault := h [] hsome
        rw [effective_nil, effective_of_ne_nil hflatten, ← hf'] at hdefault
        refine Or.inr (Or.inr ⟨?_, hone⟩)
        intro g hg
        rcases eq_or_ne g [] with hg' | hg'
        · exact Or.inl hg'
        · exact Or.inr ((hall g hg hg').trans hdefault.symm)
      · have hself : fmts.filter (· ≠ []) = fmts := by
          apply List.filter_eq_self.mpr
          intro g hg
          simpa using ne_of_mem_of_not_mem hg hsome
        rw [hself] at hone
        exact Or.inr (Or.inl hone)
  · rintro (hempty | hone | ⟨hdefault, hone⟩) f hf
    · rw [hempty f hf, List.flatten_eq_nil_iff.mpr hempty]
    · obtain ⟨g, rfl⟩ := List.length_eq_one_iff.mp hone
      rw [List.mem_singleton.mp hf, List.flatten_singleton]
    · obtain ⟨g, hg⟩ := List.length_eq_one_iff.mp hone
      obtain ⟨hmem, hne⟩ := List.mem_filter.mp (hg ▸ List.mem_singleton_self g)
      have hgdefault := (hdefault g hmem).resolve_left (by simpa using hne)
      have hflatten : fmts.flatten = defaultDateFormat := by
        rw [← flatten_filter, hg, List.flatten_singleton, hgdefault]
      rw [hflatten]
      rcases hdefault f hf with rfl | rfl
      · rfl
      · rfl

/-- Dates are empty in one format, and have one byte otherwise. -/
def marking (dateformat : Text) (fmt : Text) (_ : ℤ) : Text :=
  if fmt = effective dateformat then [] else [0]

/-- In the one format nothing is written for the dates, and each date with another format is missing. -/
theorem length_render (dateformat : Text) (event : LogEvent) (ps : List Part) :
  ∃ text, renderWith dateformat (marking dateformat) event ps = some text ∧
    (render (marking dateformat) event ps).length
      = text.length + ((formats ps).filter fun f => effective f ≠ effective dateformat).length
  := by
  have hempty : marking dateformat (effective dateformat) event.time = [] := if_pos rfl
  have hdate : ∀ fmt, (marking dateformat (effective fmt) event.time).length
      = ([fmt].filter fun f => effective f ≠ effective dateformat).length := by
    intro fmt
    rw [marking, List.filter_singleton]
    split
    · rename_i h
      simp [h]
    · rename_i h
      simp [h]
  induction ps with
  | nil => exact ⟨[], rfl, rfl⟩
  | cons p ps ih =>
      obtain ⟨text, htext, hlength⟩ := ih
      have hrender : (render (marking dateformat) event (p :: ps)).length
          = (p.render (marking dateformat) event).length + (render (marking dateformat) event ps).length := by
        rw [render, List.flatMap_cons, List.length_append, render]
      have hwith : renderWith dateformat (marking dateformat) event (p :: ps)
          = behind (p.renderWith dateformat (marking dateformat) event) (some text) := by
        rw [← htext]
        rfl
      rw [hrender, hlength, hwith]
      cases p with
      | text t =>
          have hformats : formats (.text t :: ps) = formats ps := rfl
          refine ⟨t ++ text, rfl, ?_⟩
          rw [hformats, List.length_append, Part.render, Nat.add_assoc]
      | plain k =>
          have hformats : formats (.plain k :: ps) = formats ps := rfl
          refine ⟨k.render event ++ text, rfl, ?_⟩
          rw [hformats, List.length_append, Part.render, Nat.add_assoc]
      | date =>
          refine ⟨text, by simp [Part.renderWith, hempty, buffered], ?_⟩
          have hformats : formats (.date :: ps) = [[]] ++ formats ps := rfl
          rw [hformats, List.filter_append, List.length_append, ← hdate, effective_nil, Part.render]
          omega
      | dateFormat fmt =>
          refine ⟨text, by simp [Part.renderWith, hempty, buffered], ?_⟩
          have hformats : formats (.dateFormat fmt :: ps) = [fmt] ++ formats ps := rfl
          rw [hformats, List.filter_append, List.length_append, ← hdate, Part.render]
          omega

/-- If one format for all dates writes them as they are meant, it is the format of each. -/
theorem effective_of_renderWith {dateformat : Text} {ps : List Part} {event : LogEvent}
    (h : renderWith dateformat (marking dateformat) event ps
      = some (render (marking dateformat) event ps)) :
  ∀ f ∈ formats ps, effective f = effective dateformat
  := by
  intro f hf
  obtain ⟨text, htext, hlength⟩ := length_render dateformat event ps
  rw [h] at htext
  rw [Option.some.inj htext, Nat.left_eq_add, List.length_eq_zero_iff] at hlength
  by_contra hne
  have hmem : f ∈ (formats ps).filter fun f => effective f ≠ effective dateformat :=
    List.mem_filter.mpr ⟨hf, by simpa using hne⟩
  rw [hlength] at hmem
  cases hmem

theorem mem_formats {ps : List Part} {fmt : Text} :
  fmt ∈ formats ps ↔ ∃ p ∈ ps, p.format? = some fmt
  := List.mem_filterMap

/-- A part that has room in the buffer is written as it is meant, with the format that it has. -/
theorem renderWith_of_short {dateformat : Text} {ps : List Part} {strftime : Text → ℤ → Text}
    {event : LogEvent} (hformat : ∀ f ∈ formats ps, effective f = effective dateformat)
    (hshort : Short 63 strftime event ps) :
  renderWith dateformat strftime event ps = some (render strftime event ps)
  := by
  apply joined_map_of_some
  intro p hp
  have hbuffered : ∀ fmt, p.format? = some fmt →
      buffered (strftime (effective dateformat) event.time) = some (strftime (effective fmt) event.time) := by
    intro fmt hfmt
    have hmem := mem_formats.mpr ⟨p, hp, hfmt⟩
    rw [← hformat fmt hmem, buffered, if_pos (Nat.lt_succ_of_le (hshort fmt hmem))]
  cases p with
  | text t => rfl
  | plain k => rfl
  | date => apply hbuffered [] rfl
  | dateFormat fmt => apply hbuffered fmt rfl

/-- A date that has no room in the buffer leaves nothing defined. -/
theorem renderWith_of_long {dateformat : Text} {ps : List Part} {strftime : Text → ℤ → Text}
    {event : LogEvent} (hdates : formats ps ≠ [])
    (hlong : 64 ≤ (strftime (effective dateformat) event.time).length) :
  renderWith dateformat strftime event ps = none
  := by
  obtain ⟨fmt, hfmt⟩ := List.exists_mem_of_ne_nil _ hdates
  obtain ⟨p, hp, hformat⟩ := mem_formats.mp hfmt
  have hnone : buffered (strftime (effective dateformat) event.time) = none :=
    if_neg (Nat.not_lt.mpr hlong)
  apply joined_of_none
  refine List.mem_map.mpr ⟨p, hp, ?_⟩
  cases p with
  | text t => cases hformat
  | plain k => cases hformat
  | date => apply hnone
  | dateFormat fmt' => apply hnone

/-- A pattern is implemented, for dates of at most `room` bytes, exactly if it does not end in a date without
a format, no format interferes with another date, and there is no date or all of them have room in the
buffer. -/
theorem implements_iff (p : Pattern) {room : ℕ} (hroom : 0 < room) :
  Implements room p
    ↔ ¬ EndsInDate p.parts ∧ Separate (formats p.parts) ∧ (formats p.parts = [] ∨ room ≤ 63)
  := by
  rw [← effective_flatten_iff]
  by_cases hend : EndsInDate p.parts
  · apply iff_of_false
    · rintro ⟨m_items, hinit, -⟩
      rw [init_of_endsInDate p.wellFormed hend] at hinit
      cases hinit
    · exact fun h => h.1 hend
  obtain ⟨m_items, hinit, hformat⟩ := init_source p.wellFormed hend
  constructor
  · rintro ⟨m_items', hinit', hrender⟩
    obtain rfl : m_items = m_items' := by
      rw [hinit] at hinit'
      injection hinit' with h
      exact (Prod.mk.inj h).2
    simp only [hformat] at hrender
    refine ⟨hend, ?_, ?_⟩
    · refine effective_of_renderWith (hrender _ ⟨.info, [], 0, 0, 0, [], []⟩ ?_)
      intro fmt _
      rw [marking]
      split
      · apply Nat.zero_le room
      · apply hroom
    · by_contra hlong
      obtain ⟨hdates, hlong⟩ := not_or.mp hlong
      have hevent := hrender (fun _ _ => List.replicate 64 0) ⟨.info, [], 0, 0, 0, [], []⟩ (by
        intro fmt _
        rw [List.length_replicate]
        omega)
      rw [renderWith_of_long hdates (by rw [List.length_replicate])] at hevent
      cases hevent
  · rintro ⟨-, hseparate, hdates⟩
    refine ⟨m_items, hinit, ?_⟩
    intro strftime event hshort
    rw [hformat]
    apply renderWith_of_short hseparate
    intro fmt hfmt
    rcases hdates with hnone | hroom'
    · rw [hnone] at hfmt
      cases hfmt
    · apply (hshort fmt hfmt).trans hroom'

/-- Hours and minutes as two dates. -/
def clock : Pattern := ⟨[.dateFormat (ascii "%H"), .text (ascii ":"), .dateFormat (ascii "%M")],
  by decide, by decide, by decide, trivial⟩

theorem implements_iff_clock :
  0 < 63 ∧ (Implements 63 clock ↔ ¬ EndsInDate clock.parts ∧ Separate (formats clock.parts) ∧
    (formats clock.parts = [] ∨ 63 ≤ 63))
  := ⟨by decide, implements_iff clock (by decide)⟩

/-- Both dates of `clock` are written with the formats of both. -/
theorem not_implements_clock :
  ¬ ∀ p, Implements 63 p
  := by
  intro h
  obtain ⟨m_items, hinit, hrender⟩ := h clock
  have hitems : init (source clock.parts)
      = some (false, [newDateTime (ascii "%H%M"), .string (ascii ":"), newDateTime (ascii "%H%M")]) := by
    decide
  rw [hitems] at hinit
  injection hinit with hpair
  obtain rfl := (Prod.mk.inj hpair).2
  have hshort : Short 63 (fun f _ => f) ⟨.info, [], 0, 0, 0, [], []⟩ clock.parts := by
    unfold Short
    decide
  exact absurd (hrender (fun f _ => f) ⟨.info, [], 0, 0, 0, [], []⟩ hshort) (by decide)

example :
  init (ascii "%p%%%d") = none
  := by decide

end LogFormatter

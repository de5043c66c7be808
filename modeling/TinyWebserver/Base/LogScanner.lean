import TinyWebserver.Base.LogFormatter
import TinyWebserver.Lib.Halting

/-!
# The accesses of the pattern scanner

The scanning loop of `LogFormatter::Init` of `src/base/log.cpp` once more, one test at a time, with its
inner loop and a record of the indices of its accesses to `m_pattern`. Behind the end of the pattern there
may be any bytes. The loop always ends, `eval_dom`, with what `scan` gives, `scan_eq`.

`safe_iff`: the loop ends and stays in the pattern exactly if the pattern does not end in a `%d` without a
format, for which the scanner looks two bytes further.
-/

namespace LogFormatter

open StateTransition Halting

/-- Where the loop is: at its head, behind the `i++` for `%d`, at the head of the inner loop, behind the
inner loop, or behind the loop. -/
inductive Place where
  | head
  | date
  | format
  | closing
  | behind
deriving DecidableEq

/-- The loop in a run: its variables, where it is, and the indices of its accesses to `m_pattern`. -/
structure Loop where
  vars : Scan
  place : Place
  accesses : List ℕ

/-- `m_pattern[i]`: a byte of the pattern, `'\0'` at its end, and behind it whatever is there. -/
def byteAt (behind : ℕ → Byte) (m_pattern : Text) (i : ℕ) : Byte :=
  if i = m_pattern.length then 0 else m_pattern[i]?.getD (behind i)

/-- What happens at the head of the loop to an item that is a letter or `%`. -/
def Scan.took (s : Scan) (c : Byte) : Scan :=
  { s with patterns := s.patterns ++ [(1, [c])], parsing_string := true, i := s.i + 1 }

namespace Loop

variable (behind : ℕ → Byte) (m_pattern : Text)

/-- The variables in front of the loop. -/
def start : Loop := ⟨LogFormatter.start, .head, []⟩

/-- From one place to the next. -/
def step : Loop → Option Loop
  | ⟨s, .head, accesses⟩ =>
      if s.i < m_pattern.length then
        let c := byteAt behind m_pattern s.i
        let accesses := accesses ++ [s.i]
        if c = percent then
          if s.parsing_string = true then some ⟨s.opened, .head, accesses⟩
          else some ⟨s.took c, .head, accesses⟩
        else if s.parsing_string = true then
          some ⟨{ s with tmp := s.tmp ++ [c], i := s.i + 1 }, .head, accesses⟩
        else if c ≠ letterD then some ⟨s.took c, .head, accesses⟩
        else some ⟨s.took c, .date, accesses⟩
      else some ⟨s, .behind, accesses⟩
  | ⟨s, .date, accesses⟩ =>
      if s.i < m_pattern.length then
        let accesses := accesses ++ [s.i]
        if byteAt behind m_pattern s.i ≠ openBrace then some ⟨s, .head, accesses⟩
        else some ⟨{ s with i := s.i + 1 }, .format, accesses⟩
      else some ⟨{ s with i := s.i + 1 }, .format, accesses⟩
  | ⟨s, .format, accesses⟩ =>
      if s.i < m_pattern.length then
        let accesses := accesses ++ [s.i]
        if byteAt behind m_pattern s.i ≠ closeBrace then
          let accesses := accesses ++ [s.i]
          some ⟨{ s with dateformat := s.dateformat ++ [byteAt behind m_pattern s.i], i := s.i + 1 },
            .format, accesses⟩
        else some ⟨s, .closing, accesses⟩
      else some ⟨s, .closing, accesses⟩
  | ⟨s, .closing, accesses⟩ =>
      let accesses := accesses ++ [s.i]
      if byteAt behind m_pattern s.i ≠ closeBrace then some ⟨{ s with error := true }, .behind, accesses⟩
      else some ⟨{ s with i := s.i + 1 }, .head, accesses⟩
  | ⟨_, .behind, _⟩ => none

/-- No access was behind the position of the terminator. -/
def InBounds (l : Loop) : Prop := ∀ i ∈ l.accesses, i ≤ m_pattern.length

/-- The loop ends, and no access is behind the position of the terminator. -/
def Safe : Prop :=
  (eval (step behind m_pattern) start).Dom ∧
  ∀ l, Reaches (step behind m_pattern) start l → l.InBounds m_pattern

end Loop

/-- A pattern, read as single bytes, items of one byte, and dates with a format or without, ends in a `%d`
without a format. -/
inductive EndsInBareDate : Text → Prop where
  | bare : EndsInBareDate [percent, letterD]
  | byte {c : Byte} {rest : Text} (hc : c ≠ percent) (h : EndsInBareDate rest) :
      EndsInBareDate (c :: rest)
  | item {c : Byte} {rest : Text} (hc : c ≠ letterD) (h : EndsInBareDate rest) :
      EndsInBareDate (percent :: c :: rest)
  | date {c : Byte} {rest : Text} (hc : c ≠ openBrace) (h : EndsInBareDate (c :: rest)) :
      EndsInBareDate (percent :: letterD :: c :: rest)
  | dateFormat {fmt rest : Text} (hfmt : closeBrace ∉ fmt) (h : EndsInBareDate rest) :
      EndsInBareDate (percent :: letterD :: openBrace :: (fmt ++ closeBrace :: rest))

/-! ### Patterns that end in a date without a format -/

namespace EndsInBareDate

theorem not_nil :
  ¬ EndsInBareDate []
  := nofun

theorem not_percent :
  ¬ EndsInBareDate [percent]
  := by
  rintro (_ | ⟨hc, -⟩)
  apply hc rfl

theorem byte_iff {c : Byte} (hc : c ≠ percent) (rest : Text) :
  EndsInBareDate (c :: rest) ↔ EndsInBareDate rest
  := by
  constructor
  · intro h
    cases h with
    | bare => exact absurd rfl hc
    | byte _ h => apply h
    | item => exact absurd rfl hc
    | date => exact absurd rfl hc
    | dateFormat => exact absurd rfl hc
  · apply byte hc

theorem item_iff {c : Byte} (hc : c ≠ letterD) (rest : Text) :
  EndsInBareDate (percent :: c :: rest) ↔ EndsInBareDate rest
  := by
  constructor
  · intro h
    cases h with
    | bare => exact absurd rfl hc
    | byte hpercent => exact absurd rfl hpercent
    | item _ h => apply h
    | date => exact absurd rfl hc
    | dateFormat => exact absurd rfl hc
  · apply item hc

theorem date_iff {c : Byte} (hc : c ≠ openBrace) (rest : Text) :
  EndsInBareDate (percent :: letterD :: c :: rest) ↔ EndsInBareDate (c :: rest)
  := by
  constructor
  · intro h
    cases h with
    | byte hpercent => exact absurd rfl hpercent
    | item hletter => exact absurd rfl hletter
    | date _ h => apply h
    | dateFormat => exact absurd rfl hc
  · apply date hc

/-- What stands behind `%d{`: a format that ends, and then such a text. -/
theorem open_iff (text : Text) :
  EndsInBareDate (percent :: letterD :: openBrace :: text) ↔
    ∃ fmt rest, closeBrace ∉ fmt ∧ text = fmt ++ closeBrace :: rest ∧ EndsInBareDate rest
  := by
  constructor
  · intro h
    cases h with
    | byte hpercent => exact absurd rfl hpercent
    | item hletter => exact absurd rfl hletter
    | date hbrace => exact absurd rfl hbrace
    | dateFormat hfmt h => exact ⟨_, _, hfmt, rfl, h⟩
  · rintro ⟨fmt, rest, hfmt, rfl, h⟩
    apply dateFormat hfmt h

theorem not_open :
  ¬ EndsInBareDate [percent, letterD, openBrace]
  := by
  rw [open_iff]
  rintro ⟨fmt, rest, -, htext, -⟩
  simp at htext

theorem format_iff {c : Byte} (hc : c ≠ closeBrace) (text : Text) :
  EndsInBareDate (percent :: letterD :: openBrace :: c :: text) ↔
    EndsInBareDate (percent :: letterD :: openBrace :: text)
  := by
  rw [open_iff, open_iff]
  constructor
  · rintro ⟨fmt, rest, hfmt, htext, h⟩
    cases fmt with
    | nil => exact absurd (List.cons.inj htext).1 hc
    | cons b fmt =>
        obtain ⟨rfl, rfl⟩ := List.cons.inj htext
        exact ⟨fmt, rest, List.not_mem_of_not_mem_cons hfmt, rfl, h⟩
  · rintro ⟨fmt, rest, hfmt, rfl, h⟩
    refine ⟨c :: fmt, rest, ?_, rfl, h⟩
    simp [hc.symm, hfmt]

theorem closed_iff (text : Text) :
  EndsInBareDate (percent :: letterD :: openBrace :: closeBrace :: text) ↔ EndsInBareDate text
  := by
  rw [open_iff]
  constructor
  · rintro ⟨fmt, rest, hfmt, htext, h⟩
    cases fmt with
    | nil =>
        obtain ⟨-, rfl⟩ := List.cons.inj htext
        apply h
    | cons b fmt =>
        obtain ⟨rfl, -⟩ := List.cons.inj htext
        simp at hfmt
  · intro h
    exact ⟨[], text, List.not_mem_nil, rfl, h⟩

end EndsInBareDate

/-! ### From one place to the next -/

theorem byteAt_of_drop {m_pattern : Text} {i : ℕ} {c : Byte} {rest : Text}
    (h : m_pattern.drop i = c :: rest) (behind : ℕ → Byte) :
  byteAt behind m_pattern i = c
  := by
  obtain ⟨hi, -, hget, -⟩ := charAt_of_drop h
  rw [byteAt, if_neg hi.ne, hget, Option.getD_some]

namespace Loop

variable {behind : ℕ → Byte} {m_pattern : Text}

/-- What the loop can do, by what is left of the pattern. -/
inductive Move (behind : ℕ → Byte) (m_pattern : Text) : Loop → Loop → Prop where
  | opened {s : Scan} {accesses : List ℕ} {rest : Text} (hdrop : m_pattern.drop s.i = percent :: rest)
      (hs : s.parsing_string = true) :
      Move behind m_pattern ⟨s, .head, accesses⟩ ⟨s.opened, .head, accesses ++ [s.i]⟩
  | byte {s : Scan} {accesses : List ℕ} {c : Byte} {rest : Text} (hdrop : m_pattern.drop s.i = c :: rest)
      (hs : s.parsing_string = true) (hc : c ≠ percent) :
      Move behind m_pattern ⟨s, .head, accesses⟩
        ⟨{ s with tmp := s.tmp ++ [c], i := s.i + 1 }, .head, accesses ++ [s.i]⟩
  | item {s : Scan} {accesses : List ℕ} {c : Byte} {rest : Text} (hdrop : m_pattern.drop s.i = c :: rest)
      (hs : s.parsing_string = false) (hc : c ≠ letterD) :
      Move behind m_pattern ⟨s, .head, accesses⟩ ⟨s.took c, .head, accesses ++ [s.i]⟩
  | date {s : Scan} {accesses : List ℕ} {rest : Text} (hdrop : m_pattern.drop s.i = letterD :: rest)
      (hs : s.parsing_string = false) :
      Move behind m_pattern ⟨s, .head, accesses⟩ ⟨s.took letterD, .date, accesses ++ [s.i]⟩
  | ended {s : Scan} {accesses : List ℕ} (hend : m_pattern.length ≤ s.i) :
      Move behind m_pattern ⟨s, .head, accesses⟩ ⟨s, .behind, accesses⟩
  | bare {s : Scan} {accesses : List ℕ} {c : Byte} {rest : Text} (hdrop : m_pattern.drop s.i = c :: rest)
      (hc : c ≠ openBrace) :
      Move behind m_pattern ⟨s, .date, accesses⟩ ⟨s, .head, accesses ++ [s.i]⟩
  | openFormat {s : Scan} {accesses : List ℕ} {rest : Text}
      (hdrop : m_pattern.drop s.i = openBrace :: rest) :
      Move behind m_pattern ⟨s, .date, accesses⟩ ⟨{ s with i := s.i + 1 }, .format, accesses ++ [s.i]⟩
  | overrun {s : Scan} {accesses : List ℕ} (hend : m_pattern.length ≤ s.i) :
      Move behind m_pattern ⟨s, .date, accesses⟩ ⟨{ s with i := s.i + 1 }, .format, accesses⟩
  | collect {s : Scan} {accesses : List ℕ} {c : Byte} {rest : Text}
      (hdrop : m_pattern.drop s.i = c :: rest) (hc : c ≠ closeBrace) :
      Move behind m_pattern ⟨s, .format, accesses⟩
        ⟨{ s with dateformat := s.dateformat ++ [c], i := s.i + 1 }, .format, accesses ++ [s.i] ++ [s.i]⟩
  | found {s : Scan} {accesses : List ℕ} {rest : Text} (hdrop : m_pattern.drop s.i = closeBrace :: rest) :
      Move behind m_pattern ⟨s, .format, accesses⟩ ⟨s, .closing, accesses ++ [s.i]⟩
  | exhausted {s : Scan} {accesses : List ℕ} (hend : m_pattern.length ≤ s.i) :
      Move behind m_pattern ⟨s, .format, accesses⟩ ⟨s, .closing, accesses⟩
  | unclosed {s : Scan} {accesses : List ℕ} (hbyte : byteAt behind m_pattern s.i ≠ closeBrace) :
      Move behind m_pattern ⟨s, .closing, accesses⟩
        ⟨{ s with error := true }, .behind, accesses ++ [s.i]⟩
  | closed {s : Scan} {accesses : List ℕ} (hbyte : byteAt behind m_pattern s.i = closeBrace) :
      Move behind m_pattern ⟨s, .closing, accesses⟩ ⟨{ s with i := s.i + 1 }, .head, accesses ++ [s.i]⟩

theorem lt_of_drop {i : ℕ} {c : Byte} {rest : Text} (h : m_pattern.drop i = c :: rest) :
  i < m_pattern.length
  := (charAt_of_drop h).1

theorem exists_drop {i : ℕ} (h : i < m_pattern.length) :
  ∃ c rest, m_pattern.drop i = c :: rest
  := ⟨_, _, List.drop_eq_getElem_cons h⟩

/-- A step is a move. -/
theorem move_of_step {l l' : Loop} (h : step behind m_pattern l = some l') :
  Move behind m_pattern l l'
  := by
  obtain ⟨s, place, accesses⟩ := l
  cases place with
  | head =>
      rw [step] at h
      by_cases hi : s.i < m_pattern.length
      · obtain ⟨c, rest, hdrop⟩ := exists_drop hi
        rw [if_pos hi, byteAt_of_drop hdrop] at h
        dsimp only at h
        by_cases hs : s.parsing_string = true
        · by_cases hc : c = percent
          · subst hc
            rw [if_pos rfl, if_pos hs] at h
            obtain rfl := Option.some.inj h
            apply Move.opened hdrop hs
          · rw [if_neg hc, if_pos hs] at h
            obtain rfl := Option.some.inj h
            apply Move.byte hdrop hs hc
        · rw [if_neg hs, if_neg hs] at h
          rw [Bool.not_eq_true] at hs
          by_cases hc : c = letterD
          · subst hc
            obtain rfl := Option.some.inj h
            apply Move.date hdrop hs
          · rw [if_pos hc, ite_self] at h
            obtain rfl := Option.some.inj h
            apply Move.item hdrop hs hc
      · rw [if_neg hi] at h
        obtain rfl := Option.some.inj h
        apply Move.ended (not_lt.mp hi)
  | date =>
      rw [step] at h
      by_cases hi : s.i < m_pattern.length
      · obtain ⟨c, rest, hdrop⟩ := exists_drop hi
        rw [if_pos hi, byteAt_of_drop hdrop] at h
        by_cases hc : c = openBrace
        · subst hc
          obtain rfl := Option.some.inj h
          apply Move.openFormat hdrop
        · rw [if_pos hc] at h
          obtain rfl := Option.some.inj h
          apply Move.bare hdrop hc
      · rw [if_neg hi] at h
        obtain rfl := Option.some.inj h
        apply Move.overrun (not_lt.mp hi)
  | format =>
      rw [step] at h
      by_cases hi : s.i < m_pattern.length
      · obtain ⟨c, rest, hdrop⟩ := exists_drop hi
        rw [if_pos hi, byteAt_of_drop hdrop] at h
        by_cases hc : c = closeBrace
        · subst hc
          obtain rfl := Option.some.inj h
          apply Move.found hdrop
        · rw [if_pos hc] at h
          obtain rfl := Option.some.inj h
          apply Move.collect hdrop hc
      · rw [if_neg hi] at h
        obtain rfl := Option.some.inj h
        apply Move.exhausted (not_lt.mp hi)
  | closing =>
      rw [step] at h
      by_cases hbyte : byteAt behind m_pattern s.i = closeBrace
      · rw [if_neg (not_not_intro hbyte)] at h
        obtain rfl := Option.some.inj h
        apply Move.closed hbyte
      · rw [if_pos hbyte] at h
        obtain rfl := Option.some.inj h
        apply Move.unclosed hbyte
  | behind => cases h

/-- A move is a step. -/
theorem step_of_move {l l' : Loop} (h : Move behind m_pattern l l') :
  step behind m_pattern l = some l'
  := by
  cases h with
  | opened hdrop hs =>
      rw [step, if_pos (lt_of_drop hdrop), byteAt_of_drop hdrop, if_pos rfl, if_pos hs]
  | byte hdrop hs hc =>
      rw [step, if_pos (lt_of_drop hdrop), byteAt_of_drop hdrop, if_neg hc, if_pos hs]
  | item hdrop hs hc =>
      rw [step, if_pos (lt_of_drop hdrop), byteAt_of_drop hdrop]
      simp [hs, hc]
  | date hdrop hs =>
      rw [step, if_pos (lt_of_drop hdrop), byteAt_of_drop hdrop]
      simp [hs, show letterD ≠ percent by decide]
  | ended hend => rw [step, if_neg (not_lt.mpr hend)]
  | bare hdrop hc => rw [step, if_pos (lt_of_drop hdrop), byteAt_of_drop hdrop, if_pos hc]
  | openFormat hdrop =>
      rw [step, if_pos (lt_of_drop hdrop), byteAt_of_drop hdrop, if_neg (not_not_intro rfl)]
  | overrun hend => rw [step, if_neg (not_lt.mpr hend)]
  | collect hdrop hc => rw [step, if_pos (lt_of_drop hdrop), byteAt_of_drop hdrop, if_pos hc]
  | found hdrop =>
      rw [step, if_pos (lt_of_drop hdrop), byteAt_of_drop hdrop, if_neg (not_not_intro rfl)]
  | exhausted hend => rw [step, if_neg (not_lt.mpr hend)]
  | unclosed hbyte => rw [step, if_pos hbyte]
  | closed hbyte => rw [step, if_neg (not_not_intro hbyte)]

/-! ### The end of the loop -/

/-- How many tests are left at most. -/
def rank (m_pattern : Text) (l : Loop) : ℕ :=
  5 * (m_pattern.length - l.vars.i) +
    match l.place with
    | .head => 1
    | .date => 4
    | .format => 3
    | .closing => 2
    | .behind => 0

theorem rank_lt {l l' : Loop} (h : step behind m_pattern l = some l') :
  l'.rank m_pattern < l.rank m_pattern
  := by
  cases move_of_step h with
  | opened hdrop =>
      have hi := lt_of_drop hdrop
      simp only [rank, Scan.opened]
      omega
  | byte hdrop =>
      have hi := lt_of_drop hdrop
      simp only [rank]
      omega
  | item hdrop =>
      have hi := lt_of_drop hdrop
      simp only [rank, Scan.took]
      omega
  | date hdrop =>
      have hi := lt_of_drop hdrop
      simp only [rank, Scan.took]
      omega
  | ended => simp [rank]
  | bare => simp [rank]
  | openFormat =>
      simp only [rank]
      omega
  | overrun =>
      simp only [rank]
      omega
  | collect hdrop =>
      have hi := lt_of_drop hdrop
      simp only [rank]
      omega
  | found => simp [rank]
  | exhausted => simp [rank]
  | unclosed => simp [rank]
  | closed =>
      simp only [rank]
      omega

/-- From any state the loop ends, whatever is behind the pattern. -/
theorem eval_dom (behind : ℕ → Byte) (m_pattern : Text) (l : Loop) :
  (eval (step behind m_pattern) l).Dom
  := eval_dom_of_rank (rank m_pattern) (fun _ _ => rank_lt) l

/-! ### The outlook -/

/-- What is left of the pattern, from the beginning of an item. -/
def remaining (m_pattern : Text) (l : Loop) : Text :=
  match l.place with
  | .head =>
      if l.vars.parsing_string = true then m_pattern.drop l.vars.i
      else percent :: m_pattern.drop l.vars.i
  | .date => percent :: letterD :: m_pattern.drop l.vars.i
  | .format => percent :: letterD :: openBrace :: m_pattern.drop l.vars.i
  | .closing => percent :: letterD :: openBrace :: m_pattern.drop l.vars.i
  | .behind => []

/-- No access was out of bounds and none is going to be. -/
def Outlook (m_pattern : Text) (l : Loop) : Prop :=
  l.InBounds m_pattern ∧ (l.place ≠ .behind → l.vars.i ≤ m_pattern.length) ∧
    ¬ EndsInBareDate (l.remaining m_pattern)

/-- The flag is set within an item, the index is in bounds at the tests that need it, and behind the inner
loop there is a brace unless the pattern has ended. -/
structure Inv (m_pattern : Text) (l : Loop) : Prop where
  flag : l.place ≠ .head → l.place ≠ .behind → l.vars.parsing_string = true
  le : l.InBounds m_pattern → l.place = .head ∨ l.place = .date → l.vars.i ≤ m_pattern.length
  closing : l.place = .closing → m_pattern.length ≤ l.vars.i ∨
    ∃ rest, m_pattern.drop l.vars.i = closeBrace :: rest

theorem inBounds_access (s s' : Scan) (place place' : Place) (accesses : List ℕ) (i : ℕ) :
  InBounds m_pattern ⟨s', place', accesses ++ [i]⟩ ↔
    InBounds m_pattern ⟨s, place, accesses⟩ ∧ i ≤ m_pattern.length
  := by
  simp [InBounds, or_imp, forall_and]

/-- The byte of the terminator is no brace. -/
theorem lt_of_byteAt {i : ℕ} (hbyte : byteAt behind m_pattern i = closeBrace)
    (hi : i ≤ m_pattern.length) :
  i < m_pattern.length
  := by
  apply lt_of_le_of_ne hi
  intro hend
  rw [byteAt, if_pos hend] at hbyte
  exact absurd hbyte (by decide)

theorem inv_start :
  start.Inv m_pattern
  := by
  constructor
  · intro hhead
    exact absurd rfl hhead
  · intros
    apply Nat.zero_le
  · nofun

theorem Inv.step {l l' : Loop} (h : l.Inv m_pattern) (hstep : step behind m_pattern l = some l') :
  l'.Inv m_pattern
  := by
  cases move_of_step hstep with
  | opened hdrop => exact ⟨fun hhead => absurd rfl hhead, fun _ _ => lt_of_drop hdrop, nofun⟩
  | byte hdrop => exact ⟨fun hhead => absurd rfl hhead, fun _ _ => lt_of_drop hdrop, nofun⟩
  | item hdrop => exact ⟨fun hhead => absurd rfl hhead, fun _ _ => lt_of_drop hdrop, nofun⟩
  | date hdrop => exact ⟨fun _ _ => rfl, fun _ _ => lt_of_drop hdrop, nofun⟩
  | ended => exact ⟨fun _ hbehind => absurd rfl hbehind, nofun, nofun⟩
  | bare hdrop => exact ⟨fun hhead => absurd rfl hhead, fun _ _ => (lt_of_drop hdrop).le, nofun⟩
  | openFormat => exact ⟨fun _ _ => h.flag nofun nofun, nofun, nofun⟩
  | overrun => exact ⟨fun _ _ => h.flag nofun nofun, nofun, nofun⟩
  | collect => exact ⟨fun _ _ => h.flag nofun nofun, nofun, nofun⟩
  | found hdrop => exact ⟨fun _ _ => h.flag nofun nofun, nofun, fun _ => Or.inr ⟨_, hdrop⟩⟩
  | exhausted hend => exact ⟨fun _ _ => h.flag nofun nofun, nofun, fun _ => Or.inl hend⟩
  | unclosed => exact ⟨fun _ hbehind => absurd rfl hbehind, nofun, nofun⟩
  | @closed s accesses hbyte =>
      refine ⟨fun hhead => absurd rfl hhead, fun hbounds _ => ?_, nofun⟩
      apply lt_of_byteAt hbyte
      apply ((inBounds_access s _ .closing _ accesses s.i).mp hbounds).2

theorem drop_succ_of_drop {i : ℕ} {c : Byte} {rest : Text} (h : m_pattern.drop i = c :: rest) :
  m_pattern.drop (i + 1) = rest
  := (charAt_of_drop h).2.2.2

theorem Outlook.i_le {s : Scan} {place : Place} {accesses : List ℕ}
    (h : Outlook m_pattern ⟨s, place, accesses⟩) (hplace : place ≠ .behind) :
  s.i ≤ m_pattern.length
  := h.2.1 hplace

/-- Within an item the flag is set. -/
theorem Inv.parsing_string {s : Scan} {place : Place} {accesses : List ℕ}
    (h : Inv m_pattern ⟨s, place, accesses⟩) (hhead : place ≠ .head) (hbehind : place ≠ .behind) :
  s.parsing_string = true
  := h.flag hhead hbehind

/-- Where a byte of the pattern is read the outlook changes only with what remains. -/
theorem outlook_read {s s' : Scan} {place place' : Place} {accesses : List ℕ} {c : Byte} {rest : Text}
    (hdrop : m_pattern.drop s.i = c :: rest) (hi' : s'.i ≤ s.i + 1)
    (hremaining : EndsInBareDate (remaining m_pattern ⟨s, place, accesses⟩) ↔
      EndsInBareDate (remaining m_pattern ⟨s', place', accesses ++ [s.i]⟩)) :
  Outlook m_pattern ⟨s, place, accesses⟩ ↔ Outlook m_pattern ⟨s', place', accesses ++ [s.i]⟩
  := by
  have hi := lt_of_drop hdrop
  rw [Outlook, Outlook, inBounds_access s s' place place', hremaining]
  simp only [hi.le, hi'.trans hi, and_true, implies_true, true_and]

/-- No step changes the outlook. -/
theorem outlook_step {l l' : Loop} (h : l.Inv m_pattern) (hstep : step behind m_pattern l = some l') :
  l.Outlook m_pattern ↔ l'.Outlook m_pattern
  := by
  cases move_of_step hstep with
  | opened hdrop hs =>
      apply outlook_read hdrop le_rfl
      simp [remaining, hs, hdrop, Scan.opened, drop_succ_of_drop hdrop]
  | byte hdrop hs hc =>
      apply outlook_read hdrop le_rfl
      simp [remaining, hs, hdrop, drop_succ_of_drop hdrop, EndsInBareDate.byte_iff hc]
  | item hdrop hs hc =>
      apply outlook_read hdrop le_rfl
      simp [remaining, hs, hdrop, Scan.took, drop_succ_of_drop hdrop, EndsInBareDate.item_iff hc]
  | date hdrop hs =>
      apply outlook_read hdrop le_rfl
      simp [remaining, hs, hdrop, Scan.took, drop_succ_of_drop hdrop]
  | @ended s accesses hend =>
      have hnot : ¬ EndsInBareDate (remaining m_pattern ⟨s, .head, accesses⟩) := by
        rw [remaining, List.drop_eq_nil_of_le hend]
        dsimp only
        split
        · apply EndsInBareDate.not_nil
        · apply EndsInBareDate.not_percent
      constructor
      · rintro ⟨hbounds, -, -⟩
        exact ⟨hbounds, fun hbehind => absurd rfl hbehind, EndsInBareDate.not_nil⟩
      · rintro ⟨hbounds, -, -⟩
        exact ⟨hbounds, fun _ => h.le hbounds (Or.inl rfl), hnot⟩
  | @bare s _ _ _ hdrop hc =>
      have hflag : s.parsing_string = true := h.parsing_string (by decide) (by decide)
      apply outlook_read hdrop (Nat.le_succ _)
      simp [remaining, hflag, hdrop, EndsInBareDate.date_iff hc]
  | openFormat hdrop =>
      apply outlook_read hdrop le_rfl
      simp [remaining, hdrop, drop_succ_of_drop hdrop]
  | @overrun s accesses hend =>
      have hbare : EndsInBareDate (remaining m_pattern ⟨s, .date, accesses⟩) := by
        rw [remaining, List.drop_eq_nil_of_le hend]
        apply EndsInBareDate.bare
      apply iff_of_false
      · rintro ⟨-, -, hnot⟩
        apply hnot hbare
      · intro houtlook
        apply absurd (houtlook.i_le (by decide)) (by simpa using hend)
  | @collect s accesses c rest hdrop hc =>
      have hread : Outlook m_pattern ⟨s, .format, accesses⟩ ↔
          Outlook m_pattern ⟨s, .format, accesses ++ [s.i]⟩ := outlook_read hdrop (Nat.le_succ _) Iff.rfl
      rw [hread]
      apply outlook_read hdrop le_rfl
      simp [remaining, hdrop, drop_succ_of_drop hdrop, EndsInBareDate.format_iff hc]
  | found hdrop =>
      apply outlook_read hdrop (Nat.le_succ _)
      rfl
  | exhausted => simp [Outlook, InBounds, remaining]
  | @unclosed s accesses hbyte =>
      have hend : m_pattern.length ≤ s.i := by
        rcases h.closing rfl with hend | ⟨rest, hdrop⟩
        · apply hend
        · exact absurd (byteAt_of_drop hdrop behind) hbyte
      have hnot : ¬ EndsInBareDate (remaining m_pattern ⟨s, .closing, accesses⟩) := by
        rw [remaining, List.drop_eq_nil_of_le hend]
        apply EndsInBareDate.not_open
      constructor
      · intro houtlook
        refine ⟨?_, fun hbehind => absurd rfl hbehind, EndsInBareDate.not_nil⟩
        rw [inBounds_access s _ .closing _]
        exact ⟨houtlook.1, houtlook.i_le (by decide)⟩
      · rintro ⟨hbounds, -, -⟩
        rw [inBounds_access s _ .closing _] at hbounds
        exact ⟨hbounds.1, fun _ => hbounds.2, hnot⟩
  | @closed s accesses hbyte =>
      rcases h.closing rfl with hend | ⟨rest, hdrop⟩
      · apply iff_of_false
        · intro houtlook
          apply absurd (lt_of_byteAt hbyte (houtlook.i_le (by decide))) (not_lt.mpr hend)
        · intro houtlook
          apply absurd (houtlook.i_le (by decide)) (by simpa using hend)
      · have hflag : s.parsing_string = true := h.parsing_string (by decide) (by decide)
        apply outlook_read hdrop le_rfl
        simp [remaining, hflag, hdrop, drop_succ_of_drop hdrop, EndsInBareDate.closed_iff]

theorem place_of_step_eq_none {l : Loop} (h : step behind m_pattern l = none) :
  l.place = .behind
  := by
  obtain ⟨s, place, accesses⟩ := l
  cases place with
  | head =>
      simp only [step] at h
      split_ifs at h
  | date =>
      simp only [step] at h
      split_ifs at h
  | format =>
      simp only [step] at h
      split_ifs at h
  | closing =>
      simp only [step] at h
      split_ifs at h
  | behind => rfl

/-- Behind the loop there is nothing left. -/
theorem outlook_of_behind {l : Loop} (h : l.place = .behind) (hbounds : l.InBounds m_pattern) :
  l.Outlook m_pattern
  := by
  refine ⟨hbounds, fun hne => absurd h hne, ?_⟩
  rw [remaining, h]
  apply EndsInBareDate.not_nil

/-- The loop stays in bounds all along its run exactly if the outlook is good at its beginning. -/
theorem outlook_start_iff :
  start.Outlook m_pattern ↔ ¬ EndsInBareDate m_pattern
  := by
  simp [Outlook, start, LogFormatter.start, InBounds, remaining]

/-- The loop ends, with all accesses in bounds, exactly if the pattern does not end in a `%d` without a
format. -/
theorem safe_iff (behind : ℕ → Byte) (m_pattern : Text) :
  Safe behind m_pattern ↔ ¬ EndsInBareDate m_pattern
  := by
  have hdom := eval_dom behind m_pattern start
  rw [Safe, and_iff_right hdom, ← outlook_start_iff]
  apply always_iff (fun _ _ => Inv.step) (fun _ _ => outlook_step) (fun _ h => h.1) _ hdom inv_start
  intro l _ hend hbounds
  apply outlook_of_behind (place_of_step_eq_none hend) hbounds

/-- For `"%d"` the scanner looks at the byte with the index 3. -/
theorem not_safe_date :
  ¬ Safe (fun _ => 0) (ascii "%d")
  := by
  intro h
  have hreaches : Reaches (step (fun _ => 0) (ascii "%d")) start
      ⟨⟨3, [(1, ascii "d")], [], [], true, true⟩, .behind, [0, 1, 3]⟩ :=
    .head rfl (.head rfl (.head rfl (.head rfl (.head rfl .refl))))
  have hbounds := h.2 _ hreaches
  exact absurd (hbounds 3 (by decide)) (by decide)

/-! ### The loop and the scanner -/

/-- Accesses stay on the record. -/
theorem inBounds_of_reaches {l l' : Loop} (h : Reaches (step behind m_pattern) l l')
    (hbounds : l'.InBounds m_pattern) :
  l.InBounds m_pattern
  := by
  induction h with
  | refl => apply hbounds
  | tail _ hlast ih =>
      apply ih
      intro i hi
      apply hbounds
      cases move_of_step hlast with
      | ended => apply hi
      | overrun => apply hi
      | exhausted => apply hi
      | _ => simp [hi]

/-- The loop gets from one state to another without an access that is out of bounds. -/
def Stays (behind : ℕ → Byte) (m_pattern : Text) (l l' : Loop) : Prop :=
  Reaches (step behind m_pattern) l l' ∧ (l.InBounds m_pattern → l'.InBounds m_pattern)

theorem Stays.trans {l l' l'' : Loop} (h : Stays behind m_pattern l l')
    (h' : Stays behind m_pattern l' l'') :
  Stays behind m_pattern l l''
  := ⟨h.1.trans h'.1, h'.2 ∘ h.2⟩

/-- A move that reads a byte of the pattern. -/
theorem Stays.read {s s' : Scan} {place place' : Place} {accesses : List ℕ}
    (h : Move behind m_pattern ⟨s, place, accesses⟩ ⟨s', place', accesses ++ [s.i]⟩)
    (hi : s.i ≤ m_pattern.length) :
  Stays behind m_pattern ⟨s, place, accesses⟩ ⟨s', place', accesses ++ [s.i]⟩
  := by
  refine ⟨.single (step_of_move h), fun hbounds => ?_⟩
  apply (inBounds_access s s' place place' accesses s.i).mpr ⟨hbounds, hi⟩

/-- A move that reads nothing. -/
theorem Stays.silent {s s' : Scan} {place place' : Place} {accesses : List ℕ}
    (h : Move behind m_pattern ⟨s, place, accesses⟩ ⟨s', place', accesses⟩) :
  Stays behind m_pattern ⟨s, place, accesses⟩ ⟨s', place', accesses⟩
  := ⟨.single (step_of_move h), fun hbounds => hbounds⟩

/-- The inner loop takes the bytes in front of the brace. -/
theorem stays_format (behind : ℕ → Byte) (s : Scan) (accesses : List ℕ) {fmt rest : Text}
    (hfmt : closeBrace ∉ fmt) (hdrop : m_pattern.drop s.i = fmt ++ rest) :
  ∃ accesses', Stays behind m_pattern ⟨s, .format, accesses⟩
    ⟨{ s with dateformat := s.dateformat ++ fmt, i := s.i + fmt.length }, .format, accesses'⟩
  := by
  induction fmt generalizing s accesses with
  | nil =>
      use accesses
      rw [List.append_nil]
      exact ⟨.refl, fun hbounds => hbounds⟩
  | cons c fmt ih =>
      have hc : c ≠ closeBrace := by
        rintro rfl
        simp at hfmt
      have hi := (lt_of_drop hdrop).le
      have hmove : Stays behind m_pattern ⟨s, .format, accesses⟩
          ⟨{ s with dateformat := s.dateformat ++ [c], i := s.i + 1 }, .format,
            accesses ++ [s.i] ++ [s.i]⟩ := by
        refine ⟨.single (step_of_move (.collect hdrop hc)), fun hbounds => ?_⟩
        rw [inBounds_access s _ .format, inBounds_access s s .format .format]
        exact ⟨⟨hbounds, hi⟩, hi⟩
      obtain ⟨accesses', hrest⟩ := ih { s with dateformat := s.dateformat ++ [c], i := s.i + 1 }
        (accesses ++ [s.i] ++ [s.i]) (List.not_mem_of_not_mem_cons hfmt) (drop_succ_of_drop hdrop)
      use accesses'
      have hsame : s.i + (c :: fmt).length = s.i + 1 + fmt.length := by
        rw [List.length_cons]
        omega
      rw [hsame, List.append_cons]
      apply hmove.trans hrest

/-- The inner loop ends in front of a brace, or at the end of the pattern. -/
theorem stays_closing (behind : ℕ → Byte) (s : Scan) (accesses : List ℕ)
    (h : ∀ c rest, m_pattern.drop s.i = c :: rest → c = closeBrace) :
  ∃ accesses', Stays behind m_pattern ⟨s, .format, accesses⟩ ⟨s, .closing, accesses'⟩
  := by
  by_cases hi : s.i < m_pattern.length
  · obtain ⟨c, rest, hdrop⟩ := exists_drop hi
    obtain rfl := h c rest hdrop
    use accesses ++ [s.i]
    apply Stays.read (.found hdrop) hi.le
  · use accesses
    apply Stays.silent (.exhausted (not_lt.mp hi))

/-- The loop gets in bounds to a place with the variables that the scanner computes, or out of bounds if
the scanner fails. -/
def Gives (behind : ℕ → Byte) (m_pattern : Text) (place : Scan → Place) (l : Loop) : Option Scan → Prop
  | some s => ∃ accesses, Stays behind m_pattern l ⟨s, place s, accesses⟩
  | none => ∃ l', Reaches (step behind m_pattern) l l' ∧ ¬ l'.InBounds m_pattern

theorem Gives.of_stays {place : Scan → Place} {l l' : Loop} {result : Option Scan}
    (h : Stays behind m_pattern l l') (hgives : Gives behind m_pattern place l' result) :
  Gives behind m_pattern place l result
  := by
  cases result with
  | some s =>
      obtain ⟨accesses, hstays⟩ := hgives
      use accesses
      apply h.trans hstays
  | none =>
      obtain ⟨l'', hreaches, hbounds⟩ := hgives
      exact ⟨l'', h.1.trans hreaches, hbounds⟩

/-- Where a pass of the scanner ends: at the head of the loop, or behind it after an error. -/
def passEnd (s : Scan) : Place := if s.error = true then .behind else .head

theorem passEnd_of_no_error {s : Scan} (h : s.error = false) :
  passEnd s = .head
  := by
  rw [passEnd, h]
  rfl

/-- A byte behind the inner loop: without a brace there is an error. -/
theorem gives_closing {s : Scan} (herror : s.error = false) (accesses : List ℕ)
    (hi : s.i ≤ m_pattern.length) :
  Gives behind m_pattern passEnd ⟨s, .closing, accesses⟩
    ((charAt m_pattern s.i).map fun b =>
      if b ≠ closeBrace then { s with error := true } else { s with i := s.i + 1 })
  := by
  have hbyte : charAt m_pattern s.i = some (byteAt behind m_pattern s.i) := by
    rw [charAt, byteAt]
    split
    · rfl
    · rename_i hne
      rw [List.getElem?_eq_getElem (lt_of_le_of_ne hi hne), Option.getD_some]
  rw [hbyte, Option.map_some]
  use accesses ++ [s.i]
  split
  · rename_i hbrace
    apply Stays.read (.unclosed hbrace) hi
  · rename_i hbrace
    rw [passEnd_of_no_error (by exact herror)]
    apply Stays.read (.closed (not_not.mp hbrace)) hi

/-- Where the pattern has ended before, the byte is out of bounds. -/
theorem gives_none_of_closing {s : Scan} (place : Scan → Place) (accesses : List ℕ)
    (hi : m_pattern.length < s.i) :
  Gives behind m_pattern place ⟨s, .closing, accesses⟩ none
  := by
  by_cases hbyte : byteAt behind m_pattern s.i = closeBrace
  · refine ⟨_, .single (step_of_move (.closed hbyte)), fun hbounds => ?_⟩
    apply absurd (hbounds s.i (by simp)) (not_le.mpr hi)
  · refine ⟨_, .single (step_of_move (.unclosed hbyte)), fun hbounds => ?_⟩
    apply absurd (hbounds s.i (by simp)) (not_le.mpr hi)

/-- The inner loop takes what the scanner takes. -/
theorem gives_format {s : Scan} (herror : s.error = false) (accesses : List ℕ)
    (hi : s.i ≤ m_pattern.length) {fmt : Text}
    (hfmt : (m_pattern.drop s.i).takeWhile (· ≠ closeBrace) = fmt) :
  Gives behind m_pattern passEnd ⟨s, .format, accesses⟩
    ((charAt m_pattern (s.i + fmt.length)).map fun b =>
      if b ≠ closeBrace then
        { s with i := s.i + fmt.length, dateformat := s.dateformat ++ fmt, error := true }
      else { s with i := s.i + fmt.length + 1, dateformat := s.dateformat ++ fmt })
  := by
  have hsplit : m_pattern.drop s.i = fmt ++ (m_pattern.drop s.i).dropWhile (· ≠ closeBrace) := by
    rw [← hfmt, List.takeWhile_append_dropWhile]
  have hbrace : closeBrace ∉ fmt := by
    intro hmem
    rw [← hfmt] at hmem
    simpa using List.mem_takeWhile_imp hmem
  have hclosing : ∀ c rest, m_pattern.drop (s.i + fmt.length) = c :: rest → c = closeBrace := by
    intro c rest hdrop
    rw [← List.drop_drop, hsplit, List.drop_left] at hdrop
    have hhead := List.head?_dropWhile_not (fun b => decide (b ≠ closeBrace)) (m_pattern.drop s.i)
    rw [hdrop] at hhead
    simpa using hhead
  have hlength : s.i + fmt.length ≤ m_pattern.length := by
    have hlengths := congrArg List.length hsplit
    rw [List.length_drop, List.length_append] at hlengths
    omega
  obtain ⟨accesses₁, hformat⟩ := stays_format behind s accesses hbrace hsplit
  obtain ⟨accesses₂, hend⟩ := stays_closing behind
    { s with i := s.i + fmt.length, dateformat := s.dateformat ++ fmt } accesses₁ hclosing
  apply Gives.of_stays (hformat.trans hend)
  apply gives_closing (by exact herror) accesses₂ (by exact hlength)

/-- Behind `%d` the loop does what the scanner does. -/
theorem gives_scanDate {s : Scan} (herror : s.error = false) (accesses : List ℕ)
    (hi : s.i ≤ m_pattern.length) :
  Gives behind m_pattern passEnd ⟨s, .date, accesses⟩ (scanDate m_pattern s)
  := by
  rcases hi.lt_or_eq with hlt | hend
  · obtain ⟨c, rest, hdrop⟩ := exists_drop hlt
    obtain ⟨-, -, hget, -⟩ := charAt_of_drop hdrop
    by_cases hc : c = openBrace
    · subst hc
      have hbrace : ¬ (s.i < m_pattern.length ∧ m_pattern[s.i]? ≠ some openBrace) := fun h => h.2 hget
      rw [scanDate, if_neg hbrace]
      apply Gives.of_stays (Stays.read (.openFormat hdrop) hi)
      apply gives_format (by exact herror) (accesses ++ [s.i]) (by exact hlt) rfl
    · have hother : s.i < m_pattern.length ∧ m_pattern[s.i]? ≠ some openBrace := by
        rw [hget]
        exact ⟨hlt, fun heq => hc (Option.some.inj heq)⟩
      rw [scanDate, if_pos hother]
      use accesses ++ [s.i]
      rw [passEnd_of_no_error herror]
      apply Stays.read (.bare hdrop hc) hi
  · rw [scanDate_of_ended hend.ge]
    have hoverrun : Stays behind m_pattern ⟨s, .date, accesses⟩
        ⟨{ s with i := s.i + 1 }, .format, accesses⟩ := .silent (.overrun hend.ge)
    have hexhausted : Stays behind m_pattern ⟨{ s with i := s.i + 1 }, .format, accesses⟩
        ⟨{ s with i := s.i + 1 }, .closing, accesses⟩ :=
      .silent (.exhausted (hend.ge.trans (Nat.le_succ _)))
    apply Gives.of_stays (hoverrun.trans hexhausted)
    apply gives_none_of_closing
    change m_pattern.length < s.i + 1
    omega

/-- A pass of the loop does what a pass of the scanner does. -/
theorem gives_scanStep {s : Scan} (herror : s.error = false) (accesses : List ℕ)
    (hi : s.i < m_pattern.length) :
  Gives behind m_pattern passEnd ⟨s, .head, accesses⟩ (scanStep m_pattern s)
  := by
  obtain ⟨c, rest, hdrop⟩ := exists_drop hi
  obtain ⟨-, hchar, -, -⟩ := charAt_of_drop hdrop
  rw [scanStep, hchar, Option.bind_some]
  by_cases hs : s.parsing_string = true
  · by_cases hc : c = percent
    · subst hc
      rw [if_pos rfl, if_pos hs]
      use accesses ++ [s.i]
      rw [passEnd_of_no_error (by exact herror)]
      apply Stays.read (.opened hdrop hs) hi.le
    · rw [if_neg hc, if_pos hs]
      use accesses ++ [s.i]
      rw [passEnd_of_no_error (by exact herror)]
      apply Stays.read (.byte hdrop hs hc) hi.le
  · rw [if_neg hs, if_neg hs]
    rw [Bool.not_eq_true] at hs
    by_cases hc : c = letterD
    · subst hc
      apply Gives.of_stays (Stays.read (.date hdrop hs) hi.le)
      apply gives_scanDate (by exact herror) (accesses ++ [s.i]) (by exact hi)
    · dsimp only
      rw [if_pos hc, ite_self]
      use accesses ++ [s.i]
      rw [passEnd_of_no_error (by exact herror)]
      apply Stays.read (.item hdrop hs hc) hi.le

theorem i_le_of_scanDate {s s' : Scan} (h : scanDate m_pattern s = some s') :
  s.i ≤ s'.i
  := by
  rw [scanDate] at h
  dsimp only at h
  split at h
  · obtain rfl := Option.some.inj h
    apply le_rfl
  · obtain ⟨b, -, hend⟩ := Option.map_eq_some_iff.mp h
    split at hend
    · subst hend
      dsimp only
      omega
    · subst hend
      dsimp only
      omega

/-- Every pass advances the index. -/
theorem i_lt_of_scanStep {s s' : Scan} (h : scanStep m_pattern s = some s') :
  s.i < s'.i
  := by
  obtain ⟨c, -, hpass⟩ := Option.bind_eq_some_iff.mp h
  by_cases hs : s.parsing_string = true
  · rw [if_pos hs, if_pos hs] at hpass
    split at hpass
    · obtain rfl := Option.some.inj hpass
      apply Nat.lt_succ_self
    · obtain rfl := Option.some.inj hpass
      apply Nat.lt_succ_self
  · rw [if_neg hs, if_neg hs] at hpass
    dsimp only at hpass
    split at hpass
    · obtain rfl := Option.some.inj hpass
      apply Nat.lt_succ_self
    · split at hpass
      · obtain rfl := Option.some.inj hpass
        apply Nat.lt_succ_self
      · apply i_le_of_scanDate hpass

/-- With enough passes the loop does what the scanner does. -/
theorem gives_scan (n : ℕ) {s : Scan} (herror : s.error = false) (accesses : List ℕ)
    (hn : m_pattern.length ≤ s.i + n) :
  Gives behind m_pattern (fun _ => .behind) ⟨s, .head, accesses⟩ (scan m_pattern n s)
  := by
  induction n generalizing s accesses with
  | zero =>
      use accesses
      apply Stays.silent (.ended hn)
  | succ n ih =>
      by_cases hi : s.i < m_pattern.length
      · rw [scan, if_pos ⟨hi, herror⟩]
        have hpass : Gives behind m_pattern passEnd ⟨s, .head, accesses⟩ (scanStep m_pattern s) :=
          gives_scanStep herror accesses hi
        cases hscan : scanStep m_pattern s with
        | none =>
            rw [hscan] at hpass
            apply hpass
        | some s' =>
            rw [hscan] at hpass
            rw [Option.bind_some]
            obtain ⟨accesses', hstays⟩ := hpass
            have hlt := i_lt_of_scanStep hscan
            cases herror' : s'.error with
            | true =>
                rw [scan_of_ended (by simp [herror'])]
                use accesses'
                rwa [passEnd, if_pos herror'] at hstays
            | false =>
                rw [passEnd_of_no_error herror'] at hstays
                apply Gives.of_stays hstays
                apply ih herror' accesses'
                omega
      · rw [scan_of_ended fun h => hi h.1]
        use accesses
        apply Stays.silent (.ended (not_lt.mp hi))

/-- Where the run of the loop ends: in bounds with the variables that the scanner computes, and out of
bounds if the scanner fails. -/
theorem scan_eq {l : Loop} (hl : l ∈ eval (step behind m_pattern) start) :
  (l.InBounds m_pattern → scan m_pattern m_pattern.length LogFormatter.start = some l.vars) ∧
  (¬ l.InBounds m_pattern → scan m_pattern m_pattern.length LogFormatter.start = none)
  := by
  have hgives : Gives behind m_pattern (fun _ => .behind) start
      (scan m_pattern m_pattern.length LogFormatter.start) :=
    gives_scan m_pattern.length rfl [] (Nat.le_add_left _ _)
  cases hscan : scan m_pattern m_pattern.length LogFormatter.start with
  | none =>
      rw [hscan] at hgives
      obtain ⟨l', hreaches, hbounds⟩ := hgives
      have hlast : Reaches (step behind m_pattern) l' l := by
        rw [reaches_eval hreaches] at hl
        apply (mem_eval.mp hl).1
      refine ⟨fun hin => ?_, fun _ => rfl⟩
      exact absurd (inBounds_of_reaches hlast hin) hbounds
  | some s =>
      rw [hscan] at hgives
      obtain ⟨accesses, hreaches, hbounds⟩ := hgives
      obtain rfl : l = ⟨s, .behind, accesses⟩ := Part.mem_unique hl (mem_eval.mpr ⟨hreaches, rfl⟩)
      refine ⟨fun _ => rfl, fun hout => absurd (hbounds nofun) hout⟩

/-- The scanner fails exactly for the patterns for which the loop leaves the pattern. -/
theorem init_eq_none_iff (m_pattern : Text) :
  init m_pattern = none ↔ EndsInBareDate m_pattern
  := by
  have hdom := eval_dom (fun _ => 0) m_pattern start
  obtain ⟨l, hl⟩ := Part.dom_iff_mem.mp hdom
  obtain ⟨hreaches, hlast⟩ := mem_eval.mp hl
  obtain ⟨hin, hout⟩ := scan_eq hl
  have houtlook : start.Outlook m_pattern ↔ l.Outlook m_pattern :=
    reaches_iff (fun _ _ => Inv.step) (fun _ _ => outlook_step) hreaches inv_start
  have hbounds : l.InBounds m_pattern ↔ ¬ EndsInBareDate m_pattern := by
    rw [← outlook_start_iff, houtlook]
    exact ⟨outlook_of_behind (place_of_step_eq_none hlast), fun h => h.1⟩
  rw [init, Option.map_eq_none_iff, ← not_not (a := EndsInBareDate m_pattern), ← hbounds]
  constructor
  · intro hnone hinBounds
    rw [hin hinBounds] at hnone
    cases hnone
  · apply hout

end Loop

/-- For the patterns of the language, a `%d` without a format at the end is a date part at the end. -/
theorem endsInBareDate_source_iff {ps : List Part} (hwf : WellFormed ps) :
  EndsInBareDate (source ps) ↔ EndsInDate ps
  := by
  rw [← Loop.init_eq_none_iff]
  by_cases hend : EndsInDate ps
  · apply iff_of_true (init_of_endsInDate hwf hend) hend
  · obtain ⟨m_items, hinit, -⟩ := init_source hwf hend
    rw [hinit]
    apply iff_of_false nofun hend

end LogFormatter

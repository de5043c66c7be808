import Mathlib.Tactic

/-!
# Texts with quoted literals

A text over any alphabet is taken apart into single characters and quoted literals, where two quotes in a
literal stand for one and an escape changes the character behind it. A value written between quotes as it
is comes back exactly if it is `Verbatim`, `tokens_literal_iff`. The lengths tell: a literal has no more
characters than its text.
-/

namespace Literals

/-- The rules for literals. What an escape makes of a character is at most one character, or both of
them as they are. -/
structure Rules (α : Type*) where
  quote : α
  escape : α
  unescape : α → List α
  escape_ne : escape ≠ quote
  unescape_cases : ∀ c, (unescape c).length ≤ 1 ∨ unescape c = [escape, c] ∧ c ≠ quote ∧ c ≠ escape

/-- A character outside of literals, the value of a literal, or that of a literal without an end. -/
inductive Token (α : Type*) where
  | code (c : α)
  | literal (value : List α)
  | unterminated (value : List α)
deriving DecidableEq

/-- Where the reader of a text is: outside of literals, in a literal with a part of its value, behind a
quote in it or behind an escape in it. -/
inductive Mode (α : Type*) where
  | outside
  | inside (value : List α)
  | quoted (value : List α)
  | escaped (value : List α)

variable {α : Type*}

/-- The least number of characters in the text of a token. -/
def Token.weight : Token α → ℕ
  | .code _ => 1
  | .literal value => value.length + 2
  | .unterminated value => value.length + 1

/-- The least number of characters in a text with these tokens. -/
def weight (ts : List (Token α)) : ℕ := (ts.map Token.weight).sum

/-- The number of characters that have led to a mode, since the last token. -/
def Mode.weight : Mode α → ℕ
  | .outside => 0
  | .inside value => value.length + 1
  | .quoted value => value.length + 2
  | .escaped value => value.length + 2

theorem length_unescape_le (R : Rules α) (c : α) :
  (R.unescape c).length ≤ 2
  := by
  rcases R.unescape_cases c with h | ⟨h, -⟩
  · omega
  · simp [h]

@[simp]
theorem weight_nil :
  weight ([] : List (Token α)) = 0
  := rfl

@[simp]
theorem weight_cons (t : Token α) (ts : List (Token α)) :
  weight (t :: ts) = t.weight + weight ts
  := by
  simp [weight]

@[simp]
theorem weight_append (ts ts' : List (Token α)) :
  weight (ts ++ ts') = weight ts + weight ts'
  := by
  simp [weight]

@[simp]
theorem weight_map_code (cs : List α) :
  weight (cs.map Token.code) = cs.length
  := by
  induction cs with
  | nil => rfl
  | cons c cs ih =>
      rw [List.map_cons, weight_cons, ih, Token.weight, List.length_cons, Nat.add_comm]

variable [DecidableEq α] (R : Rules α)

/-- The tokens of a text. -/
def tokens : Mode α → List α → List (Token α)
  | .outside, [] => []
  | .outside, c :: cs =>
      if c = R.quote then tokens (.inside []) cs else .code c :: tokens .outside cs
  | .inside value, [] => [.unterminated value]
  | .inside value, c :: cs =>
      if c = R.quote then tokens (.quoted value) cs
      else if c = R.escape then tokens (.escaped value) cs
      else tokens (.inside (value ++ [c])) cs
  | .quoted value, [] => [.literal value]
  | .quoted value, c :: cs =>
      if c = R.quote then tokens (.inside (value ++ [R.quote])) cs
      else .literal value :: .code c :: tokens .outside cs
  | .escaped value, [] => [.unterminated (value ++ [R.escape])]
  | .escaped value, c :: cs => tokens (.inside (value ++ R.unescape c)) cs

/-- The value stands for itself between quotes: it has no quote, and every escape in it stays. -/
def Verbatim : List α → Prop
  | [] => True
  | c :: cs => c ≠ R.quote ∧ (c = R.escape → ∃ d ∈ cs.head?, R.unescape d = [R.escape, d]) ∧ Verbatim cs

instance decidableVerbatim : (cs : List α) → Decidable (Verbatim R cs)
  | [] => isTrue trivial
  | c :: cs =>
      have : Decidable (∃ d ∈ cs.head?, R.unescape d = [R.escape, d]) :=
        match cs with
        | [] => isFalse (by simp)
        | d :: _ => decidable_of_iff (R.unescape d = [R.escape, d]) (by simp)
      have := decidableVerbatim cs
      inferInstanceAs (Decidable (_ ∧ _ ∧ _))

variable {R}

theorem tokens_code {cs : List α} (h : R.quote ∉ cs) (rest : List α) :
  tokens R .outside (cs ++ rest) = cs.map .code ++ tokens R .outside rest
  := by
  induction cs with
  | nil => rfl
  | cons c cs ih =>
      rw [List.mem_cons, not_or] at h
      rw [List.cons_append, tokens, if_neg (Ne.symm h.1), ih h.2, List.map_cons, List.cons_append]

/-- Behind a quote that is not followed by another one the literal has ended. -/
theorem tokens_quoted {rest : List α} (h : rest.head? ≠ some R.quote) (value : List α) :
  tokens R (.quoted value) rest = .literal value :: tokens R .outside rest
  := by
  cases rest with
  | nil => rfl
  | cons c cs =>
      have hne : c ≠ R.quote := by simpa using h
      rw [tokens, if_neg hne, tokens, if_neg hne]

theorem tokens_escaped {c : α} (h : R.unescape c = [R.escape, c]) (value cs : List α) :
  tokens R (.inside value) (R.escape :: c :: cs) = tokens R (.inside (value ++ [R.escape, c])) cs
  := by
  rw [tokens, if_neg R.escape_ne, if_pos rfl, tokens, h]

/-- A value that stands for itself is the value of its literal. -/
theorem tokens_literal {cs rest : List α} (h : Verbatim R cs) (hrest : rest.head? ≠ some R.quote)
    (value : List α) :
  tokens R (.inside value) (cs ++ R.quote :: rest)
    = .literal (value ++ cs) :: tokens R .outside rest
  := by
  induction hn : cs.length using Nat.strong_induction_on generalizing cs value with
  | _ n ih =>
      cases cs with
      | nil => rw [List.nil_append, tokens, if_pos rfl, tokens_quoted hrest, List.append_nil]
      | cons c cs =>
          obtain ⟨hquote, hescape, hcs⟩ := h
          by_cases hc : c = R.escape
          · subst hc
            obtain ⟨d, hd, hunescape⟩ := hescape rfl
            cases cs with
            | nil => cases hd
            | cons d' cs =>
                obtain rfl : d' = d := by simpa using hd
                rw [List.cons_append, List.cons_append, tokens_escaped hunescape,
                  ih cs.length (by simp at hn; omega) hcs.2.2 _ rfl, List.append_assoc]
                rfl
          · rw [List.cons_append, tokens, if_neg hquote, if_neg hc,
              ih cs.length (by simp at hn; omega) hcs _ rfl, List.append_assoc]
            rfl

/-! ### Lengths -/

/-- A text is at least as long as its tokens. -/
theorem weight_tokens_le (mode : Mode α) (cs : List α) :
  weight (tokens R mode cs) ≤ mode.weight + cs.length
  := by
  induction cs generalizing mode with
  | nil => cases mode <;> simp [tokens, Token.weight, Mode.weight]
  | cons c cs ih =>
      rw [List.length_cons]
      cases mode with
      | outside =>
          rw [tokens]
          split
          · have hle := ih (.inside [])
            simp only [Mode.weight, List.length_nil] at hle ⊢
            omega
          · have hle := ih .outside
            simp only [Mode.weight, weight_cons, Token.weight] at hle ⊢
            omega
      | inside value =>
          rw [tokens]
          split
          · have hle := ih (.quoted value)
            simp only [Mode.weight] at hle ⊢
            omega
          · split
            · have hle := ih (.escaped value)
              simp only [Mode.weight] at hle ⊢
              omega
            · have hle := ih (.inside (value ++ [c]))
              simp only [Mode.weight, List.length_append, List.length_singleton] at hle ⊢
              omega
      | quoted value =>
          rw [tokens]
          split
          · have hle := ih (.inside (value ++ [R.quote]))
            simp only [Mode.weight, List.length_append, List.length_singleton] at hle ⊢
            omega
          · have hle := ih .outside
            simp only [Mode.weight, weight_cons, Token.weight] at hle ⊢
            omega
      | escaped value =>
          rw [tokens]
          have hle := ih (.inside (value ++ R.unescape c))
          have hlen := length_unescape_le R c
          simp only [Mode.weight, List.length_append] at hle ⊢
          omega

/-- A value whose literal is read back, with tokens behind it that fill the rest of the text, stands for
itself. -/
theorem verbatim_of_tokens {cs rest value : List α} {ts : List (Token α)}
    (hweight : rest.length ≤ weight ts)
    (h : tokens R (.inside value) (cs ++ R.quote :: rest) = .literal (value ++ cs) :: ts) :
  Verbatim R cs
  := by
  induction hn : cs.length using Nat.strong_induction_on generalizing cs value with
  | _ n ih =>
      have hfull : weight (.literal (value ++ cs) :: ts) = value.length + cs.length + 2 + weight ts := by
        simp [Token.weight]
      cases cs with
      | nil => trivial
      | cons c cs =>
          rw [List.length_cons] at hn hfull
          rw [List.cons_append, tokens] at h
          split at h
          · rename_i hquote
            exfalso
            cases hcs : cs ++ R.quote :: rest with
            | nil => simp at hcs
            | cons d ds =>
                have hlen := congrArg List.length hcs
                simp only [List.length_append, List.length_cons] at hlen
                rw [hcs, tokens] at h
                split at h
                · have hle := weight_tokens_le (R := R) (.inside (value ++ [R.quote])) ds
                  rw [h, hfull] at hle
                  simp only [Mode.weight, List.length_append, List.length_singleton] at hle
                  omega
                · simp at h
          · rename_i hquote
            split at h
            · rename_i hescape
              subst hescape
              cases cs with
              | nil =>
                  rw [List.nil_append, tokens] at h
                  have hle := weight_tokens_le (R := R) (.inside (value ++ R.unescape R.quote)) rest
                  rw [h, hfull] at hle
                  rcases R.unescape_cases R.quote with hlen | ⟨-, hne, -⟩
                  · simp only [Mode.weight, List.length_append, List.length_nil] at hle
                    omega
                  · exact absurd rfl hne
              | cons d cs =>
                  rw [List.cons_append, tokens] at h
                  rcases R.unescape_cases d with hlen | ⟨hunescape, hd, hd'⟩
                  · have hle := weight_tokens_le (R := R) (.inside (value ++ R.unescape d))
                      (cs ++ R.quote :: rest)
                    rw [h, hfull] at hle
                    simp only [Mode.weight, List.length_append, List.length_cons] at hle
                    omega
                  · have happend : value ++ R.escape :: d :: cs = value ++ [R.escape, d] ++ cs := by simp
                    rw [hunescape, happend] at h
                    have hrest := ih cs.length (by simp at hn; omega) h rfl
                    refine ⟨R.escape_ne, fun _ => ⟨d, rfl, hunescape⟩, hd, ?_, hrest⟩
                    exact fun heq => absurd heq hd'
            · rename_i hescape
              have happend : value ++ c :: cs = value ++ [c] ++ cs := by simp
              rw [happend] at h
              refine ⟨hquote, fun heq => absurd heq hescape, ih cs.length (by omega) h rfl⟩

/-- A value written between quotes comes back exactly if it stands for itself, where the rest of the
text is as long as its tokens at least. -/
theorem tokens_literal_iff {cs rest : List α} {ts : List (Token α)} (hrest : rest.head? ≠ some R.quote)
    (hweight : rest.length ≤ weight ts) :
  tokens R (.inside []) (cs ++ R.quote :: rest) = .literal cs :: ts ↔
    Verbatim R cs ∧ tokens R .outside rest = ts
  := by
  constructor
  · intro h
    have hverbatim := verbatim_of_tokens hweight h
    refine ⟨hverbatim, ?_⟩
    rw [tokens_literal hverbatim hrest] at h
    exact (List.cons.inj h).2
  · rintro ⟨hverbatim, rfl⟩
    rw [tokens_literal hverbatim hrest, List.nil_append]

/-- The beginning of a text has its tokens only if nothing is cut off. -/
theorem length_le_of_tokens_take {cs : List α} {n : ℕ} {ts : List (Token α)}
    (h : tokens R .outside (cs.take n) = ts) (hweight : cs.length ≤ weight ts) :
  cs.length ≤ n
  := by
  have hle := weight_tokens_le (R := R) .outside (cs.take n)
  rw [h, Mode.weight, List.length_take] at hle
  omega

end Literals

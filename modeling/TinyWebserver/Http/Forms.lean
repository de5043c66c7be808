import TinyWebserver.Http.Parsing

/-!
# The decoder of forms

`ParseFromUrlencoded_` works in the body it decodes. `parseFromUrlencoded_defined_iff` says for
which bodies all its indices are in the body. For a body that is not too long, `formBytes` is the
same decoder on the bytes that are still to be read, and `parseFromUrlencoded_eq` says that the
loop follows it.

The last segment of a form is stored by code of its own, behind the loop. `post_segments` says for
which segments it is treated as the others.
-/

namespace HttpRequest

/-! ### Indices -/

/-- The bytes `xs` from the index `i` on, as far as the loop of the decoder goes when it stops at
`n`: every `%` it meets has two bytes behind it, and the index behind these is an `int`. -/
def EscapesFit (n i : ℕ) (xs : List Byte) : Prop :=
  match xs with
  | [] => True
  | x :: xs =>
      i < n →
        if x = 37 then 2 ≤ xs.length ∧ i + 3 < 2 ^ 31 ∧ EscapesFit n (i + 3) (xs.drop 2)
        else EscapesFit n (i + 1) xs
termination_by xs.length
decreasing_by
  · simp only [List.length_drop, List.length_cons]
    omega
  · simp

theorem escapesFit_of_le {n i : ℕ} {xs : List Byte} (h : n ≤ i) :
  EscapesFit n i xs
  := by
  cases xs with
  | nil => simp [EscapesFit]
  | cons x xs =>
      rw [EscapesFit]
      intro hi
      omega

/-- What one turn of the loop does to the index and to the body. -/
structure Advances (s s' : FormState) (k : ℕ) : Prop where
  i_eq : s'.i = s.i + k
  j_le : s'.j ≤ s'.i
  drop_eq : s'.body.drop s'.i = s.body.drop s'.i
  length_eq : s'.body.length = s.body.length

/-- A turn at a byte other than `%` goes to the next byte. -/
theorem formStep_single {s : FormState} {x : Byte} (hx : s.body[s.i]? = some x) (hne : x ≠ 37)
    (hj : s.j ≤ s.i) :
  ∃ s', formStep s = some s' ∧ Advances s s' 1
  := by
  have hi : s.i < s.body.length := (List.getElem?_eq_some_iff.mp hx).1
  have hread : readAt s.body s.i = some x := by rw [readAt, if_pos hi, hx]
  simp only [formStep, hread, Option.bind_eq_bind, Option.bind_some, if_neg hne]
  split
  · exact ⟨_, rfl, rfl, le_rfl, rfl, rfl⟩
  · split
    · rw [writeAt, if_pos hi, Option.bind_some]
      exact ⟨_, rfl, rfl, Nat.le_succ_of_le hj, List.drop_set_of_lt (Nat.lt_succ_self _), by simp⟩
    · split
      · exact ⟨_, rfl, rfl, le_rfl, rfl, rfl⟩
      · exact ⟨_, rfl, rfl, Nat.le_succ_of_le hj, rfl, rfl⟩

/-- A turn at a `%` goes behind the two bytes that follow it, if there are two. -/
theorem formStep_escape {s : FormState} (hx : s.body[s.i]? = some 37) (hj : s.j ≤ s.i)
    (hfit : s.i + 2 < s.body.length) (hint : s.i + 3 < 2 ^ 31) :
  ∃ s', formStep s = some s' ∧ Advances s s' 3
  := by
  have hread : ∀ k ≤ 2, ∃ b, readAt s.body (s.i + k) = some b := by
    intro k hk
    rw [readAt, if_pos (by omega)]
    exact ⟨_, List.getElem?_eq_getElem (by omega)⟩
  obtain ⟨high, hhigh⟩ := hread 1 (by omega)
  obtain ⟨low, hlow⟩ := hread 2 (by omega)
  have hch : readAt s.body s.i = some 37 := by rw [readAt, if_pos (by omega), hx]
  have hlt : s.i + 1 < s.body.length := by omega
  simp only [formStep, hch, hhigh, hlow, Option.bind_eq_bind, Option.bind_some, writeAt,
    List.length_set, if_pos hfit, if_pos hlt, if_pos hint]
  refine ⟨_, rfl, rfl, Nat.le_add_right_of_le hj, ?_, by simp⟩
  rw [List.drop_set_of_lt (by simp only; omega), List.drop_set_of_lt (by simp only; omega)]

/-- A turn at a `%` fails if there are less than two bytes behind it, or if the index gets too
large. -/
theorem formStep_escape_none {s : FormState} (hx : s.body[s.i]? = some 37)
    (h : ¬ (s.i + 2 < s.body.length ∧ s.i + 3 < 2 ^ 31)) :
  formStep s = none
  := by
  have hi : s.i < s.body.length := (List.getElem?_eq_some_iff.mp hx).1
  have hch : readAt s.body s.i = some 37 := by rw [readAt, if_pos hi, hx]
  simp only [formStep, hch, Option.bind_eq_bind, Option.bind_some]
  cases hhigh : readAt s.body (s.i + 1) with
  | none => rfl
  | some high =>
      cases hlow : readAt s.body (s.i + 2) with
      | none => rfl
      | some low =>
          by_cases hfit : s.i + 2 < s.body.length
          · have hint : ¬ s.i + 3 < 2 ^ 31 := fun hint => h ⟨hfit, hint⟩
            have hlt : s.i + 1 < s.body.length := by omega
            simp only [writeAt, List.length_set, if_pos hfit, if_pos hlt, if_neg hint,
              Option.bind_some]
            rfl
          · simp [writeAt, hfit]

/-- The loop ends, with the index behind the bytes to read, if every `%` it meets fits, and fails
otherwise. -/
theorem formLoop_spec {n fuel : ℕ} {s : FormState} (hn : n ≤ s.body.length) (hj : s.j ≤ s.i)
    (hfuel : n - s.i ≤ fuel) :
  (EscapesFit n s.i (s.body.drop s.i) →
      ∃ s', formLoop n fuel s = some s' ∧ s'.j ≤ s'.i ∧ s'.body.length = s.body.length) ∧
    (¬ EscapesFit n s.i (s.body.drop s.i) → formLoop n fuel s = none)
  := by
  induction fuel generalizing s with
  | zero =>
      have hfit : EscapesFit n s.i (s.body.drop s.i) := escapesFit_of_le (by omega)
      exact ⟨fun _ => ⟨s, rfl, hj, rfl⟩, fun h => absurd hfit h⟩
  | succ fuel ih =>
      rw [formLoop]
      by_cases hi : s.i < n
      · rw [if_pos hi]
        have hlt : s.i < s.body.length := by omega
        have hx : s.body[s.i]? = some s.body[s.i] := List.getElem?_eq_getElem hlt
        rw [List.drop_eq_getElem_cons hlt, EscapesFit]
        generalize s.body[s.i] = x at hx
        have hgo : ∀ {s' k}, 0 < k → Advances s s' k → formStep s = some s' →
            (EscapesFit n (s.i + k) (s.body.drop (s.i + k)) →
              ∃ s'', (formStep s).bind (formLoop n fuel) = some s'' ∧ s''.j ≤ s''.i ∧
                s''.body.length = s.body.length) ∧
            (¬ EscapesFit n (s.i + k) (s.body.drop (s.i + k)) →
              (formStep s).bind (formLoop n fuel) = none) := by
          intro s' k hk hadv hstep
          have hs := ih (s := s') (by rw [hadv.length_eq]; exact hn) hadv.j_le
            (by rw [hadv.i_eq]; omega)
          rw [hadv.drop_eq, hadv.length_eq, hadv.i_eq] at hs
          rw [hstep, Option.bind_some]
          apply hs
        by_cases hpercent : x = 37
        · subst hpercent
          simp only [hi, true_implies, if_true, List.length_drop, List.drop_drop]
          by_cases hfit : s.i + 2 < s.body.length ∧ s.i + 3 < 2 ^ 31
          · obtain ⟨s', hstep, hadv⟩ := formStep_escape hx hj hfit.1 hfit.2
            have hlen : 2 ≤ s.body.length - (s.i + 1) := by omega
            simp only [hlen, hfit.2, true_and, Nat.add_assoc, Nat.reduceAdd]
            apply hgo (by omega) hadv hstep
          · have hlen : ¬ (2 ≤ s.body.length - (s.i + 1) ∧ s.i + 3 < 2 ^ 31 ∧
                EscapesFit n (s.i + 3) (s.body.drop (s.i + 1 + 2))) := by
              rintro ⟨h1, h2, -⟩
              apply hfit ⟨by omega, h2⟩
            rw [formStep_escape_none hx hfit]
            exact ⟨fun h => absurd h hlen, fun _ => rfl⟩
        · obtain ⟨s', hstep, hadv⟩ := formStep_single hx hpercent hj
          simpa only [hi, true_implies, if_neg hpercent] using hgo (by omega) hadv hstep
      · rw [if_neg hi]
        have hfit : EscapesFit n s.i (s.body.drop s.i) := escapesFit_of_le (by omega)
        exact ⟨fun _ => ⟨s, rfl, hj, rfl⟩, fun h => absurd hfit h⟩

/-- The decoder ends and keeps the length of the body if every `%` it meets fits. -/
theorem parseFromUrlencoded_of_escapesFit {r : HttpRequest}
    (h : EscapesFit (toInt r.body.length).toNat 0 r.body) :
  ∃ r', parseFromUrlencoded r = some r' ∧ r'.body.length = r.body.length
  := by
  rw [parseFromUrlencoded]
  split
  · exact ⟨r, rfl, rfl⟩
  · obtain ⟨s', hloop, hj, hlen⟩ := (formLoop_spec (s := ⟨r.body, r.post, [], 0, 0⟩)
      (toNat_toInt_le r.body.length) le_rfl le_rfl).1 h
    simp only [Nat.sub_zero] at hloop
    simp only [hloop, Option.bind_eq_bind, Option.bind_some, if_pos hj]
    exact ⟨_, rfl, hlen⟩

/-- The decoder fails if there is a `%` that does not fit. -/
theorem parseFromUrlencoded_of_not_escapesFit {r : HttpRequest}
    (h : ¬ EscapesFit (toInt r.body.length).toNat 0 r.body) :
  parseFromUrlencoded r = none
  := by
  have hne : r.body.length ≠ 0 := by
    intro hlen
    apply h
    simp [List.eq_nil_of_length_eq_zero hlen, EscapesFit]
  have hloop := (formLoop_spec (s := ⟨r.body, r.post, [], 0, 0⟩)
    (toNat_toInt_le r.body.length) le_rfl le_rfl).2 h
  simp only [Nat.sub_zero] at hloop
  rw [parseFromUrlencoded, if_neg hne]
  simp only [hloop, Option.bind_eq_bind, Option.bind_none]

/-- The decoder reads and writes only bytes of the body and its terminator, keeps `j ≤ i` and keeps
the length of the body exactly if every `%` it meets on its way has two bytes behind it, at
indices that are an `int`. -/
theorem parseFromUrlencoded_defined_iff (r : HttpRequest) :
  (∃ r', parseFromUrlencoded r = some r' ∧ r'.body.length = r.body.length) ↔
    EscapesFit (toInt r.body.length).toNat 0 r.body
  := by
  constructor
  · rintro ⟨r', hr', -⟩
    by_contra hfit
    rw [parseFromUrlencoded_of_not_escapesFit hfit] at hr'
    cases hr'
  · apply parseFromUrlencoded_of_escapesFit

/-- A `%` at the end of the body makes the decoder write behind the body. -/
theorem parseFromUrlencoded_percent_undefined :
  ¬ ∃ r', parseFromUrlencoded { init with body := ascii "a=%" } = some r' ∧
    r'.body.length = (ascii "a=%").length
  := by
  have hnone : parseFromUrlencoded { init with body := ascii "a=%" } = none := by decide
  simp [hnone]

/-! ### The decoder as a function of the bytes -/

/-- What the decoder has read: the entries, the last key, and the bytes behind the last separator
as they are in the body now. -/
structure Fields where
  post : StringMap
  key : List Byte
  value : List Byte

/-- More bytes of a key or of a value. -/
def Fields.push (f : Fields) (xs : List Byte) : Fields := { f with value := f.value ++ xs }

/-- The two bytes the decoder writes behind a `%` in place of two hexadecimal digits. -/
def escapeDigits (high low : Byte) : List Byte :=
  let num := converHex high * 16 + converHex low
  [toByte (num.tdiv 10 + 48), toByte (num.tmod 10 + 48)]

/-- The loop of the decoder on the bytes still to be read. -/
def formBytes (f : Fields) : List Byte → Option Fields
  | [] => some f
  | x :: xs =>
      if x = 61 then formBytes ⟨f.post, f.value, []⟩ xs
      else if x = 43 then formBytes (f.push [space]) xs
      else if x = 37 then
        match xs with
        | high :: low :: rest => formBytes (f.push (37 :: escapeDigits high low)) rest
        | _ => none
      else if x = 38 then formBytes ⟨f.post.set f.key f.value, f.key, []⟩ xs
      else formBytes (f.push [x]) xs

section

variable (f : Fields) (x : Byte) (rest : List Byte)

theorem formBytes_equals :
  formBytes f (61 :: rest) = formBytes ⟨f.post, f.value, []⟩ rest
  := by
  rw [formBytes.eq_def]
  rfl

theorem formBytes_plus :
  formBytes f (43 :: rest) = formBytes (f.push [space]) rest
  := by
  rw [formBytes.eq_def]
  rfl

theorem formBytes_percent (high low : Byte) :
  formBytes f (37 :: high :: low :: rest) = formBytes (f.push (37 :: escapeDigits high low)) rest
  := by
  rw [formBytes.eq_def]
  rfl

theorem formBytes_percent_short (h : rest.length < 2) :
  formBytes f (37 :: rest) = none
  := by
  match rest with
  | [] => rfl
  | [_] => rfl
  | _ :: _ :: _ =>
      simp only [List.length_cons] at h
      omega

theorem formBytes_ampersand :
  formBytes f (38 :: rest) = formBytes ⟨f.post.set f.key f.value, f.key, []⟩ rest
  := by
  rw [formBytes.eq_def]
  rfl

variable {x}

theorem formBytes_other (h61 : x ≠ 61) (h43 : x ≠ 43) (h37 : x ≠ 37) (h38 : x ≠ 38) :
  formBytes f (x :: rest) = formBytes (f.push [x]) rest
  := by
  rw [formBytes.eq_def]
  simp only [if_neg h61, if_neg h43, if_neg h37, if_neg h38]

end

/-- The entries at the end: the last value is stored if it is not empty and its key is new. -/
def Fields.finish (f : Fields) : StringMap :=
  if (f.post f.key).isNone ∧ f.value ≠ [] then f.post.set f.key f.value else f.post

/-- The variables of the loop hold what `f` says, and `rest` is to be read. -/
structure Reads (s : FormState) (f : Fields) (rest : List Byte) : Prop where
  post_eq : s.post = f.post
  key_eq : s.key = f.key
  drop_eq : s.body.drop s.j = f.value ++ rest
  i_eq : s.i = s.j + f.value.length
  length_eq : s.body.length = s.i + rest.length

namespace Reads

variable {s : FormState} {f : Fields} {x : Byte} {rest : List Byte}

theorem getElem?_eq (h : Reads s f rest) (k : ℕ) :
  s.body[s.i + k]? = rest[k]?
  := by
  rw [h.i_eq, Nat.add_assoc, ← List.getElem?_drop, h.drop_eq,
    List.getElem?_append_right (Nat.le_add_right _ _), Nat.add_sub_cancel_left]

theorem readAt_eq (h : Reads s f rest) {k : ℕ} (hx : rest[k]? = some x) :
  readAt s.body (s.i + k) = some x
  := by
  have hk : k < rest.length := (List.getElem?_eq_some_iff.mp hx).1
  have hlen := h.length_eq
  rw [readAt, if_pos (by omega), h.getElem?_eq, hx]

theorem substr_eq (h : Reads s f rest) :
  substr s.body s.j (s.i - s.j) = f.value
  := by
  rw [substr, h.drop_eq, h.i_eq, Nat.add_sub_cancel_left, List.take_left]

/-- The bytes behind a separator are a new key or a new value. -/
theorem separator (h : Reads s f (x :: rest)) (post : StringMap) (key : List Byte) :
  Reads { s with post := post, key := key, j := s.i + 1, i := s.i + 1 } ⟨post, key, []⟩ rest
  := by
  have hdrop : s.body.drop (s.i + 1) = rest := by
    rw [h.i_eq, Nat.add_assoc, ← List.drop_drop, h.drop_eq, List.drop_length_add_append]
    rfl
  have hlen := h.length_eq
  rw [List.length_cons] at hlen
  exact ⟨rfl, rfl, hdrop, rfl, by simp only; omega⟩

/-- A byte that is to be read can be changed. -/
theorem write (h : Reads s f rest) (k : ℕ) (b : Byte) :
  Reads { s with body := s.body.set (s.i + k) b } f (rest.set k b)
  := by
  have hdrop : (s.body.set (s.i + k) b).drop s.j = f.value ++ rest.set k b := by
    rw [List.drop_set, if_neg (by have := h.i_eq; omega), h.drop_eq, h.i_eq, Nat.add_assoc,
      Nat.add_sub_cancel_left, List.set_append_right _ _ (Nat.le_add_right _ _),
      Nat.add_sub_cancel_left]
  have hlen := h.length_eq
  exact ⟨h.post_eq, h.key_eq, hdrop, h.i_eq, by simpa using hlen⟩

/-- The bytes that are passed belong to the key or to the value. -/
theorem advance (xs : List Byte) (h : Reads s f (xs ++ rest)) :
  Reads { s with i := s.i + xs.length } (f.push xs) rest
  := by
  have hi := h.i_eq
  have hlen := h.length_eq
  rw [List.length_append] at hlen
  refine ⟨h.post_eq, h.key_eq, ?_, ?_, by simp only; omega⟩
  · simpa [Fields.push] using h.drop_eq
  · simp only [Fields.push, List.length_append]
    omega

/-- A byte that is to be read can be written. -/
theorem writeAt_eq (h : Reads s f rest) {k : ℕ} (hk : k < rest.length) (b : Byte) :
  writeAt s.body (s.i + k) b = some (s.body.set (s.i + k) b)
  := by
  have hlen := h.length_eq
  rw [writeAt, if_pos (by omega)]

end Reads

/-- A turn of the loop in `s` reads as `formBytes` does. -/
def StepsAs (s : FormState) (f : Fields) (xs : List Byte) : Prop :=
  ∃ s' f' rest, formStep s = some s' ∧ Reads s' f' rest ∧ rest.length < xs.length ∧
    s'.body.length = s.body.length ∧ formBytes f xs = formBytes f' rest

/-- A turn at a `%` with two bytes behind it. -/
theorem stepsAs_percent {s : FormState} {f : Fields} {high low : Byte} {rest : List Byte}
    (h : Reads s f (37 :: high :: low :: rest)) (hlen : s.body.length < 2 ^ 31) :
  StepsAs s f (37 :: high :: low :: rest)
  := by
  have hch : readAt s.body s.i = some 37 := h.readAt_eq (k := 0) rfl
  have hhigh := h.readAt_eq (k := 1) (x := high) rfl
  have hlow := h.readAt_eq (k := 2) (x := low) rfl
  have hi := h.length_eq
  simp only [List.length_cons] at hi
  set num := converHex high * 16 + converHex low with hnum
  have h2 := h.write 2 (toByte (num.tmod 10 + 48))
  have h1 := h2.write 1 (toByte (num.tdiv 10 + 48))
  refine ⟨_, _, rest, ?_, h1.advance (37 :: escapeDigits high low), ?_, by simp, ?_⟩
  · have hw2 := h.writeAt_eq (k := 2) (by simp) (toByte (num.tmod 10 + 48))
    have hw1 := h2.writeAt_eq (k := 1) (by simp) (toByte (num.tdiv 10 + 48))
    simp only [formStep, hch, hhigh, hlow, Option.bind_eq_bind, Option.bind_some, ← hnum, hw2, hw1]
    rw [if_pos (show s.i + 3 < 2 ^ 31 by omega)]
    rfl
  · simp only [List.length_cons]
    omega
  · rw [formBytes_percent]

/-- A turn at another byte. -/
theorem stepsAs_of_ne {s : FormState} {f : Fields} {x : Byte} {rest : List Byte}
    (h : Reads s f (x :: rest)) (h37 : x ≠ 37) :
  StepsAs s f (x :: rest)
  := by
  have hch : readAt s.body s.i = some x := h.readAt_eq (k := 0) rfl
  have hlt : rest.length < (x :: rest).length := by simp
  by_cases h61 : x = 61
  · subst h61
    refine ⟨_, _, rest, ?_, h.separator s.post f.value, hlt, rfl, ?_⟩
    · simp [formStep, hch, h.substr_eq]
    · rw [formBytes_equals, h.post_eq]
  by_cases h43 : x = 43
  · subst h43
    refine ⟨_, _, rest, ?_, (h.write 0 space).advance [space], hlt, by simp, ?_⟩
    · have hwrite := h.writeAt_eq (k := 0) (by simp) space
      rw [Nat.add_zero] at hwrite
      simp [formStep, hch, hwrite]
    · rw [formBytes_plus]
  by_cases h38 : x = 38
  · subst h38
    refine ⟨_, _, rest, ?_, h.separator (f.post.set f.key f.value) f.key, hlt, rfl, ?_⟩
    · simp [formStep, hch, h.substr_eq, h.post_eq, h.key_eq]
    · rw [formBytes_ampersand]
  · refine ⟨_, _, rest, ?_, h.advance [x], hlt, rfl, ?_⟩
    · simp [formStep, hch, h61, h43, h37, h38]
    · rw [formBytes_other f rest h61 h43 h37 h38]

/-- A turn of the loop reads as `formBytes` does, and fails where it does. -/
theorem formStep_eq {s : FormState} {f : Fields} {x : Byte} {rest : List Byte}
    (h : Reads s f (x :: rest)) (hlen : s.body.length < 2 ^ 31) :
  (formBytes f (x :: rest) = none ∧ formStep s = none) ∨ StepsAs s f (x :: rest)
  := by
  by_cases h37 : x = 37
  · subst h37
    have hi := h.length_eq
    have hshort : rest.length < 2 →
        formBytes f (37 :: rest) = none ∧ formStep s = none := by
      intro hrest
      rw [List.length_cons] at hi
      refine ⟨formBytes_percent_short f rest hrest, ?_⟩
      apply formStep_escape_none
      · simpa using h.getElem?_eq 0
      · omega
    match rest with
    | [] => exact Or.inl (hshort (by simp))
    | [_] => exact Or.inl (hshort (by simp))
    | high :: low :: rest => exact Or.inr (stepsAs_percent h hlen)
  · exact Or.inr (stepsAs_of_ne h h37)

/-- The loop of the decoder follows `formBytes`. -/
theorem formLoop_eq {fuel : ℕ} {s : FormState} {f : Fields} {rest : List Byte}
    (h : Reads s f rest) (hlen : s.body.length < 2 ^ 31) (hfuel : rest.length ≤ fuel) :
  (formBytes f rest = none ∧ formLoop s.body.length fuel s = none) ∨
    ∃ s' f', formLoop s.body.length fuel s = some s' ∧ formBytes f rest = some f' ∧ Reads s' f' []
  := by
  induction fuel generalizing s f rest with
  | zero =>
      obtain rfl := List.eq_nil_of_length_eq_zero (Nat.le_zero.mp hfuel)
      exact Or.inr ⟨s, f, rfl, rfl, h⟩
  | succ fuel ih =>
      have hi := h.length_eq
      cases rest with
      | nil =>
          rw [List.length_nil, Nat.add_zero] at hi
          refine Or.inr ⟨s, f, ?_, rfl, h⟩
          rw [formLoop, if_neg (by omega)]
      | cons x rest =>
          rw [List.length_cons] at hi hfuel
          rw [formLoop, if_pos (by omega)]
          obtain ⟨hnone, hstep⟩ | ⟨s', f', rest', hstep, h', hlt, hbody, hbytes⟩ :=
            formStep_eq h hlen
          · exact Or.inl ⟨hnone, by rw [hstep, Option.bind_none]⟩
          · rw [List.length_cons] at hlt
            rw [hstep, Option.bind_some, hbytes, ← hbody]
            apply ih h' (by omega) (by omega)

/-- The decoder on a body that is not too long. -/
theorem parseFromUrlencoded_eq {r : HttpRequest} (hlen : r.body.length < 2 ^ 31) :
  (parseFromUrlencoded r).map post = (formBytes ⟨r.post, [], []⟩ r.body).map Fields.finish
  := by
  rw [parseFromUrlencoded]
  split
  · rename_i hempty
    rw [List.eq_nil_of_length_eq_zero hempty]
    simp [formBytes, Fields.finish]
  · have hn : (toInt r.body.length).toNat = r.body.length := by
      rw [toInt_of_lt hlen, Int.toNat_natCast]
    have hreads : Reads ⟨r.body, r.post, [], 0, 0⟩ ⟨r.post, [], []⟩ r.body :=
      ⟨rfl, rfl, rfl, rfl, by simp⟩
    rw [hn]
    obtain ⟨hnone, hloop⟩ | ⟨s, f, hloop, hsome, hs⟩ := formLoop_eq hreads hlen le_rfl
    · simp only [hloop, hnone, Option.bind_eq_bind, Option.bind_none, Option.map_none]
    · have hj : s.j ≤ s.i := by
        rw [hs.i_eq]
        apply Nat.le_add_right
      have hlast : s.j < s.i ↔ f.value ≠ [] := by
        rw [hs.i_eq, ← List.length_pos_iff]
        omega
      simp only [hloop, hsome, Option.bind_eq_bind, Option.bind_some, if_pos hj, Option.map_some,
        Fields.finish, hs.post_eq, hs.key_eq, hs.substr_eq, hlast]

/-- A body whose length is negative as an `int` is not read. -/
theorem parseFromUrlencoded_of_negative {r : HttpRequest} (hlow : 2 ^ 31 ≤ r.body.length)
    (hhigh : r.body.length < 2 ^ 32) :
  parseFromUrlencoded r = some r
  := by
  have hn : (toInt r.body.length).toNat = 0 := by
    rw [toInt_eq]
    split
    · omega
    · omega
  rw [parseFromUrlencoded, if_neg (by omega), hn]
  simp [formLoop]

/-! ### Segments -/

/-- The entries of a form, stored one after another. -/
def storeAll (post : StringMap) (pairs : List (List Byte × List Byte)) : StringMap :=
  pairs.foldl (fun m p => m.set p.1 p.2) post

/-- The decoder turns the bytes `xs`, which have no separator, into `ys`. -/
def Decodes (xs ys : List Byte) : Prop :=
  ∀ f rest, formBytes f (xs ++ rest) = formBytes (f.push ys) rest

theorem Decodes.nil :
  Decodes [] []
  := by
  intro f rest
  simp [Fields.push]

theorem Decodes.append {xs xs' ys ys' : List Byte} (h : Decodes xs ys) (h' : Decodes xs' ys') :
  Decodes (xs ++ xs') (ys ++ ys')
  := by
  intro f rest
  rw [List.append_assoc, h, h']
  simp [Fields.push]

/-- The decoder turns the segment `seg` into a key and a value. -/
def DecodesPair (p : List Byte × List Byte) (seg : List Byte) : Prop :=
  ∃ k v, Decodes k p.1 ∧ Decodes v p.2 ∧ seg = k ++ 61 :: v

theorem DecodesPair.formBytes_eq {p : List Byte × List Byte} {seg : List Byte}
    (h : DecodesPair p seg) (post : StringMap) (key rest : List Byte) :
  formBytes ⟨post, key, []⟩ (seg ++ rest) = formBytes ⟨post, p.1, p.2⟩ rest
  := by
  obtain ⟨k, v, hk, hv, rfl⟩ := h
  rw [List.append_assoc, hk, List.cons_append, formBytes_equals, hv]
  rfl

/-- All segments but the last one are stored, and the last one is still at hand. -/
theorem formBytes_join {init : List (List Byte × List Byte)} {last : List Byte × List Byte}
    {segs : List (List Byte)} (h : List.Forall₂ DecodesPair (init ++ [last]) segs)
    (post : StringMap) (key : List Byte) :
  formBytes ⟨post, key, []⟩ (List.intercalate [38] segs)
    = some ⟨storeAll post init, last.1, last.2⟩
  := by
  induction init generalizing segs post key with
  | nil =>
      cases h with
      | cons hpair hnil =>
          cases hnil
          have hone := hpair.formBytes_eq post key []
          simpa [formBytes, storeAll] using hone
  | cons p init ih =>
      cases h with
      | @cons _ seg _ rest hpair hrest =>
          have hne : rest ≠ [] := by
            rintro rfl
            cases init with
            | nil => cases hrest
            | cons q qs => cases hrest
          rw [List.intercalate_cons_of_ne_nil hne, List.append_assoc, hpair.formBytes_eq,
            List.singleton_append, formBytes_ampersand, ih hrest]
          rfl

/-- The entries the decoder stores for the segments `segs`, on a request without entries. -/
theorem parseFromUrlencoded_join {r : HttpRequest} {init : List (List Byte × List Byte)}
    {last : List Byte × List Byte} {segs : List (List Byte)}
    (h : List.Forall₂ DecodesPair (init ++ [last]) segs)
    (hbody : r.body = List.intercalate [38] segs) (hlen : r.body.length < 2 ^ 31) :
  (parseFromUrlencoded r).map post
    = some (Fields.finish ⟨storeAll r.post init, last.1, last.2⟩)
  := by
  rw [parseFromUrlencoded_eq hlen, hbody, formBytes_join h, Option.map_some]

/-- A `+` stands for a space. -/
def plusToSpace (xs : List Byte) : List Byte := xs.map fun x => if x = 43 then space else x

/-- Bytes without `=`, `%` and `&`. -/
def NoSpecial (xs : List Byte) : Prop := ∀ x ∈ xs, x ≠ 61 ∧ x ≠ 37 ∧ x ≠ 38

theorem decodes_plusToSpace {xs : List Byte} (h : NoSpecial xs) :
  Decodes xs (plusToSpace xs)
  := by
  induction xs with
  | nil => apply Decodes.nil
  | cons x xs ih =>
      obtain ⟨h61, h37, h38⟩ := h x List.mem_cons_self
      have hx : Decodes [x] (plusToSpace [x]) := by
        intro f rest
        rw [List.singleton_append]
        by_cases h43 : x = 43
        · subst h43
          rw [formBytes_plus]
          rfl
        · rw [formBytes_other f rest h61 h43 h37 h38]
          simp [plusToSpace, h43]
      apply hx.append (ih fun y hy => h y (List.mem_cons_of_mem x hy))

/-- A segment with a key that is not empty, one `=` and no `%`. -/
def IsSegment (p : List Byte × List Byte) : Prop := p.1 ≠ [] ∧ NoSpecial p.1 ∧ NoSpecial p.2

/-- The body made of segments. -/
def joinSegments (pairs : List (List Byte × List Byte)) : List Byte :=
  List.intercalate [38] (pairs.map fun p => p.1 ++ 61 :: p.2)

/-- The entry of a segment. -/
def segmentEntry (p : List Byte × List Byte) : List Byte × List Byte :=
  (plusToSpace p.1, plusToSpace p.2)

theorem decodesPair_segment {p : List Byte × List Byte} (h : IsSegment p) :
  DecodesPair (segmentEntry p) (p.1 ++ 61 :: p.2)
  := by
  exact ⟨p.1, p.2, decodes_plusToSpace h.2.1, decodes_plusToSpace h.2.2, rfl⟩

theorem forall₂_segments {pairs : List (List Byte × List Byte)} (h : ∀ p ∈ pairs, IsSegment p) :
  List.Forall₂ DecodesPair (pairs.map segmentEntry) (pairs.map fun p => p.1 ++ 61 :: p.2)
  := by
  rw [List.forall₂_map_left_iff, List.forall₂_map_right_iff, List.forall₂_same]
  intro p hp
  apply decodesPair_segment (h p hp)

/-- After the decoder the entries are those of all segments, stored from left to right. -/
def StoresSegments (r : HttpRequest) (pairs : List (List Byte × List Byte)) : Prop :=
  ∃ r', parseFromUrlencoded r = some r' ∧ r'.post = storeAll .empty (pairs.map segmentEntry)

/-- The body is not too long, and the last segment either has a key that the segments `init` do not
have and a value that is not empty, or repeats what they store under its key. -/
def LastIsLike (init : List (List Byte × List Byte)) (last : List Byte × List Byte) : Prop :=
  (joinSegments (init ++ [last])).length < 2 ^ 31 ∧
    (storeAll .empty (init.map segmentEntry) (plusToSpace last.1) = none ∧ last.2 ≠ [] ∨
      storeAll .empty (init.map segmentEntry) (plusToSpace last.1) = some (plusToSpace last.2))

theorem storeAll_concat (post : StringMap) (init : List (List Byte × List Byte))
    (last : List Byte × List Byte) :
  storeAll post (init ++ [last]) = (storeAll post init).set last.1 last.2
  := by
  simp [storeAll]

/-- When storing the last entry is the same as storing it only if its key is new and its value is
not empty. -/
theorem finish_eq_set_iff (f : Fields) :
  f.finish = f.post.set f.key f.value ↔
    f.post f.key = none ∧ f.value ≠ [] ∨ f.post f.key = some f.value
  := by
  rw [Fields.finish]
  split
  · rename_i h
    simpa using Or.inl h
  · rename_i h
    have hset : f.post = f.post.set f.key f.value ↔ f.post f.key = some f.value := by
      rw [eq_comm, StringMap.set, Function.update_eq_self_iff, eq_comm]
    simp only [Option.isNone_iff_eq_none] at h
    rw [hset]
    simp [h]

/-- When the decoder stores the segments of a body that is not too long. -/
theorem storesSegments_iff {r : HttpRequest} {init : List (List Byte × List Byte)}
    {last : List Byte × List Byte} (h : ∀ p ∈ init ++ [last], IsSegment p)
    (hbody : r.body = joinSegments (init ++ [last])) (hpost : r.post = .empty)
    (hlen : r.body.length < 2 ^ 31) :
  StoresSegments r (init ++ [last]) ↔
    storeAll .empty (init.map segmentEntry) (plusToSpace last.1) = none ∧ last.2 ≠ [] ∨
    storeAll .empty (init.map segmentEntry) (plusToSpace last.1) = some (plusToSpace last.2)
  := by
  have hpairs := forall₂_segments h
  rw [List.map_append, List.map_singleton] at hpairs
  have hjoin := parseFromUrlencoded_join hpairs hbody hlen
  rw [hpost] at hjoin
  obtain ⟨r', hr', hpost'⟩ := Option.map_eq_some_iff.mp hjoin
  have hvalue : plusToSpace last.2 ≠ [] ↔ last.2 ≠ [] := by simp [plusToSpace]
  have hiff := finish_eq_set_iff ⟨storeAll .empty (init.map segmentEntry),
    plusToSpace last.1, plusToSpace last.2⟩
  dsimp only at hiff
  rw [hvalue] at hiff
  rw [← hiff, StoresSegments, List.map_append, List.map_singleton, storeAll_concat, hr']
  constructor
  · rintro ⟨_, ⟨⟩, hstore⟩
    apply hpost'.symm.trans hstore
  · intro hstore
    exact ⟨r', rfl, hpost'.trans hstore⟩

/-- The segments of a form are all stored alike if the last one is like the others, and for bodies
of less than 4 GiB only then. -/
theorem post_segments {r : HttpRequest} {init : List (List Byte × List Byte)}
    {last : List Byte × List Byte} (h : ∀ p ∈ init ++ [last], IsSegment p)
    (hbody : r.body = joinSegments (init ++ [last])) (hpost : r.post = .empty) :
  (LastIsLike init last → StoresSegments r (init ++ [last])) ∧
    (r.body.length < 2 ^ 32 → StoresSegments r (init ++ [last]) → LastIsLike init last)
  := by
  constructor
  · rintro ⟨hlen, hlast⟩
    rw [← hbody] at hlen
    apply (storesSegments_iff h hbody hpost hlen).mpr hlast
  · intro hlen hstores
    by_cases hshort : r.body.length < 2 ^ 31
    · exact ⟨hbody ▸ hshort, (storesSegments_iff h hbody hpost hshort).mp hstores⟩
    · obtain ⟨r', hr', hstore⟩ := hstores
      rw [parseFromUrlencoded_of_negative (by omega) hlen] at hr'
      cases hr'
      rw [hpost, List.map_append, List.map_singleton, storeAll_concat] at hstore
      have hkey := congrFun hstore (plusToSpace last.1)
      simp [StringMap.empty, StringMap.set, segmentEntry] at hkey

/-- The fields `name=ann` and `name=bob+c`, the second of which repeats the key. -/
def repeatedName : List (List Byte × List Byte) × (List Byte × List Byte) :=
  ([(ascii "name", ascii "ann")], (ascii "name", ascii "bob+c"))

/-- The fields `name=ann` and `pwd=bob+c`. -/
def nameAndPwd : List (List Byte × List Byte) × (List Byte × List Byte) :=
  ([(ascii "name", ascii "ann")], (ascii "pwd", ascii "bob+c"))

/-- The last segment does not overwrite an entry. -/
theorem repeatedName_not_stored :
  (∀ p ∈ repeatedName.1 ++ [repeatedName.2], IsSegment p) ∧
    ¬ StoresSegments { init with body := joinSegments (repeatedName.1 ++ [repeatedName.2]) }
      (repeatedName.1 ++ [repeatedName.2])
  := by
  constructor
  · simp only [IsSegment, NoSpecial]
    decide +kernel
  · rintro ⟨r', hr', hpost⟩
    have hname : (parseFromUrlencoded
        { init with body := joinSegments (repeatedName.1 ++ [repeatedName.2]) }).map
        (fun r => r.post (ascii "name")) = some (some (ascii "ann")) := by decide
    rw [hr', Option.map_some, hpost] at hname
    revert hname
    decide

/-- Two fields with different keys are stored. -/
theorem nameAndPwd_stored :
  StoresSegments { init with body := joinSegments (nameAndPwd.1 ++ [nameAndPwd.2]) }
    (nameAndPwd.1 ++ [nameAndPwd.2])
  := by
  have hsegments : ∀ p ∈ nameAndPwd.1 ++ [nameAndPwd.2], IsSegment p := by
    simp only [IsSegment, NoSpecial]
    decide +kernel
  apply (post_segments hsegments rfl rfl).1
  refine ⟨by decide, Or.inl ⟨by decide, by decide⟩⟩

end HttpRequest

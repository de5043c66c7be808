import TinyWebserver.Base.LexicalCast
import TinyWebserver.Lib.Traversal

/-!
# Setting a variable from a text

`ConfigVar::FromString` of `base/config.h` hands what `LexicalCast` makes of a text to `SetValue`, catches
exceptions, and returns `false` in any case. The conversion of a number takes what it finds at the
beginning of the text. `truthful_iff` says when a call does what its result says: when it fails, and
changes nothing.
-/

namespace FromString

open LexicalCast

/-! ### Conversions -/

/-- What a conversion ends with: an exception, a value that is not initialised or has such a part, or a
value. -/
inductive Conversion (α : Type) where
  | threw
  | uninitialised
  | value (a : α)

namespace Conversion

variable {α β : Type}

/-- The value, if there is one. -/
def toOption : Conversion α → Option α
  | value a => some a
  | _ => none

/-- A conversion of an initialised value. -/
def ofOption : Option α → Conversion α
  | some a => value a
  | none => uninitialised

def map (f : α → β) : Conversion α → Conversion β
  | threw => threw
  | uninitialised => uninitialised
  | value a => value (f a)

/-- Conversions one after the other, until one throws. -/
def collect : List (Conversion α) → Conversion (List α)
  | [] => value []
  | threw :: _ => threw
  | uninitialised :: rest =>
      match collect rest with
      | threw => threw
      | _ => uninitialised
  | value a :: rest => (collect rest).map fun as => a :: as

end Conversion

open Conversion

variable (yaml : Yaml)

/-- The loop over the elements of a sequence, for the conversion of an element. -/
def sequenceOf {α : Type} (convert : Text → Conversion α) (text : Text) : Conversion (List α) :=
  match yaml.load text with
  | none => threw
  | some node => collect ((yaml.items node).map fun item => convert (yaml.emit item))

/-- The loop over the pairs of a map, for the conversion of an element. -/
def mappingOf {α : Type} (convert : Text → Conversion α) (text : Text) :
    Conversion (List (Text × α)) :=
  match (yaml.load text).bind yaml.entries with
  | none => threw
  | some entries =>
      collect (entries.map fun p => (convert (yaml.emit p.2)).map fun a => (p.1, a))

/-- `LexicalCast<std::string, T>`. -/
def lexicalCast : ∀ T, Text → Conversion (Val T)
  | .string, text => value (firstWord text)
  | .character, text => ofOption (firstChar text)
  | .integer type, text => ofOption (extract type text)
  | .vector T, text => sequenceOf yaml (lexicalCast T) text
  | .list T, text => sequenceOf yaml (lexicalCast T) text
  | .set T, text => (sequenceOf yaml (lexicalCast T) text).map List.toFinset
  | .unorderedSet T, text => (sequenceOf yaml (lexicalCast T) text).map List.toFinset
  | .map T, text => (mappingOf yaml (lexicalCast T) text).map Dict.ofList
  | .unorderedMap T, text => (mappingOf yaml (lexicalCast T) text).map Dict.ofList

/-! ### Variables -/

/-- The value and the listeners of a `ConfigVar`, and the calls of listeners so far, each with the old and
the new value. -/
structure Variable (T : Ty) where
  m_val : Val T
  m_cbs : List ℕ
  called : List (ℕ × Val T × Val T)

/-- `SetValue`. -/
def Variable.setValue {T : Ty} (x : Variable T) (v : Val T) : Variable T :=
  if v = x.m_val then
    x
  else
    { x with m_val := v, called := x.called ++ x.m_cbs.map fun key => (key, x.m_val, v) }

/-- `FromString`, with `none` if the value of the variable would not be initialised. -/
def fromString {T : Ty} (x : Variable T) (val : Text) : Option (Bool × Variable T) :=
  match lexicalCast yaml T val with
  | value v => some (false, x.setValue v)
  | threw => some (false, x)
  | uninitialised => none

/-! ### Texts and values -/

/-- A text with a number in decimal digits, and at most a sign in front of them. -/
def Numeral (text : Text) (z : ℤ) : Prop :=
  ∃ digits : Text, digits ≠ [] ∧ (∀ c ∈ digits, isDigit c = true) ∧
    (text = digits ∧ z = digitsValue digits ∨ text = 43 :: digits ∧ z = digitsValue digits ∨
      text = 45 :: digits ∧ z = -digitsValue digits)

/-- The whole text stands for a value: a number of the type, or a sequence or a map, with different keys, of
such texts. -/
def Denotes : ∀ T, Text → Val T → Prop
  | .string, text, s => s = text
  | .character, text, c => text = [c]
  | .integer _, text, z => Numeral text z.1
  | .vector T, text, l => ∃ nodes, yaml.load text = some (yaml.sequence nodes) ∧
      List.Forall₂ (fun node a => Denotes T (yaml.emit node) a) nodes l
  | .list T, text, l => ∃ nodes, yaml.load text = some (yaml.sequence nodes) ∧
      List.Forall₂ (fun node a => Denotes T (yaml.emit node) a) nodes l
  | .set T, text, s => ∃ nodes l, yaml.load text = some (yaml.sequence nodes) ∧
      List.Forall₂ (fun node a => Denotes T (yaml.emit node) a) nodes l ∧ s = l.toFinset
  | .unorderedSet T, text, s => ∃ nodes l, yaml.load text = some (yaml.sequence nodes) ∧
      List.Forall₂ (fun node a => Denotes T (yaml.emit node) a) nodes l ∧ s = l.toFinset
  | .map T, text, d => ∃ pairs l, yaml.load text = some (yaml.mapping pairs) ∧
      (pairs.map Prod.fst).Nodup ∧
      List.Forall₂ (fun p q => p.1 = q.1 ∧ Denotes T (yaml.emit p.2) q.2) pairs l ∧ d.pairs = l.toFinset
  | .unorderedMap T, text, d => ∃ pairs l, yaml.load text = some (yaml.mapping pairs) ∧
      (pairs.map Prod.fst).Nodup ∧
      List.Forall₂ (fun p q => p.1 = q.1 ∧ Denotes T (yaml.emit p.2) q.2) pairs l ∧ d.pairs = l.toFinset

/-- A call does what its result says: the whole text stands for a value, the variable gets it, and the
listeners are called if it is a new one, or there is no such value, and nothing happens. -/
def Truthful {T : Ty} (x : Variable T) (text : Text) : Prop :=
  (∀ v, Denotes yaml T text v → fromString yaml x text = some (true,
    { m_val := v
      m_cbs := x.m_cbs
      called := x.called ++ if v = x.m_val then [] else x.m_cbs.map fun key => (key, x.m_val, v) })) ∧
  ((¬ ∃ v, Denotes yaml T text v) → fromString yaml x text = some (false, x))

/-- A sequence cannot be read: the text is not YAML, or an element cannot be read. -/
def SequenceFails (Fails : Text → Prop) (text : Text) : Prop :=
  yaml.load text = none ∨
    ∃ node, yaml.load text = some node ∧ ∃ item ∈ yaml.items node, Fails (yaml.emit item)

/-- A map cannot be read: the text is not YAML or has a key that is not a scalar, or an element cannot be
read. -/
def MappingFails (Fails : Text → Prop) (text : Text) : Prop :=
  (yaml.load text).bind yaml.entries = none ∨
    ∃ entries, (yaml.load text).bind yaml.entries = some entries ∧
      ∃ p ∈ entries, Fails (yaml.emit p.2)

/-- A text that cannot be read. -/
def Fails : Ty → Text → Prop
  | .string, _ => False
  | .character, _ => False
  | .integer _, _ => False
  | .vector T, text => SequenceFails yaml (Fails T) text
  | .list T, text => SequenceFails yaml (Fails T) text
  | .set T, text => SequenceFails yaml (Fails T) text
  | .unorderedSet T, text => SequenceFails yaml (Fails T) text
  | .map T, text => MappingFails yaml (Fails T) text
  | .unorderedMap T, text => MappingFails yaml (Fails T) text

/-- The elements of a sequence, read from the texts of its nodes. -/
def SequenceReads {α : Type} (Reads : Text → α → Prop) (text : Text) (l : List α) : Prop :=
  ∃ node, yaml.load text = some node ∧
    List.Forall₂ (fun item a => Reads (yaml.emit item) a) (yaml.items node) l

/-- The pairs of a map, read from the texts of its nodes. -/
def MappingReads {α : Type} (Reads : Text → α → Prop) (text : Text) (l : List (Text × α)) : Prop :=
  ∃ entries, (yaml.load text).bind yaml.entries = some entries ∧
    List.Forall₂ (fun p q => p.1 = q.1 ∧ Reads (yaml.emit p.2) q.2) entries l

/-- What is read from a text if streams take the words and numbers at the beginning. -/
def Reads : ∀ T, Text → Val T → Prop
  | .string, text, s => firstWord text = s
  | .character, text, c => firstChar text = some c
  | .integer type, text, z => extract type text = some z
  | .vector T, text, l => SequenceReads yaml (Reads T) text l
  | .list T, text, l => SequenceReads yaml (Reads T) text l
  | .set T, text, s => ∃ l, SequenceReads yaml (Reads T) text l ∧ l.toFinset = s
  | .unorderedSet T, text, s => ∃ l, SequenceReads yaml (Reads T) text l ∧ l.toFinset = s
  | .map T, text, d => ∃ l, MappingReads yaml (Reads T) text l ∧ Dict.ofList l = d
  | .unorderedMap T, text, d => ∃ l, MappingReads yaml (Reads T) text l ∧ Dict.ofList l = d

/-! ### Conversions read backwards -/

namespace Conversion

variable {α β : Type}

theorem map_eq_threw_iff {f : α → β} {c : Conversion α} :
  c.map f = threw ↔ c = threw
  := by
  cases c <;> simp [Conversion.map]

theorem map_eq_value_iff {f : α → β} {c : Conversion α} {b : β} :
  c.map f = value b ↔ ∃ a, c = value a ∧ f a = b
  := by
  cases c <;> simp [Conversion.map]

theorem value_inj_iff {a b : α} :
  value a = value b ↔ a = b
  := by
  simp

theorem ofOption_ne_threw (o : Option α) :
  ofOption o ≠ threw
  := by
  cases o <;> simp [ofOption]

theorem ofOption_eq_value_iff {o : Option α} {a : α} :
  ofOption o = value a ↔ o = some a
  := by
  cases o <;> simp [ofOption]

/-- One of the conversions throws exactly if all together do. -/
theorem collect_eq_threw_iff (cs : List (Conversion α)) :
  collect cs = threw ↔ threw ∈ cs
  := by
  induction cs with
  | nil => simp [collect]
  | cons c cs ih => cases c with
    | threw => simp [collect]
    | value a => simp [collect, map_eq_threw_iff, ih]
    | uninitialised =>
        rw [collect]
        cases h : collect cs with
        | threw => simpa using ih.mp h
        | uninitialised => simp [← ih, h]
        | value as => simp [← ih, h]

theorem collect_eq_value_iff (cs : List (Conversion α)) (l : List α) :
  collect cs = value l ↔ List.Forall₂ (fun c a => c = value a) cs l
  := by
  induction cs generalizing l with
  | nil => simp [collect, eq_comm]
  | cons c cs ih => cases c with
    | threw => simp [collect, List.forall₂_cons_left_iff]
    | uninitialised =>
        rw [collect]
        cases collect cs <;> simp [List.forall₂_cons_left_iff]
    | value a =>
        rw [collect, map_eq_value_iff, List.forall₂_cons_left_iff]
        constructor
        · rintro ⟨as, has, rfl⟩
          exact ⟨a, as, rfl, (ih as).mp has, rfl⟩
        · rintro ⟨a', as, ha, has, rfl⟩
          injection ha with ha
          exact ⟨as, (ih as).mpr has, by rw [ha]⟩

theorem toOption_map (f : α → β) (c : Conversion α) :
  (c.map f).toOption = c.toOption.map f
  := by
  cases c <;> rfl

theorem toOption_ofOption (o : Option α) :
  (ofOption o).toOption = o
  := by
  cases o <;> rfl

/-- All values, if all conversions end with one. -/
theorem toOption_collect {γ : Type} (f : γ → Conversion α) (l : List γ) :
  (collect (l.map f)).toOption = l.mapM fun c => (f c).toOption
  := by
  induction l with
  | nil => rfl
  | cons c l ih =>
      rw [Traversal.mapM_cons_eq, ← ih, List.map_cons]
      cases hc : f c with
      | threw => rfl
      | uninitialised =>
          rw [collect]
          cases collect (l.map f) <;> rfl
      | value a =>
          rw [collect, toOption_map]
          rfl

end Conversion

variable {yaml}

theorem sequenceOf_eq_threw_iff {α : Type} {convert : Text → Conversion α} {Fails : Text → Prop}
    (h : ∀ text, convert text = threw ↔ Fails text) (text : Text) :
  sequenceOf yaml convert text = threw ↔ SequenceFails yaml Fails text
  := by
  rw [sequenceOf, SequenceFails]
  cases yaml.load text with
  | none => simp
  | some node => simp [collect_eq_threw_iff, h]

theorem mappingOf_eq_threw_iff {α : Type} {convert : Text → Conversion α} {Fails : Text → Prop}
    (h : ∀ text, convert text = threw ↔ Fails text) (text : Text) :
  mappingOf yaml convert text = threw ↔ MappingFails yaml Fails text
  := by
  rw [mappingOf, MappingFails]
  cases (yaml.load text).bind yaml.entries with
  | none => simp
  | some entries => simp [collect_eq_threw_iff, map_eq_threw_iff, h]

theorem sequenceOf_eq_value_iff {α : Type} {convert : Text → Conversion α} {Reads : Text → α → Prop}
    (h : ∀ text a, convert text = value a ↔ Reads text a) (text : Text) (l : List α) :
  sequenceOf yaml convert text = value l ↔ SequenceReads yaml Reads text l
  := by
  rw [sequenceOf, SequenceReads]
  cases yaml.load text with
  | none => simp
  | some node => simp [collect_eq_value_iff, List.forall₂_map_left_iff, h]

theorem mappingOf_eq_value_iff {α : Type} {convert : Text → Conversion α} {Reads : Text → α → Prop}
    (h : ∀ text a, convert text = value a ↔ Reads text a) (text : Text) (l : List (Text × α)) :
  mappingOf yaml convert text = value l ↔ MappingReads yaml Reads text l
  := by
  have hpair : ∀ (p : Text × yaml.Node) (q : Text × α),
      (convert (yaml.emit p.2)).map (fun a => (p.1, a)) = value q ↔
        p.1 = q.1 ∧ Reads (yaml.emit p.2) q.2 := by
    rintro p ⟨key, a⟩
    rw [map_eq_value_iff]
    constructor
    · rintro ⟨a', ha', heq⟩
      obtain ⟨rfl, rfl⟩ := Prod.mk.inj heq
      exact ⟨rfl, (h _ _).mp ha'⟩
    · rintro ⟨rfl, ha⟩
      exact ⟨a, (h _ _).mpr ha, rfl⟩
  rw [mappingOf, MappingReads]
  cases (yaml.load text).bind yaml.entries with
  | none => simp
  | some entries => simp [collect_eq_value_iff, List.forall₂_map_left_iff, hpair]

theorem map_sequenceOf_eq_value_iff {α β : Type} {convert : Text → Conversion α}
    {Reads : Text → α → Prop} (h : ∀ text a, convert text = value a ↔ Reads text a) (f : List α → β)
    (text : Text) (b : β) :
  (sequenceOf yaml convert text).map f = value b ↔ ∃ l, SequenceReads yaml Reads text l ∧ f l = b
  := by
  rw [map_eq_value_iff]
  simp only [sequenceOf_eq_value_iff h]

theorem map_mappingOf_eq_value_iff {α β : Type} {convert : Text → Conversion α}
    {Reads : Text → α → Prop} (h : ∀ text a, convert text = value a ↔ Reads text a)
    (f : List (Text × α) → β) (text : Text) (b : β) :
  (mappingOf yaml convert text).map f = value b ↔ ∃ l, MappingReads yaml Reads text l ∧ f l = b
  := by
  rw [map_eq_value_iff]
  simp only [mappingOf_eq_value_iff h]

/-- The conversion throws exactly if the text cannot be read. -/
theorem lexicalCast_eq_threw_iff (T : Ty) (text : Text) :
  lexicalCast yaml T text = threw ↔ Fails yaml T text
  := by
  induction T generalizing text with
  | string => simp [lexicalCast, Fails]
  | character => apply iff_of_false (ofOption_ne_threw _) id
  | integer type => apply iff_of_false (ofOption_ne_threw _) id
  | vector T ih => apply sequenceOf_eq_threw_iff ih
  | list T ih => apply sequenceOf_eq_threw_iff ih
  | set T ih => apply map_eq_threw_iff.trans (sequenceOf_eq_threw_iff ih text)
  | unorderedSet T ih => apply map_eq_threw_iff.trans (sequenceOf_eq_threw_iff ih text)
  | map T ih => apply map_eq_threw_iff.trans (mappingOf_eq_threw_iff ih text)
  | unorderedMap T ih => apply map_eq_threw_iff.trans (mappingOf_eq_threw_iff ih text)

/-- The conversion gives what is read from the text. -/
theorem lexicalCast_eq_value_iff (T : Ty) (text : Text) (v : Val T) :
  lexicalCast yaml T text = value v ↔ Reads yaml T text v
  := by
  induction T generalizing text with
  | string => apply value_inj_iff
  | character => apply ofOption_eq_value_iff
  | integer type => apply ofOption_eq_value_iff
  | vector T ih => apply sequenceOf_eq_value_iff fun text a => ih text a
  | list T ih => apply sequenceOf_eq_value_iff fun text a => ih text a
  | set T ih => apply map_sequenceOf_eq_value_iff fun text a => ih text a
  | unorderedSet T ih => apply map_sequenceOf_eq_value_iff fun text a => ih text a
  | map T ih => apply map_mappingOf_eq_value_iff fun text a => ih text a
  | unorderedMap T ih => apply map_mappingOf_eq_value_iff fun text a => ih text a

theorem toOption_sequenceOf {α : Type} {convert : Text → Conversion α} {fromText : Text → Option α}
    (h : ∀ text, (convert text).toOption = fromText text) (text : Text) :
  (sequenceOf yaml convert text).toOption = sequenceFromText yaml fromText text
  := by
  rw [sequenceOf, sequenceFromText]
  cases yaml.load text with
  | none => rfl
  | some node => simp [toOption_collect, h]

theorem toOption_mappingOf {α : Type} {convert : Text → Conversion α} {fromText : Text → Option α}
    (h : ∀ text, (convert text).toOption = fromText text) (text : Text) :
  (mappingOf yaml convert text).toOption = mappingFromText yaml fromText text
  := by
  rw [mappingOf, mappingFromText, ← Option.bind_assoc]
  cases (yaml.load text).bind yaml.entries with
  | none => rfl
  | some entries => simp [toOption_collect, toOption_map, h]

/-- Where it ends with a value, it is the one that a variable gets back from its own text. -/
theorem toOption_lexicalCast (T : Ty) (text : Text) :
  (lexicalCast yaml T text).toOption = fromText yaml T text
  := by
  induction T generalizing text with
  | string => rfl
  | character => apply toOption_ofOption
  | integer type => apply toOption_ofOption
  | vector T ih => apply toOption_sequenceOf ih
  | list T ih => apply toOption_sequenceOf ih
  | set T ih => exact (toOption_map _ _).trans (congrArg _ (toOption_sequenceOf ih text))
  | unorderedSet T ih => exact (toOption_map _ _).trans (congrArg _ (toOption_sequenceOf ih text))
  | map T ih => exact (toOption_map _ _).trans (congrArg _ (toOption_mappingOf ih text))
  | unorderedMap T ih => exact (toOption_map _ _).trans (congrArg _ (toOption_mappingOf ih text))

/-! ### What the result says -/

/-- The result is `false`. -/
theorem fst_fromString {T : Ty} {x : Variable T} {text : Text} {result : Bool} {x' : Variable T}
    (h : fromString yaml x text = some (result, x')) :
  result = false
  := by
  rw [fromString] at h
  split at h
  · injection h with h
    exact (Prod.mk.inj h).1.symm
  · injection h with h
    exact (Prod.mk.inj h).1.symm
  · cases h

/-- Nothing happens exactly if the text cannot be read, or the variable has what is read from it. -/
theorem fromString_unchanged_iff {T : Ty} (x : Variable T) (text : Text) :
  fromString yaml x text = some (false, x) ↔ Fails yaml T text ∨ Reads yaml T text x.m_val
  := by
  rw [← lexicalCast_eq_threw_iff, ← lexicalCast_eq_value_iff, fromString]
  cases lexicalCast yaml T text with
  | threw => simp
  | uninitialised => simp
  | value v =>
      simp only [Option.some.injEq, Prod.mk.injEq, true_and, reduceCtorEq, false_or, value.injEq]
      constructor
      · intro h
        by_contra hne
        rw [Variable.setValue, if_neg hne] at h
        apply hne
        rw [← h]
      · intro h
        rw [Variable.setValue, if_pos h]

/-- A call does what its result says exactly if the text does not stand for a value, and cannot be read or
is read as the value that the variable has. -/
theorem truthful_iff {T : Ty} (x : Variable T) (text : Text) :
  Truthful yaml x text ↔
    (¬ ∃ v, Denotes yaml T text v) ∧ (Fails yaml T text ∨ Reads yaml T text x.m_val)
  := by
  rw [← fromString_unchanged_iff]
  constructor
  · rintro ⟨haccepted, hrejected⟩
    have hnone : ¬ ∃ v, Denotes yaml T text v := by
      rintro ⟨v, hv⟩
      apply absurd (fst_fromString (haccepted v hv))
      decide
    exact ⟨hnone, hrejected hnone⟩
  · rintro ⟨hnone, hunchanged⟩
    exact ⟨fun v hv => absurd ⟨v, hv⟩ hnone, fun _ => hunchanged⟩

/-- A time-out with a unit is taken without the unit. -/
theorem not_truthful_timeout :
  ¬ ∀ (x : Variable (.integer ⟨false, 64⟩)) (text : Text), Truthful blockYaml x text
  := by
  intro h
  have hnone : ¬ ∃ v, Denotes blockYaml (.integer ⟨false, 64⟩) (ascii "120000s") v := by
    rintro ⟨v, digits, -, hdigits, ⟨htext, -⟩ | ⟨htext, -⟩ | ⟨htext, -⟩⟩
    · exact absurd (hdigits 115 (htext ▸ by decide)) (by decide)
    · exact absurd (List.cons.inj htext).1 (by decide)
    · exact absurd (List.cons.inj htext).1 (by decide)
  have hsame := (h ⟨(IntType.clamp ⟨false, 64⟩ 0 : IntType.Value ⟨false, 64⟩), [], []⟩
    (ascii "120000s")).2 hnone
  rw [fromString_unchanged_iff] at hsame
  rcases hsame with hfails | hreads
  · apply hfails
  · have hzero : extract ⟨false, 64⟩ (ascii "120000s") = some (IntType.clamp ⟨false, 64⟩ 0) := hreads
    exact absurd hzero (by decide)

end FromString

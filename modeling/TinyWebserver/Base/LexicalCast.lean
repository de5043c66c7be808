import TinyWebserver.Base.Bytes
import TinyWebserver.Lib.Traversal
import Mathlib.Data.List.TakeWhile

/-!
# Values of the configuration as text

The class `LexicalCast` of `base/config.h`, for all types that are built of strings and integers by
`vector`, `list`, `set`, `unordered_set`, `map` and `unordered_map`. A container is turned into text by
turning each element into text, reading that text as YAML, and emitting the node of all of these; the way
back emits each node, and reads the element from that text. A string or an integer goes through a stream,
which takes an integer of one byte as a character.

The parser and the emitter of yaml-cpp are parameters, inverse to each other on nodes. The stream reads a
string only up to the first white space, so a string with a blank does not survive, `brand_new_name`. A
value survives exactly if its strings and characters do: at the top those without white space, and inside
of containers those that are the first word, or character, of what yaml-cpp makes of them, `roundTrip_iff`.
-/

/-- A text, also that of a string value. -/
abbrev Text := List Byte

namespace LexicalCast

/-! ### Streams -/

/-- The white space that streams skip. -/
def isSpace (c : Byte) : Bool := 9 ≤ c.toNat && c.toNat ≤ 13 || c.toNat = 32

/-- The digits. -/
def isDigit (c : Byte) : Bool := 48 ≤ c.toNat && c.toNat ≤ 57

/-- `ss >> s` for a string. -/
def firstWord (text : Text) : Text := (text.dropWhile isSpace).takeWhile fun c => !isSpace c

/-- `ss >> c` for a character, with `none` if the stream is at its end and `c` stays as it is, which is not
initialised. -/
def firstChar (text : Text) : Option Byte := (text.dropWhile isSpace).head?

/-- A text without white space. -/
def NoSpace (text : Text) : Prop := ∀ c ∈ text, isSpace c = false

/-- An integer type that streams read and write as a number. -/
structure IntType where
  signed : Bool
  bits : ℕ
deriving DecidableEq

namespace IntType

/-- The least value. -/
def min (t : IntType) : ℤ := if t.signed then -2 ^ (t.bits - 1) else 0

/-- The greatest value. -/
def max (t : IntType) : ℤ := if t.signed then 2 ^ (t.bits - 1) - 1 else 2 ^ t.bits - 1

theorem min_le_max (t : IntType) :
  t.min ≤ t.max
  := by
  rw [min, max]
  split
  · have hpos : (0 : ℤ) < 2 ^ (t.bits - 1) := by positivity
    omega
  · have hpos : (0 : ℤ) < 2 ^ t.bits := by positivity
    omega

/-- The values of the type. -/
def Value (t : IntType) : Type := { z : ℤ // t.min ≤ z ∧ z ≤ t.max }

instance (t : IntType) : DecidableEq t.Value :=
  inferInstanceAs (DecidableEq { z : ℤ // t.min ≤ z ∧ z ≤ t.max })

/-- The value nearest to a number. -/
def clamp (t : IntType) (z : ℤ) : t.Value :=
  ⟨Max.max t.min (Min.min t.max z), le_max_left _ _, max_le t.min_le_max (min_le_left _ _)⟩

theorem clamp_val {t : IntType} (z : t.Value) :
  t.clamp z.1 = z
  := by
  apply Subtype.ext
  simp [clamp, z.2.1, z.2.2]

end IntType

/-- The number that digits stand for. -/
def digitsValue (digits : Text) : ℕ := digits.foldl (fun n c => 10 * n + (c.toNat - 48)) 0

/-- `ss >> z` for an integer, with `none` if the stream is at its end and `z` stays as it is, which is not
initialised. A number out of range gives the nearest value, except for a negative one of an unsigned
type. -/
def extract (t : IntType) (text : Text) : Option t.Value :=
  match text.dropWhile isSpace with
  | [] => none
  | c :: rest =>
      let digits := (if c = 45 ∨ c = 43 then rest else c :: rest).takeWhile isDigit
      let z : ℤ := digitsValue digits
      if c ≠ 45 then some (t.clamp z)
      else if t.signed then some (t.clamp (-z))
      else if z ≤ t.max then some (t.clamp (-z % (t.max + 1)))
      else some (t.clamp t.max)

/-! ### Types and values -/

/-- The types of variables of the configuration. The integers of one byte, `int8_t` and `uint8_t`, are
types of characters. -/
inductive Ty where
  | string
  | character
  | integer (type : IntType)
  | vector (element : Ty)
  | list (element : Ty)
  | set (element : Ty)
  | unorderedSet (element : Ty)
  | map (element : Ty)
  | unorderedMap (element : Ty)

/-- A map from strings: pairs of a key and a value, with one pair for a key. -/
structure Dict (α : Type) where
  pairs : Finset (Text × α)
  keyed : ∀ p ∈ pairs, ∀ q ∈ pairs, p.1 = q.1 → p = q

namespace Dict

variable {α : Type}

@[ext]
theorem ext {d d' : Dict α} (h : d.pairs = d'.pairs) :
  d = d'
  := by
  cases d
  cases d'
  cases h
  rfl

instance [DecidableEq α] : DecidableEq (Dict α) := fun d d' =>
  decidable_of_iff (d.pairs = d'.pairs) ⟨ext, fun h => h ▸ rfl⟩

/-- The empty map. -/
def empty : Dict α := ⟨∅, by simp⟩

/-- `insert`, which leaves a key that is there. -/
def insert [DecidableEq α] (d : Dict α) (p : Text × α) : Dict α :=
  if h : ∃ q ∈ d.pairs, q.1 = p.1 then d
  else
    { pairs := Insert.insert p d.pairs
      keyed := by
        have hnew : ∀ q ∈ d.pairs, q.1 ≠ p.1 := fun q hq heq => h ⟨q, hq, heq⟩
        intro q hq q' hq' heq
        rcases Finset.mem_insert.mp hq with rfl | hold
        · rcases Finset.mem_insert.mp hq' with rfl | hold'
          · rfl
          · exact absurd heq.symm (hnew q' hold')
        · rcases Finset.mem_insert.mp hq' with rfl | hold'
          · exact absurd heq (hnew q hold)
          · apply d.keyed q hold q' hold' heq }

/-- A map with pairs inserted, one after the other. -/
def ofList [DecidableEq α] (l : List (Text × α)) : Dict α := l.foldl insert empty

/-- All values of a map have a property. -/
def Forall (P : α → Prop) (d : Dict α) : Prop := ∀ p ∈ d.pairs, P p.2

theorem pairs_foldl_insert [DecidableEq α] {l : List (Text × α)} (hkeys : (l.map Prod.fst).Nodup)
    (d : Dict α) (hnew : ∀ p ∈ l, ∀ q ∈ d.pairs, q.1 ≠ p.1) :
  (l.foldl insert d).pairs = d.pairs ∪ l.toFinset
  := by
  induction l generalizing d with
  | nil => simp
  | cons p l ih =>
      rw [List.map_cons, List.nodup_cons] at hkeys
      have hfree : ¬ ∃ q ∈ d.pairs, q.1 = p.1 := by
        rintro ⟨q, hq, heq⟩
        apply hnew p List.mem_cons_self q hq heq
      have hpairs : (d.insert p).pairs = Insert.insert p d.pairs := by
        rw [insert, dif_neg hfree]
      rw [List.foldl_cons, ih hkeys.2]
      · rw [hpairs, List.toFinset_cons, Finset.insert_union, Finset.union_insert]
      · intro p' hp' q hq
        rw [hpairs, Finset.mem_insert] at hq
        rcases hq with rfl | hq
        · intro heq
          apply hkeys.1
          rw [heq]
          apply List.mem_map_of_mem hp'
        · apply hnew p' (List.mem_cons_of_mem _ hp') q hq

/-- The pairs of a list are inserted all, if their keys are different. -/
theorem pairs_ofList [DecidableEq α] {l : List (Text × α)} (hkeys : (l.map Prod.fst).Nodup) :
  (ofList l).pairs = l.toFinset
  := by
  rw [ofList, pairs_foldl_insert hkeys]
  · simp [empty]
  · simp [empty]

end Dict

/-- The values of a type. -/
def Val : Ty → Type
  | .string => Text
  | .character => Byte
  | .integer type => type.Value
  | .vector T => List (Val T)
  | .list T => List (Val T)
  | .set T => Finset (Val T)
  | .unorderedSet T => Finset (Val T)
  | .map T => Dict (Val T)
  | .unorderedMap T => Dict (Val T)

instance Val.decidableEq : ∀ T, DecidableEq (Val T)
  | .string => inferInstanceAs (DecidableEq Text)
  | .character => inferInstanceAs (DecidableEq Byte)
  | .integer type => inferInstanceAs (DecidableEq type.Value)
  | .vector T => haveI := Val.decidableEq T; inferInstanceAs (DecidableEq (List (Val T)))
  | .list T => haveI := Val.decidableEq T; inferInstanceAs (DecidableEq (List (Val T)))
  | .set T => haveI := Val.decidableEq T; inferInstanceAs (DecidableEq (Finset (Val T)))
  | .unorderedSet T => haveI := Val.decidableEq T; inferInstanceAs (DecidableEq (Finset (Val T)))
  | .map T => haveI := Val.decidableEq T; inferInstanceAs (DecidableEq (Dict (Val T)))
  | .unorderedMap T => haveI := Val.decidableEq T; inferInstanceAs (DecidableEq (Dict (Val T)))

/-! ### YAML -/

/-- What is used of yaml-cpp: `Load`, which may throw, the emitter, sequences and maps that are built of
nodes, the nodes `node[0]` to `node[node.size() - 1]`, and the pairs that the iterator of a node gives, with
the texts of the keys, which may throw. -/
structure Yaml where
  Node : Type
  load : Text → Option Node
  emit : Node → Text
  sequence : List Node → Node
  mapping : List (Text × Node) → Node
  items : Node → List Node
  entries : Node → Option (List (Text × Node))

/-- What the conversions rely on: what was emitted is loaded again, sequences and maps have the nodes they
were built of, and a number is a scalar that is emitted as it was loaded. -/
structure Yaml.Lawful (yaml : Yaml) : Prop where
  load_emit : ∀ node, yaml.load (yaml.emit node) = some node
  items_sequence : ∀ nodes, yaml.items (yaml.sequence nodes) = nodes
  entries_mapping : ∀ pairs : List (Text × yaml.Node), (pairs.map Prod.fst).Nodup →
    yaml.entries (yaml.mapping pairs) = some pairs
  load_decimal : ∀ z : ℤ, ∃ node, yaml.load (decimal z) = some node ∧ yaml.emit node = decimal z

/-- The order in which the elements of a set or a map are visited. -/
structure Iteration where
  order : ∀ {α : Type}, Finset α → List α
  order_eq : ∀ {α : Type} (s : Finset α), (order s : Multiset α) = s.val

variable (yaml : Yaml) (iteration : Iteration)

/-- The text of a sequence, for the text of an element. -/
def sequenceToText {α : Type} (toText : α → Option Text) (l : List α) : Option Text :=
  (l.mapM fun a => (toText a).bind yaml.load).map fun nodes => yaml.emit (yaml.sequence nodes)

/-- The text of a map, for the text of an element. -/
def mappingToText {α : Type} (toText : α → Option Text) (l : List (Text × α)) : Option Text :=
  (l.mapM fun p => ((toText p.2).bind yaml.load).map fun node => (p.1, node)).map fun pairs =>
    yaml.emit (yaml.mapping pairs)

/-- `LexicalCast<T, std::string>`, with `none` if it throws. -/
def toText : ∀ T, Val T → Option Text
  | .string, s => some (firstWord s)
  | .character, c => some (firstWord [c])
  | .integer _, z => some (firstWord (decimal z.1))
  | .vector T, l => sequenceToText yaml (toText T) l
  | .list T, l => sequenceToText yaml (toText T) l
  | .set T, s => sequenceToText yaml (toText T) (iteration.order s)
  | .unorderedSet T, s => sequenceToText yaml (toText T) (iteration.order s)
  | .map T, d => mappingToText yaml (toText T) (iteration.order d.pairs)
  | .unorderedMap T, d => mappingToText yaml (toText T) (iteration.order d.pairs)

/-- The elements of a sequence in a text, for an element in a text. -/
def sequenceFromText {α : Type} (fromText : Text → Option α) (text : Text) : Option (List α) :=
  (yaml.load text).bind fun node => (yaml.items node).mapM fun item => fromText (yaml.emit item)

/-- The pairs of a map in a text, for an element in a text. -/
def mappingFromText {α : Type} (fromText : Text → Option α) (text : Text) :
    Option (List (Text × α)) :=
  (yaml.load text).bind fun node => (yaml.entries node).bind fun entries =>
    entries.mapM fun p => (fromText (yaml.emit p.2)).map fun a => (p.1, a)

/-- `LexicalCast<std::string, T>`, with `none` if it throws or if the value is not initialised. -/
def fromText : ∀ T, Text → Option (Val T)
  | .string, text => some (firstWord text)
  | .character, text => firstChar text
  | .integer type, text => extract type text
  | .vector T, text => sequenceFromText yaml (fromText T) text
  | .list T, text => sequenceFromText yaml (fromText T) text
  | .set T, text => (sequenceFromText yaml (fromText T) text).map List.toFinset
  | .unorderedSet T, text => (sequenceFromText yaml (fromText T) text).map List.toFinset
  | .map T, text => (mappingFromText yaml (fromText T) text).map Dict.ofList
  | .unorderedMap T, text => (mappingFromText yaml (fromText T) text).map Dict.ofList

/-- There and back. -/
def roundTrip (T : Ty) (v : Val T) : Option (Val T) :=
  (toText yaml iteration T v).bind (fromText yaml T)

/-! ### Words and numbers -/

theorem noSpace_firstWord (text : Text) :
  NoSpace (firstWord text)
  := by
  intro c hc
  have hnot := List.mem_takeWhile_imp hc
  simpa using hnot

theorem dropWhile_of_noSpace {text : Text} (h : NoSpace text) :
  text.dropWhile isSpace = text
  := by
  cases text with
  | nil => rfl
  | cons c rest =>
      apply List.dropWhile_cons_of_neg
      simp [h c List.mem_cons_self]

theorem firstWord_eq_self_iff (text : Text) :
  firstWord text = text ↔ NoSpace text
  := by
  constructor
  · intro h
    rw [← h]
    apply noSpace_firstWord
  · intro h
    rw [firstWord, dropWhile_of_noSpace h, List.takeWhile_eq_self_iff]
    simpa [NoSpace] using h

theorem firstWord_singleton {c : Byte} (h : isSpace c = false) :
  firstWord [c] = [c]
  := by
  rw [firstWord_eq_self_iff]
  simpa [NoSpace] using h

theorem not_space_of_firstChar {text : Text} {c : Byte} (h : firstChar text = some c) :
  isSpace c = false
  := by
  have hhead := List.head?_dropWhile_not isSpace text
  rw [firstChar] at h
  simpa [h] using hhead

theorem noSpace_decimal (z : ℤ) :
  NoSpace (decimal z)
  := by
  intro c hc
  have hbyte := toNat_of_mem_decimal hc
  simp only [isSpace, Bool.or_eq_false_iff, Bool.and_eq_false_iff, decide_eq_false_iff_not]
  omega

theorem firstWord_decimal (z : ℤ) :
  firstWord (decimal z) = decimal z
  := by
  rw [firstWord_eq_self_iff]
  apply noSpace_decimal

theorem digitsValue_digitBytes (n : ℕ) :
  digitsValue (digitBytes n) = n
  := by
  have hfold : ∀ (cs : List Char) (start : ℕ), (∀ c ∈ cs, c.isDigit = true) →
      (cs.map fun c => UInt8.ofNat c.toNat).foldl (fun n c => 10 * n + (c.toNat - 48)) start
        = Nat.ofDigitChars 10 cs start := by
    intro cs start hcs
    induction cs generalizing start with
    | nil => simp
    | cons c cs ih =>
        have hdigit := hcs c List.mem_cons_self
        simp only [Char.isDigit, Bool.and_eq_true, decide_eq_true_eq] at hdigit
        have hhigh : c.toNat ≤ 57 := hdigit.2
        have hbyte : (UInt8.ofNat c.toNat).toNat = c.toNat := by
          rw [UInt8.toNat_ofNat']
          omega
        rw [List.map_cons, List.foldl_cons, hbyte,
          ih _ fun c' hc' => hcs c' (List.mem_cons_of_mem _ hc'), Nat.ofDigitChars_cons]
        rfl
  rw [digitsValue, digitBytes, Digits.text, hfold, Nat.ofDigitChars_ten_toDigits]
  intro c hc
  apply Nat.isDigit_of_mem_toDigits (by decide) (by decide) hc

theorem takeWhile_isDigit (n : ℕ) :
  (digitBytes n).takeWhile isDigit = digitBytes n
  := by
  rw [List.takeWhile_eq_self_iff]
  intro c hc
  obtain ⟨hlow, hhigh⟩ := toNat_of_mem_digitBytes hc
  simp [isDigit, hlow, hhigh]

/-- An integer is read as it was written. -/
theorem extract_decimal {t : IntType} (z : t.Value) :
  extract t (decimal z.1) = some z
  := by
  have hdrop := dropWhile_of_noSpace (noSpace_decimal z.1)
  obtain ⟨z, hz⟩ := z
  rw [extract, hdrop]
  cases z with
  | ofNat n =>
      simp only [decimal_ofNat]
      cases hdigits : digitBytes n with
      | nil => exact absurd hdigits (Digits.text_ne_nil 10 n)
      | cons c rest =>
          have hc := toNat_of_mem_digitBytes (n := n) (b := c) (by simp [hdigits])
          have hsign : c ≠ 45 ∧ c ≠ 43 := by
            constructor
            · rintro rfl
              simp at hc
            · rintro rfl
              simp at hc
          simp only [hsign.1, hsign.2, or_self, if_false, ne_eq, not_false_eq_true, if_true]
          rw [← hdigits, takeWhile_isDigit, digitsValue_digitBytes]
          apply congrArg some (IntType.clamp_val ⟨Int.ofNat n, hz⟩)
  | negSucc n =>
      have hsigned : t.signed = true := by
        by_contra hunsigned
        have hmin := hz.1
        simp only [IntType.min, hunsigned] at hmin
        simp at hmin
      simp only [decimal_negSucc, true_or, if_true, ne_eq, not_true_eq_false, if_false, hsigned]
      rw [takeWhile_isDigit, digitsValue_digitBytes]
      apply congrArg some (IntType.clamp_val ⟨Int.negSucc n, hz⟩)

/-! ### Inside of containers -/

/-- What becomes of a string inside of a container: the first word of what is emitted for the node that its
first word is loaded as. -/
def leaf (s : Text) : Option Text :=
  (yaml.load (firstWord s)).map fun node => firstWord (yaml.emit node)

/-- What becomes of a character inside of a container. -/
def leafChar (c : Byte) : Option Byte :=
  (yaml.load (firstWord [c])).bind fun node => firstChar (yaml.emit node)

/-- What becomes of a value inside of a container: its strings and characters are replaced. -/
def inner : ∀ T, Val T → Option (Val T)
  | .string, s => leaf yaml s
  | .character, c => leafChar yaml c
  | .integer _, z => some z
  | .vector T, l => List.mapM (inner T) l
  | .list T, l => List.mapM (inner T) l
  | .set T, s => ((iteration.order s).mapM (inner T)).map List.toFinset
  | .unorderedSet T, s => ((iteration.order s).mapM (inner T)).map List.toFinset
  | .map T, d =>
      ((iteration.order d.pairs).mapM fun p => (inner T p.2).map fun v => (p.1, v)).map Dict.ofList
  | .unorderedMap T, d =>
      ((iteration.order d.pairs).mapM fun p => (inner T p.2).map fun v => (p.1, v)).map Dict.ofList

/-- The way of an element through its text, its node, and the text of that. -/
def throughNode (T : Ty) (v : Val T) : Option (Val T) :=
  ((toText yaml iteration T v).bind yaml.load).bind fun node => fromText yaml T (yaml.emit node)

variable {yaml iteration}

/-- The elements of a sequence go through their nodes. -/
theorem sequence_roundTrip (hyaml : yaml.Lawful) {T : Ty} (l : List (Val T)) :
  (sequenceToText yaml (toText yaml iteration T) l).bind (sequenceFromText yaml (fromText yaml T))
    = l.mapM (throughNode yaml iteration T)
  := by
  have hcompose := Traversal.mapM_bind (fun v => (toText yaml iteration T v).bind yaml.load)
    (fun node => fromText yaml T (yaml.emit node)) l
  change _ = l.mapM fun v => ((toText yaml iteration T v).bind yaml.load).bind fun node =>
    fromText yaml T (yaml.emit node)
  rw [← hcompose, sequenceToText, Option.bind_map]
  congr 1
  funext nodes
  simp [sequenceFromText, hyaml.load_emit, hyaml.items_sequence]

theorem mem_order (iteration : Iteration) {α : Type} (s : Finset α) (a : α) :
  a ∈ iteration.order s ↔ a ∈ s
  := by
  rw [← Multiset.mem_coe, iteration.order_eq]
  rfl

/-- The keys of a map are different. -/
theorem nodup_keys (iteration : Iteration) {α : Type} (d : Dict α) :
  ((iteration.order d.pairs).map Prod.fst).Nodup
  := by
  have hnodup : (iteration.order d.pairs).Nodup := by
    rw [← Multiset.coe_nodup, iteration.order_eq]
    apply d.pairs.nodup
  apply hnodup.map_on
  intro p hp q hq hkey
  apply d.keyed p ((mem_order iteration _ p).mp hp) q ((mem_order iteration _ q).mp hq) hkey

/-- The elements of a map go through their nodes. -/
theorem mapping_roundTrip (hyaml : yaml.Lawful) {T : Ty} {l : List (Text × Val T)}
    (hkeys : (l.map Prod.fst).Nodup) :
  (mappingToText yaml (toText yaml iteration T) l).bind (mappingFromText yaml (fromText yaml T))
    = l.mapM fun p => (throughNode yaml iteration T p.2).map fun v => (p.1, v)
  := by
  have hcompose := Traversal.mapM_bind
    (fun p : Text × Val T => ((toText yaml iteration T p.2).bind yaml.load).map fun node => (p.1, node))
    (fun p => (fromText yaml T (yaml.emit p.2)).map fun v => (p.1, v)) l
  have hpoint : (fun p : Text × Val T => (((toText yaml iteration T p.2).bind yaml.load).map
      fun node => (p.1, node)).bind fun q => (fromText yaml T (yaml.emit q.2)).map fun v => (q.1, v))
      = fun p => (throughNode yaml iteration T p.2).map fun v => (p.1, v) := by
    funext p
    rw [throughNode, Option.bind_map, Option.map_bind]
    rfl
  rw [hpoint] at hcompose
  rw [← hcompose, mappingToText, Option.bind_map]
  cases hpairs : l.mapM fun p => ((toText yaml iteration T p.2).bind yaml.load).map
      fun node => (p.1, node) with
  | none => rfl
  | some pairs =>
      have hsame : pairs.map Prod.fst = l.map Prod.fst := by
        apply Traversal.map_eq_of_mapM _ hpairs
        intro p q hq
        obtain ⟨node, -, rfl⟩ := Option.map_eq_some_iff.mp hq
        rfl
      simp [mappingFromText, hyaml.load_emit, hyaml.entries_mapping pairs (hsame ▸ hkeys)]

/-- What was emitted for a node goes through that node. -/
theorem bind_load_emit (hyaml : yaml.Lawful) {α : Type} (node : Option yaml.Node)
    (g : Text → Option α) :
  ((node.map yaml.emit).bind yaml.load).bind (fun node => g (yaml.emit node))
    = (node.map yaml.emit).bind g
  := by
  cases node with
  | none => rfl
  | some node => simp [hyaml.load_emit]

/-- The text of a value that is neither a string nor a character is that of a node. -/
theorem toText_eq_emit (iteration : Iteration) (hyaml : yaml.Lawful) {T : Ty}
    (hT : T ≠ .string ∧ T ≠ .character) (v : Val T) :
  ∃ node, toText yaml iteration T v = Option.map yaml.emit node
  := by
  cases T with
  | string => exact absurd rfl hT.1
  | character => exact absurd rfl hT.2
  | integer type =>
      obtain ⟨node, -, hemit⟩ := hyaml.load_decimal v.1
      use some node
      rw [toText, firstWord_decimal, Option.map_some, hemit]
  | vector T => exact ⟨_, (Option.map_map ..).symm⟩
  | list T => exact ⟨_, (Option.map_map ..).symm⟩
  | set T => exact ⟨_, (Option.map_map ..).symm⟩
  | unorderedSet T => exact ⟨_, (Option.map_map ..).symm⟩
  | map T => exact ⟨_, (Option.map_map ..).symm⟩
  | unorderedMap T => exact ⟨_, (Option.map_map ..).symm⟩

theorem throughNode_eq_roundTrip (hyaml : yaml.Lawful) {T : Ty} (hT : T ≠ .string ∧ T ≠ .character)
    (v : Val T) :
  throughNode yaml iteration T v = roundTrip yaml iteration T v
  := by
  obtain ⟨node, hnode⟩ := toText_eq_emit iteration hyaml hT v
  rw [throughNode, roundTrip, hnode]
  apply bind_load_emit hyaml

section Containers

variable {T : Ty} (ih : ∀ v, throughNode yaml iteration T v = inner yaml iteration T v)

include ih

theorem sequence_inner (hyaml : yaml.Lawful) (l : List (Val T)) :
  (sequenceToText yaml (toText yaml iteration T) l).bind (sequenceFromText yaml (fromText yaml T))
    = l.mapM (inner yaml iteration T)
  := by
  rw [sequence_roundTrip hyaml, funext ih]

theorem set_inner (hyaml : yaml.Lawful) (s : Finset (Val T)) :
  (sequenceToText yaml (toText yaml iteration T) (iteration.order s)).bind
      (fun text => (sequenceFromText yaml (fromText yaml T) text).map List.toFinset)
    = ((iteration.order s).mapM (inner yaml iteration T)).map List.toFinset
  := by
  rw [← sequence_inner ih hyaml, Option.map_bind]
  rfl

theorem map_inner (hyaml : yaml.Lawful) (d : Dict (Val T)) :
  (mappingToText yaml (toText yaml iteration T) (iteration.order d.pairs)).bind
      (fun text => (mappingFromText yaml (fromText yaml T) text).map Dict.ofList)
    = ((iteration.order d.pairs).mapM fun p =>
        (inner yaml iteration T p.2).map fun v => (p.1, v)).map Dict.ofList
  := by
  simp only [← ih]
  rw [← mapping_roundTrip hyaml (nodup_keys iteration d), Option.map_bind]
  rfl

end Containers

/-- What becomes of a value inside of a container. -/
theorem throughNode_eq_inner (hyaml : yaml.Lawful) (T : Ty) (v : Val T) :
  throughNode yaml iteration T v = inner yaml iteration T v
  := by
  induction T with
  | string =>
      simp only [throughNode, toText, fromText, inner, leaf, Option.bind_some]
      rw [Option.map_eq_bind]
      rfl
  | character => rfl
  | integer type =>
      rw [throughNode_eq_roundTrip hyaml (by simp), roundTrip, toText, firstWord_decimal]
      apply extract_decimal v
  | vector T ih =>
      rw [throughNode_eq_roundTrip hyaml (by simp)]
      apply sequence_inner ih hyaml v
  | list T ih =>
      rw [throughNode_eq_roundTrip hyaml (by simp)]
      apply sequence_inner ih hyaml v
  | set T ih =>
      rw [throughNode_eq_roundTrip hyaml (by simp)]
      apply set_inner ih hyaml v
  | unorderedSet T ih =>
      rw [throughNode_eq_roundTrip hyaml (by simp)]
      apply set_inner ih hyaml v
  | map T ih =>
      rw [throughNode_eq_roundTrip hyaml (by simp)]
      apply map_inner ih hyaml v
  | unorderedMap T ih =>
      rw [throughNode_eq_roundTrip hyaml (by simp)]
      apply map_inner ih hyaml v

/-! ### The values that survive -/

section Survival

variable (yaml iteration)

/-- A string survives inside of a container: it has no white space, and is the first word of what is emitted
for the node that it is loaded as. -/
def Plain (s : Text) : Prop :=
  NoSpace s ∧ ∃ node, yaml.load s = some node ∧ firstWord (yaml.emit node) = s

/-- A character survives inside of a container: it is no white space, and the first character of what is
emitted for the node that it is loaded as. -/
def PlainChar (c : Byte) : Prop :=
  isSpace c = false ∧ ∃ node, yaml.load [c] = some node ∧ firstChar (yaml.emit node) = some c

/-- The elements of a set are permuted. -/
def Permuted {α : Type} (f : α → Option α) (s : Finset α) : Prop :=
  (∀ v ∈ s, ∃ w ∈ s, f v = some w) ∧ ∀ w ∈ s, ∃ v ∈ s, f v = some w

/-- A value survives inside of a container: its strings and characters do, and the elements of sets
are permuted. -/
def Survives : ∀ T, Val T → Prop
  | .string, s => Plain yaml s
  | .character, c => PlainChar yaml c
  | .integer _, _ => True
  | .vector T, l => List.Forall (Survives T) l
  | .list T, l => List.Forall (Survives T) l
  | .set T, s => Permuted (inner yaml iteration T) s
  | .unorderedSet T, s => Permuted (inner yaml iteration T) s
  | .map T, d => Dict.Forall (Survives T) d
  | .unorderedMap T, d => Dict.Forall (Survives T) d

/-- A value survives: at the top a string or a character goes through no node. -/
def Kept : ∀ T, Val T → Prop
  | .string, s => NoSpace s
  | .character, c => isSpace (c : Byte) = false
  | T, v => Survives yaml iteration T v

end Survival

theorem leaf_eq_some_iff (s : Text) :
  leaf yaml s = some s ↔ Plain yaml s
  := by
  constructor
  · intro h
    obtain ⟨node, hload, hword⟩ := Option.map_eq_some_iff.mp h
    have hspace : NoSpace s := by
      rw [← hword]
      apply noSpace_firstWord
    rw [(firstWord_eq_self_iff s).mpr hspace] at hload
    exact ⟨hspace, node, hload, hword⟩
  · rintro ⟨hspace, node, hload, hword⟩
    rw [leaf, (firstWord_eq_self_iff s).mpr hspace, hload, Option.map_some, hword]

theorem leafChar_eq_some_iff (c : Byte) :
  leafChar yaml c = some c ↔ PlainChar yaml c
  := by
  constructor
  · intro h
    obtain ⟨node, hload, hchar⟩ := Option.bind_eq_some_iff.mp h
    have hspace := not_space_of_firstChar hchar
    rw [firstWord_singleton hspace] at hload
    exact ⟨hspace, node, hload, hchar⟩
  · rintro ⟨hspace, node, hload, hchar⟩
    rw [leafChar, firstWord_singleton hspace, hload, Option.bind_some, hchar]

theorem sequence_eq_some_iff {α : Type} {f : α → Option α} {P : α → Prop}
    (hP : ∀ v, f v = some v ↔ P v) (l : List α) :
  l.mapM f = some l ↔ l.Forall P
  := by
  rw [Traversal.mapM_eq_self_iff, List.forall_iff_forall_mem]
  simp only [hP]

theorem set_eq_some_iff (iteration : Iteration) {α : Type} [DecidableEq α] (f : α → Option α)
    (s : Finset α) :
  ((iteration.order s).mapM f).map List.toFinset = some s ↔ Permuted f s
  := by
  constructor
  · intro h
    obtain ⟨l, hl, hset⟩ := Option.map_eq_some_iff.mp h
    have hmem : ∀ a, a ∈ l ↔ a ∈ s := by
      intro a
      rw [← hset, List.mem_toFinset]
    obtain ⟨hleft, hright⟩ := Traversal.mem_of_mapM_eq_some hl
    constructor
    · intro v hv
      obtain ⟨w, hw, hf⟩ := hleft v ((mem_order iteration s v).mpr hv)
      exact ⟨w, (hmem w).mp hw, hf⟩
    · intro w hw
      obtain ⟨v, hv, hf⟩ := hright w ((hmem w).mpr hw)
      exact ⟨v, (mem_order iteration s v).mp hv, hf⟩
  · rintro ⟨hleft, hright⟩
    obtain ⟨l, hl⟩ : ∃ l, (iteration.order s).mapM f = some l := by
      apply Traversal.exists_mapM_eq_some
      intro v hv
      obtain ⟨w, -, hf⟩ := hleft v ((mem_order iteration s v).mp hv)
      exact ⟨w, hf⟩
    obtain ⟨hleft', hright'⟩ := Traversal.mem_of_mapM_eq_some hl
    rw [hl, Option.map_some, Option.some.injEq]
    ext w
    rw [List.mem_toFinset]
    constructor
    · intro hw
      obtain ⟨v, hv, hf⟩ := hright' w hw
      obtain ⟨w', hw', hf'⟩ := hleft v ((mem_order iteration s v).mp hv)
      rwa [Option.some.inj (hf.symm.trans hf')]
    · intro hw
      obtain ⟨v, hv, hf⟩ := hright w hw
      obtain ⟨w', hw', hf'⟩ := hleft' v ((mem_order iteration s v).mpr hv)
      rwa [Option.some.inj (hf.symm.trans hf')]

theorem map_eq_some_iff (iteration : Iteration) {α : Type} [DecidableEq α] {f : α → Option α}
    {P : α → Prop} (hP : ∀ v, f v = some v ↔ P v) (d : Dict α) :
  ((iteration.order d.pairs).mapM fun p => (f p.2).map fun v => (p.1, v)).map Dict.ofList = some d
    ↔ d.Forall P
  := by
  have hkeys := nodup_keys iteration d
  constructor
  · intro h p hp
    obtain ⟨l, hl, rfl⟩ := Option.map_eq_some_iff.mp h
    have hsame : l.map Prod.fst = (iteration.order (Dict.ofList l).pairs).map Prod.fst := by
      apply Traversal.map_eq_of_mapM _ hl
      intro p q hq
      obtain ⟨v, -, rfl⟩ := Option.map_eq_some_iff.mp hq
      rfl
    have hpairs := Dict.pairs_ofList (hsame ▸ hkeys)
    obtain ⟨q, hq, hf⟩ := (Traversal.mem_of_mapM_eq_some hl).1 p ((mem_order iteration _ p).mpr hp)
    obtain ⟨v, hv, rfl⟩ := Option.map_eq_some_iff.mp hf
    have hmem : (p.1, v) ∈ (Dict.ofList l).pairs := by
      rw [hpairs, List.mem_toFinset]
      apply hq
    have hsecond := congrArg Prod.snd ((Dict.ofList l).keyed p hp _ hmem rfl)
    rw [← hP, hv, hsecond]
  · intro h
    have hmapM : ((iteration.order d.pairs).mapM fun p => (f p.2).map fun v => (p.1, v))
        = some (iteration.order d.pairs) := by
      rw [Traversal.mapM_eq_self_iff]
      intro p hp
      rw [(hP _).mpr (h p ((mem_order iteration _ p).mp hp))]
      rfl
    rw [hmapM, Option.map_some, Option.some.injEq]
    ext p
    rw [Dict.pairs_ofList hkeys, List.mem_toFinset, mem_order]

/-- The values that survive inside of a container. -/
theorem inner_eq_some_iff (T : Ty) (v : Val T) :
  inner yaml iteration T v = some v ↔ Survives yaml iteration T v
  := by
  induction T with
  | string => apply leaf_eq_some_iff v
  | character => apply leafChar_eq_some_iff v
  | integer type => simp [inner, Survives]
  | vector T ih => apply sequence_eq_some_iff ih v
  | list T ih => apply sequence_eq_some_iff ih v
  | set T ih => apply set_eq_some_iff iteration _ v
  | unorderedSet T ih => apply set_eq_some_iff iteration _ v
  | map T ih => apply map_eq_some_iff iteration ih v
  | unorderedMap T ih => apply map_eq_some_iff iteration ih v

/-! ### Blocks

A small part of YAML, in which every node is a text: sequences and maps in blocks, with explicit keys.
-/

/-- The lines of a block: a mark in front of the first line, the further lines under it. -/
def blockLines (block : Byte × Text) : List Text :=
  match block.2.splitOn 10 with
  | [] => []
  | first :: further => (block.1 :: 32 :: first) :: further.map fun line => 32 :: 32 :: line

/-- The text of blocks. -/
def writeBlocks (blocks : List (Byte × Text)) : Text := [10].intercalate (blocks.flatMap blockLines)

/-- A line in front of the further lines of a block, and of the blocks behind that. -/
def readLine (line : Text) (read : List Text × List (Byte × Text)) :
    List Text × List (Byte × Text) :=
  match line with
  | mark :: blank :: rest =>
      if blank ≠ 32 then read
      else if mark = 32 then (rest :: read.1, read.2)
      else ([], (mark, [10].intercalate (rest :: read.1)) :: read.2)
  | _ => read

/-- The blocks of a text. -/
def readBlocks (text : Text) : List (Byte × Text) := ((text.splitOn 10).foldr readLine ([], [])).2

/-- A mark is neither a blank nor the end of a line. -/
def Marked (blocks : List (Byte × Text)) : Prop := ∀ block ∈ blocks, block.1 ≠ 32 ∧ block.1 ≠ 10

theorem not_mem_of_mem_splitOn {text line : Text} (h : line ∈ text.splitOn 10) :
  10 ∉ line
  := by
  induction text generalizing line with
  | nil =>
      rw [List.splitOn_nil, List.mem_singleton] at h
      simp [h]
  | cons c text ih =>
      rw [List.splitOn_cons_eq_if_modifyHead] at h
      split at h
      · rcases List.mem_cons.mp h with rfl | h
        · simp
        · apply ih h
      · rename_i hc
        cases hlines : text.splitOn 10 with
        | nil => exact absurd hlines (List.splitOn_ne_nil _ _)
        | cons first further =>
            rw [hlines, List.modifyHead_cons] at h
            rcases List.mem_cons.mp h with rfl | h
            · have hfirst : 10 ∉ first := ih (by simp [hlines])
              simp only [beq_iff_eq] at hc
              simp [hfirst, Ne.symm hc]
            · apply ih (by simp [hlines, h])

theorem not_mem_of_mem_blockLines {block : Byte × Text} {line : Text} (hmark : block.1 ≠ 10)
    (h : line ∈ blockLines block) :
  10 ∉ line
  := by
  rw [blockLines] at h
  cases hlines : block.2.splitOn 10 with
  | nil => simp [hlines] at h
  | cons first further =>
      simp only [hlines, List.mem_cons, List.mem_map] at h
      have hclean : ∀ line ∈ first :: further, 10 ∉ line := by
        intro line hline
        rw [← hlines] at hline
        apply not_mem_of_mem_splitOn hline
      rcases h with rfl | ⟨line, hline, rfl⟩
      · simp [hclean first, hmark.symm]
      · simp [hclean line, hline]

theorem foldr_readLine_further (further : List Text) (read : List Text × List (Byte × Text)) :
  (further.map fun line => 32 :: 32 :: line).foldr readLine read = (further ++ read.1, read.2)
  := by
  induction further with
  | nil => rfl
  | cons line further ih =>
      rw [List.map_cons, List.foldr_cons, ih]
      rfl

theorem foldr_readLine_block {block : Byte × Text} (hmark : block.1 ≠ 32)
    (blocks : List (Byte × Text)) :
  (blockLines block).foldr readLine ([], blocks) = ([], block :: blocks)
  := by
  have hjoin : [10].intercalate (block.2.splitOn 10) = block.2 := List.intercalate_splitOn 10
  rw [blockLines]
  cases hlines : block.2.splitOn 10 with
  | nil => exact absurd hlines (List.splitOn_ne_nil _ _)
  | cons first further =>
      simp only [List.foldr_cons, foldr_readLine_further]
      rw [hlines] at hjoin
      simp [readLine, hmark, hjoin]

theorem foldr_readLine_blocks {blocks : List (Byte × Text)} (hmarked : Marked blocks) :
  (blocks.flatMap blockLines).foldr readLine ([], []) = ([], blocks)
  := by
  induction blocks with
  | nil => rfl
  | cons block blocks ih =>
      rw [List.flatMap_cons, List.foldr_append, ih fun b hb => hmarked b (List.mem_cons_of_mem _ hb),
        foldr_readLine_block (hmarked block List.mem_cons_self).1]

/-- Blocks are read as they were written. -/
theorem readBlocks_writeBlocks {blocks : List (Byte × Text)} (hmarked : Marked blocks) :
  readBlocks (writeBlocks blocks) = blocks
  := by
  cases hlines : blocks.flatMap blockLines with
  | nil =>
      have hread := foldr_readLine_blocks hmarked
      rw [hlines] at hread
      have hempty : [] = blocks := congrArg Prod.snd hread
      rw [← hempty]
      rfl
  | cons line lines =>
      rw [readBlocks, writeBlocks, List.splitOn_intercalate, foldr_readLine_blocks hmarked]
      · intro line hline
        obtain ⟨block, hblock, hmem⟩ := List.mem_flatMap.mp hline
        apply not_mem_of_mem_blockLines (hmarked block hblock).2 hmem
      · simp [hlines]

/-- Keys and values, one behind the other. -/
def pairUp : List (Byte × Text) → List (Text × Text)
  | key :: value :: rest => (key.2, value.2) :: pairUp rest
  | _ => []

/-- The blocks of a map: keys behind a question mark, values behind a colon. -/
def mappingBlocks (pairs : List (Text × Text)) : List (Byte × Text) :=
  pairs.flatMap fun p => [(63, p.1), (58, p.2)]

theorem pairUp_mappingBlocks (pairs : List (Text × Text)) :
  pairUp (mappingBlocks pairs) = pairs
  := by
  induction pairs with
  | nil => rfl
  | cons p pairs ih => apply congrArg (p :: ·) ih

/-- The text of a sequence. -/
def writeSequence (nodes : List Text) : Text :=
  if nodes = [] then ascii "[]" else writeBlocks (nodes.map fun node => (45, node))

/-- The text of a map. -/
def writeMapping (pairs : List (Text × Text)) : Text :=
  if pairs = [] then ascii "\x7b\x7d" else writeBlocks (mappingBlocks pairs)

theorem read_writeSequence (nodes : List Text) :
  (readBlocks (writeSequence nodes)).map Prod.snd = nodes
  := by
  by_cases hnodes : nodes = []
  · subst hnodes
    decide
  · have hmarked : Marked (nodes.map fun node => (45, node)) := by
      intro block hblock
      obtain ⟨node, -, rfl⟩ := List.mem_map.mp hblock
      simp
    rw [writeSequence, if_neg hnodes, readBlocks_writeBlocks hmarked, List.map_map]
    apply List.map_id

theorem read_writeMapping (pairs : List (Text × Text)) :
  pairUp (readBlocks (writeMapping pairs)) = pairs
  := by
  by_cases hpairs : pairs = []
  · subst hpairs
    decide
  · have hmarked : Marked (mappingBlocks pairs) := by
      intro block hblock
      obtain ⟨p, -, hblock⟩ := List.mem_flatMap.mp hblock
      simp only [List.mem_cons, List.not_mem_nil, or_false] at hblock
      rcases hblock with rfl | rfl
      · simp
      · simp
    rw [writeMapping, if_neg hpairs, readBlocks_writeBlocks hmarked, pairUp_mappingBlocks]

/-- Nodes are their texts, in blocks. -/
def blockYaml : Yaml where
  Node := Text
  load := some
  emit := id
  sequence := writeSequence
  mapping := writeMapping
  items node := (readBlocks node).map Prod.snd
  entries node := some (pairUp (readBlocks node))

theorem blockYaml_lawful :
  blockYaml.Lawful
  where
  load_emit _ := rfl
  items_sequence nodes := read_writeSequence nodes
  entries_mapping pairs _ := congrArg some (read_writeMapping pairs)
  load_decimal z := ⟨decimal z, rfl, rfl⟩

/-- Some order of the elements of each set. -/
noncomputable def anyOrder : Iteration where
  order s := s.toList
  order_eq s := s.coe_toList

/-! ### The round trip -/

theorem words_eq_some_iff (s : Text) :
  some (firstWord (firstWord s)) = some s ↔ NoSpace s
  := by
  have hword : firstWord (firstWord s) = firstWord s := by
    rw [firstWord_eq_self_iff]
    apply noSpace_firstWord
  rw [hword, Option.some.injEq, firstWord_eq_self_iff]

theorem char_eq_some_iff (c : Byte) :
  firstChar (firstWord [c]) = some c ↔ isSpace c = false
  := by
  constructor
  · apply not_space_of_firstChar
  · intro h
    rw [firstWord_singleton h, firstChar, dropWhile_of_noSpace]
    · rfl
    · simpa [NoSpace] using h

/-- A value comes back exactly if its strings and characters survive. -/
theorem roundTrip_iff (hyaml : yaml.Lawful) (T : Ty) (v : Val T) :
  roundTrip yaml iteration T v = some v ↔ Kept yaml iteration T v
  := by
  cases T with
  | string => apply words_eq_some_iff v
  | character => apply char_eq_some_iff v
  | _ =>
      rw [Kept, ← inner_eq_some_iff, ← throughNode_eq_inner hyaml, throughNode_eq_roundTrip hyaml]
      all_goals simp

/-- The vector of the integers 4 and 5. -/
def fourFive : Val (.vector (.integer ⟨true, 32⟩)) :=
  [IntType.clamp _ 4, IntType.clamp _ 5]

/-- A vector of integers comes back from its text. -/
theorem roundTrip_iff_fourFive :
  toText blockYaml anyOrder _ fourFive = some (ascii "- 4\n- 5")
    ∧ roundTrip blockYaml anyOrder _ fourFive = some fourFive
  := by
  constructor
  · rfl
  · rw [roundTrip_iff blockYaml_lawful]
    constructor
    · trivial
    · trivial

/-- A string of a configuration, with blanks. -/
def brandNewName : Val .string := ascii "brand new name"

/-- Only the first word of it comes back. -/
theorem brand_new_name :
  roundTrip blockYaml anyOrder .string brandNewName = some (ascii "brand")
    ∧ roundTrip blockYaml anyOrder .string brandNewName ≠ some brandNewName
  := by
  have hbrand : roundTrip blockYaml anyOrder .string brandNewName = some (ascii "brand") := rfl
  constructor
  · apply hbrand
  · rw [hbrand]
    intro h
    have hlength : (ascii "brand").length = (ascii "brand new name").length :=
      congrArg List.length (Option.some.inj h)
    revert hlength
    decide

end LexicalCast

import TinyWebserver.Base.LexicalCast
import TinyWebserver.Base.LogConfig

/-!
# The configuration of the loggers as text

The conversions of `LogDefine` to and from YAML in `base/log.cpp`, with `LogLevel::ToString` and
`LogLevel::FromString`, and the conversions of `std::set<LogDefine>` in `base/config.h`. Writer and reader
are two functions: one omits empty patterns and writes types and levels by name, the other one skips the
appenders that it does not understand. `fromText_toText` says that every set of definitions comes back,
where each appender is one for a file, or one for the standard output without a file.

The nodes of yaml-cpp are a parameter, with what the conversions rely on in `Nodes.Lawful`. So are its
`Load` and its emitter, inverse to each other on nodes.
-/

namespace LogLevel

/-- `ToString`. -/
def toString : LogLevel → Text
  | fatal => ascii "FATAL"
  | alert => ascii "ALERT"
  | crit => ascii "CRIT"
  | error => ascii "ERROR"
  | warn => ascii "WARN"
  | notice => ascii "NOTICE"
  | info => ascii "INFO"
  | debug => ascii "DEBUG"
  | notset => ascii "NOTSET"

/-- The names that `FromString` compares with, in the order of its tests. -/
def names : List (Text × LogLevel) :=
  [(ascii "fatal", fatal), (ascii "alert", alert), (ascii "crit", crit), (ascii "error", error),
    (ascii "warn", warn), (ascii "notice", notice), (ascii "info", info), (ascii "debug", debug),
    (ascii "FATAL", fatal), (ascii "ALERT", alert), (ascii "CRIT", crit), (ascii "ERROR", error),
    (ascii "WARN", warn), (ascii "NOTICE", notice), (ascii "INFO", info), (ascii "DEBUG", debug)]

/-- `FromString`. -/
def fromString (str : Text) : LogLevel := (names.lookup str).getD notset

theorem fromString_toString (level : LogLevel) :
  fromString level.toString = level
  := by
  cases level <;> decide

end LogLevel

/-! ### Nodes -/

/-- What the conversions use of the class `YAML::Node`: a new node, scalars, sequences and maps; `node[key]`,
with `none` if it throws and `some none` if the result is not defined; `as<std::string>()`, with `none` if it
throws; the nodes `node[i]` for `i` below `node.size()`; the pairs that the iterator gives; the node after
`node[key] = value`; and the one after `node.push_back(item)`, where `node` may be one that is not defined. -/
structure Nodes (N : Type) where
  null : N
  scalar : Text → N
  sequence : List N → N
  mapping : List (Text × N) → N
  get : N → Text → Option (Option N)
  asString : N → Option Text
  items : N → List N
  entries : N → Option (List (Text × N))
  assign : N → Text → N → N
  pushBack : Option N → N → N

namespace Nodes

variable {N : Type}

/-- The entries of a map after `node[key] = value`. -/
def assigned : List (Text × N) → Text → N → List (Text × N)
  | [], key, value => [(key, value)]
  | (key', value') :: rest, key, value =>
      if key' = key then (key', value) :: rest else (key', value') :: assigned rest key value

/-- What the conversions rely on. Nothing is said of a key that is looked up or assigned in a scalar or a
sequence, or of the text of a node that is no scalar. -/
structure Lawful (nodes : Nodes N) : Prop where
  get_mapping : ∀ entries key, (entries.map Prod.fst).Nodup →
    nodes.get (nodes.mapping entries) key = some (entries.lookup key)
  asString_scalar : ∀ text, nodes.asString (nodes.scalar text) = some text
  items_sequence : ∀ items, nodes.items (nodes.sequence items) = items
  assign_null : ∀ key value, nodes.assign nodes.null key value = nodes.mapping [(key, value)]
  assign_mapping : ∀ entries key value, (entries.map Prod.fst).Nodup →
    nodes.assign (nodes.mapping entries) key value = nodes.mapping (assigned entries key value)
  pushBack_none : ∀ item, nodes.pushBack none item = nodes.sequence [item]
  pushBack_sequence : ∀ items item,
    nodes.pushBack (some (nodes.sequence items)) item = nodes.sequence (items ++ [item])

end Nodes

namespace LogCodec

variable {N : Type} (nodes : Nodes N)

/-! ### Writing -/

/-- The turn of the loop over the appenders of a definition: the node `na`. -/
def encodeAppender (a : LogAppenderDefine) : N :=
  let na :=
    if a.type = 1 then
      nodes.assign
        (nodes.assign nodes.null (ascii "type") (nodes.scalar (ascii "FileLogAppender")))
        (ascii "file") (nodes.scalar a.file)
    else if a.type = 2 then
      nodes.assign nodes.null (ascii "type") (nodes.scalar (ascii "StdoutLogAppender"))
    else nodes.null
  if a.pattern ≠ [] then nodes.assign na (ascii "pattern") (nodes.scalar a.pattern) else na

/-- The node after the turn for an appender, with `none` if it throws. -/
def addAppender (n : N) (a : LogAppenderDefine) : Option N :=
  (nodes.get n (ascii "appenders")).map fun appenders =>
    nodes.assign n (ascii "appenders") (nodes.pushBack appenders (encodeAppender nodes a))

/-- The node of a definition, with `none` if it throws. -/
def encode (d : LogDefine) : Option N :=
  let n := nodes.assign (nodes.assign nodes.null (ascii "name") (nodes.scalar d.name)) (ascii "level")
    (nodes.scalar d.level.toString)
  d.appenders.foldlM (addAppender nodes) n

/-! ### Reading -/

/-- The pattern of an appender, which is empty if it is missing. -/
def decodePattern (a : N) : Option Text :=
  (nodes.get a (ascii "pattern")).bind fun
    | none => some []
    | some pattern => nodes.asString pattern

/-- The turn of the loop over the nodes of the appenders, with `none` if it throws and `some none` if it
skips the appender. -/
def decodeAppender (a : N) : Option (Option LogAppenderDefine) :=
  (nodes.get a (ascii "type")).bind fun
    | none => some none
    | some type =>
        (nodes.asString type).bind fun type =>
          if type = ascii "FileLogAppender" then
            (nodes.get a (ascii "file")).bind fun
              | none => some none
              | some file =>
                  (nodes.asString file).bind fun file =>
                    (decodePattern nodes a).map fun pattern => some ⟨1, pattern, file⟩
          else if type = ascii "StdoutLogAppender" then
            (decodePattern nodes a).map fun pattern => some ⟨2, pattern, []⟩
          else some none

/-- The level of a definition, which is read from the empty string if it is missing. -/
def decodeLevel (n : N) : Option LogLevel :=
  (nodes.get n (ascii "level")).bind fun
    | none => some (LogLevel.fromString [])
    | some level => (nodes.asString level).map LogLevel.fromString

/-- The appenders of a definition. -/
def decodeAppenders (n : N) : Option (List LogAppenderDefine) :=
  (nodes.get n (ascii "appenders")).bind fun
    | none => some []
    | some appenders =>
        ((nodes.items appenders).mapM (decodeAppender nodes)).map fun read => read.filterMap id

/-- The definition in a node, with `none` if the name is missing. -/
def decode (n : N) : Option LogDefine :=
  (nodes.get n (ascii "name")).bind fun
    | none => none
    | some name =>
        (nodes.asString name).bind fun name =>
          (decodeLevel nodes n).bind fun level =>
            (decodeAppenders nodes n).map fun appenders => ⟨name, level, appenders⟩

/-! ### Sets -/

theorem sorted_insert (defines : LogDefines) (d : LogDefine) :
  OrderedSet.Sorted LogDefine.lt (OrderedSet.insert LogDefine.lt d defines.elems)
  := by
  cases hfind : OrderedSet.find LogDefine.lt d defines.elems with
  | some found =>
      rw [OrderedSet.insert, hfind]
      apply defines.sorted
  | none =>
      apply defines.sorted.insert LogConfig.lt_strictOrder
      apply LogConfig.separates_of_not_mem
      intro d' hd' hname
      obtain ⟨before, after, hfound⟩ := LogConfig.find_of_mem hd' hname
      rw [hfind] at hfound
      cases hfound

/-- `insert` of the set. -/
def insert (defines : LogDefines) (d : LogDefine) : LogDefines :=
  ⟨OrderedSet.insert LogDefine.lt d defines.elems, sorted_insert defines d⟩

/-- yaml-cpp, with its parser and its emitter. -/
def yaml (load : Text → Option N) (emit : N → Text) : LexicalCast.Yaml where
  Node := N
  load := load
  emit := emit
  sequence := nodes.sequence
  mapping := nodes.mapping
  items := nodes.items
  entries := nodes.entries

variable (load : Text → Option N) (emit : N → Text)

/-- `LexicalCast<std::set<LogDefine>, std::string>`. -/
def toText (defines : LogDefines) : Option Text :=
  LexicalCast.sequenceToText (yaml nodes load emit) (fun d => (encode nodes d).map emit) defines.elems

/-- `LexicalCast<std::string, std::set<LogDefine>>`. -/
def fromText (text : Text) : Option LogDefines :=
  (LexicalCast.sequenceFromText (yaml nodes load emit) (fun v => (load v).bind (decode nodes)) text).map
    fun read => read.foldl insert ⟨[], List.Pairwise.nil⟩

/-- An appender for a file, or one for the standard output, without a file. -/
def Known (a : LogAppenderDefine) : Prop := a.type = 1 ∨ a.type = 2 ∧ a.file = []

instance (a : LogAppenderDefine) : Decidable (Known a) := inferInstanceAs (Decidable (_ ∨ _))

/-! ### There and back -/

variable {nodes} {load emit}

/-- The entries of the node of an appender. -/
def appenderEntries (nodes : Nodes N) (a : LogAppenderDefine) : List (Text × N) :=
  (if a.type = 1 then
    [(ascii "type", nodes.scalar (ascii "FileLogAppender")), (ascii "file", nodes.scalar a.file)]
  else [(ascii "type", nodes.scalar (ascii "StdoutLogAppender"))]) ++
    if a.pattern ≠ [] then [(ascii "pattern", nodes.scalar a.pattern)] else []

/-- The entries of the node of a definition. -/
def entriesOf (nodes : Nodes N) (name level : Text) (appenders : List N) : List (Text × N) :=
  [(ascii "name", nodes.scalar name), (ascii "level", nodes.scalar level)] ++
    if appenders ≠ [] then [(ascii "appenders", nodes.sequence appenders)] else []

theorem keys_appenderEntries (nodes : Nodes N) (a : LogAppenderDefine) :
  ((appenderEntries nodes a).map Prod.fst).Nodup
  := by
  have hkeys : [ascii "type", ascii "file", ascii "pattern"].Nodup := by decide
  apply List.Nodup.sublist _ hkeys
  rw [appenderEntries]
  split <;> split <;> simp

theorem keys_entriesOf (nodes : Nodes N) (name level : Text) (appenders : List N) :
  ((entriesOf nodes name level appenders).map Prod.fst).Nodup
  := by
  have hkeys : [ascii "name", ascii "level", ascii "appenders"].Nodup := by decide
  apply List.Nodup.sublist _ hkeys
  rw [entriesOf]
  split <;> simp

theorem assigned_of_notMem {entries : List (Text × N)} {key : Text} (h : key ∉ entries.map Prod.fst)
    (value : N) :
  Nodes.assigned entries key value = entries ++ [(key, value)]
  := by
  induction entries with
  | nil => rfl
  | cons p entries ih =>
      rw [List.map_cons, List.mem_cons, not_or] at h
      rw [Nodes.assigned, if_neg (Ne.symm h.1), ih h.2]
      rfl

/-- An assignment to a key that is not in a map yet. -/
theorem assign_new (h : nodes.Lawful) {entries : List (Text × N)} {key : Text} {value : N}
    (hkeys : ((entries ++ [(key, value)]).map Prod.fst).Nodup) :
  nodes.assign (nodes.mapping entries) key value = nodes.mapping (entries ++ [(key, value)])
  := by
  rw [List.map_append, List.nodup_append] at hkeys
  obtain ⟨hnodup, -, hdisjoint⟩ := hkeys
  rw [h.assign_mapping _ _ _ hnodup, assigned_of_notMem]
  intro hmem
  apply hdisjoint key hmem key (by simp) rfl

theorem encodeAppender_eq (h : nodes.Lawful) {a : LogAppenderDefine} (hknown : Known a) :
  encodeAppender nodes a = nodes.mapping (appenderEntries nodes a)
  := by
  obtain ⟨type, pattern, file⟩ := a
  have hkeys := keys_appenderEntries nodes ⟨type, pattern, file⟩
  have hfile : ((([(ascii "type", nodes.scalar (ascii "FileLogAppender"))] : List (Text × N)) ++
      [(ascii "file", nodes.scalar file)]).map Prod.fst).Nodup := by
    have hnodup : [ascii "type", ascii "file"].Nodup := by decide
    apply hnodup
  rw [appenderEntries] at hkeys ⊢
  rw [encodeAppender]
  obtain htype | ⟨htype, -⟩ := hknown
  · obtain rfl : type = 1 := htype
    by_cases hpattern : pattern = []
    · simp [hpattern, h.assign_null, assign_new h hfile]
    · simp only [if_true, ne_eq, hpattern, not_false_eq_true, h.assign_null, assign_new h hfile] at hkeys ⊢
      apply assign_new h hkeys
  · obtain rfl : type = 2 := htype
    by_cases hpattern : pattern = []
    · simp [hpattern, h.assign_null]
    · simp only [ne_eq, hpattern, not_false_eq_true, if_true, OfNat.ofNat_ne_one, if_false, h.assign_null]
        at hkeys ⊢
      apply assign_new h hkeys

theorem decodeAppender_encodeAppender (h : nodes.Lawful) {a : LogAppenderDefine} (hknown : Known a) :
  decodeAppender nodes (encodeAppender nodes a) = some (some a)
  := by
  have hget : ∀ key, nodes.get (nodes.mapping (appenderEntries nodes a)) key
      = some ((appenderEntries nodes a).lookup key) :=
    fun key => h.get_mapping _ key (keys_appenderEntries nodes a)
  have hpattern : decodePattern nodes (nodes.mapping (appenderEntries nodes a)) = some a.pattern := by
    have hlookup : (appenderEntries nodes a).lookup (ascii "pattern")
        = if a.pattern ≠ [] then some (nodes.scalar a.pattern) else none := by
      rw [appenderEntries]
      split <;> split <;> rfl
    rw [decodePattern, hget, hlookup, Option.bind_some]
    by_cases hempty : a.pattern = []
    · simp [hempty]
    · simp [hempty, h.asString_scalar]
  obtain ⟨type, pattern, file⟩ := a
  rw [encodeAppender_eq h hknown, decodeAppender, hget, hpattern]
  obtain htype | ⟨htype, hfile⟩ := hknown
  · obtain rfl : type = 1 := htype
    have htype : (appenderEntries nodes ⟨1, pattern, file⟩).lookup (ascii "type")
        = some (nodes.scalar (ascii "FileLogAppender")) := rfl
    have hfile : (appenderEntries nodes ⟨1, pattern, file⟩).lookup (ascii "file")
        = some (nodes.scalar file) := rfl
    simp [htype, hfile, hget, h.asString_scalar]
  · obtain rfl : type = 2 := htype
    obtain rfl : file = [] := hfile
    have htype : (appenderEntries nodes ⟨2, pattern, []⟩).lookup (ascii "type")
        = some (nodes.scalar (ascii "StdoutLogAppender")) := rfl
    have hne : ascii "StdoutLogAppender" ≠ ascii "FileLogAppender" := by decide
    simp [htype, hne, h.asString_scalar]

theorem lookup_appenders (nodes : Nodes N) (name level : Text) (appenders : List N) :
  (entriesOf nodes name level appenders).lookup (ascii "appenders")
    = if appenders ≠ [] then some (nodes.sequence appenders) else none
  := by
  rw [entriesOf]
  split <;> rfl

/-- The turn for an appender. -/
theorem addAppender_entriesOf (h : nodes.Lawful) (name level : Text) (appenders : List N)
    (a : LogAppenderDefine) :
  addAppender nodes (nodes.mapping (entriesOf nodes name level appenders)) a
    = some (nodes.mapping (entriesOf nodes name level (appenders ++ [encodeAppender nodes a])))
  := by
  have hkeys := keys_entriesOf nodes name level appenders
  rw [addAppender, h.get_mapping _ _ hkeys, Option.map_some, lookup_appenders]
  by_cases hempty : appenders = []
  · subst hempty
    have hkeys' := keys_entriesOf nodes name level [encodeAppender nodes a]
    rw [entriesOf, if_pos (by simp)] at hkeys'
    simp only [entriesOf, ne_eq, not_true_eq_false, if_false, List.append_nil, h.pushBack_none]
    rw [assign_new h hkeys']
    rfl
  · rw [if_pos hempty, h.pushBack_sequence, h.assign_mapping _ _ _ hkeys]
    simp only [entriesOf, ne_eq, hempty, not_false_eq_true, if_true, List.append_eq_nil_iff, false_and]
    rfl

/-- The node of a definition. -/
theorem encode_eq (h : nodes.Lawful) (d : LogDefine) :
  encode nodes d
    = some (nodes.mapping (entriesOf nodes d.name d.level.toString (d.appenders.map (encodeAppender nodes))))
  := by
  have hturns : ∀ (l : List LogAppenderDefine) (appenders : List N),
      l.foldlM (addAppender nodes) (nodes.mapping (entriesOf nodes d.name d.level.toString appenders))
        = some (nodes.mapping
          (entriesOf nodes d.name d.level.toString (appenders ++ l.map (encodeAppender nodes)))) := by
    intro l
    induction l with
    | nil => simp
    | cons a l ih =>
        intro appenders
        rw [List.foldlM_cons, addAppender_entriesOf h]
        simp [ih]
  have hstart : nodes.assign (nodes.assign nodes.null (ascii "name") (nodes.scalar d.name)) (ascii "level")
      (nodes.scalar d.level.toString) = nodes.mapping (entriesOf nodes d.name d.level.toString []) := by
    rw [h.assign_null]
    apply assign_new h (keys_entriesOf nodes d.name d.level.toString [])
  rw [encode, hstart, hturns, List.nil_append]

theorem decodeAppenders_encode (h : nodes.Lawful) {l : List LogAppenderDefine} (hknown : ∀ a ∈ l, Known a) :
  ((l.map (encodeAppender nodes)).mapM (decodeAppender nodes)).map (fun read => read.filterMap id) = some l
  := by
  have hread : (l.map (encodeAppender nodes)).mapM (decodeAppender nodes) = some (l.map some) := by
    rw [Traversal.mapM_eq_some_iff, List.forall₂_map_left_iff, List.forall₂_map_right_iff,
      List.forall₂_same]
    intro a ha
    apply decodeAppender_encodeAppender h (hknown a ha)
  rw [hread]
  simp [List.filterMap_map]

theorem decode_encode (h : nodes.Lawful) {d : LogDefine} (hknown : ∀ a ∈ d.appenders, Known a) :
  (encode nodes d).bind (decode nodes) = some d
  := by
  obtain ⟨name, level, appenders⟩ := d
  rw [encode_eq h, Option.bind_some]
  generalize hitems : appenders.map (encodeAppender nodes) = items
  have hget : ∀ key, nodes.get (nodes.mapping (entriesOf nodes name level.toString items)) key
      = some ((entriesOf nodes name level.toString items).lookup key) :=
    fun key => h.get_mapping _ key (keys_entriesOf nodes name level.toString items)
  have hname : (entriesOf nodes name level.toString items).lookup (ascii "name") = some (nodes.scalar name) :=
    rfl
  have hlevel : (entriesOf nodes name level.toString items).lookup (ascii "level")
      = some (nodes.scalar level.toString) := rfl
  have happenders : decodeAppenders nodes (nodes.mapping (entriesOf nodes name level.toString items))
      = some appenders := by
    rw [decodeAppenders, hget, lookup_appenders, Option.bind_some]
    by_cases hempty : items = []
    · have hnone : appenders = [] := by simpa [hempty] using hitems
      simp [hempty, hnone]
    · have hread := decodeAppenders_encode h hknown
      rw [hitems] at hread
      rw [if_pos hempty]
      simp only [h.items_sequence]
      apply hread
  simp only [decode, decodeLevel, hget, hname, hlevel, happenders, h.asString_scalar, Option.bind_some,
    Option.map_some, level.fromString_toString]

theorem toText_eq (hyaml : ∀ n, load (emit n) = some n) (defines : LogDefines) :
  toText nodes load emit defines
    = (defines.elems.mapM (encode nodes)).map fun items => emit (nodes.sequence items)
  := by
  have hback : (fun d => ((encode nodes d).map emit).bind load) = encode nodes := by
    funext d
    cases encode nodes d with
    | none => rfl
    | some n => apply hyaml
  rw [toText, LexicalCast.sequenceToText]
  change Option.map _ (defines.elems.mapM fun d => ((encode nodes d).map emit).bind load) = _
  rw [hback]
  rfl

theorem elems_foldl_insert (l : List LogDefine) (defines : LogDefines) :
  (l.foldl insert defines).elems = l.foldl (fun s d => OrderedSet.insert LogDefine.lt d s) defines.elems
  := by
  induction l generalizing defines with
  | nil => rfl
  | cons d l ih =>
      rw [List.foldl_cons, List.foldl_cons, ih]
      rfl

/-- Inserting the elements of a set one by one gives it back. -/
theorem foldl_insert_elems (defines : LogDefines) :
  defines.elems.foldl insert ⟨[], List.Pairwise.nil⟩ = defines
  := by
  have helems := elems_foldl_insert defines.elems ⟨[], List.Pairwise.nil⟩
  rw [OrderedSet.foldl_insert defines.sorted, List.nil_append] at helems
  cases hread : defines.elems.foldl insert ⟨[], List.Pairwise.nil⟩ with
  | mk elems sorted =>
      rw [hread] at helems
      subst helems
      rfl

/-- A set of definitions comes back from its text, with the same levels and the same appenders in the same
order. -/
theorem fromText_toText (h : nodes.Lawful) (hyaml : ∀ n, load (emit n) = some n) (defines : LogDefines)
    (hknown : ∀ d ∈ defines.elems, ∀ a ∈ d.appenders, Known a) :
  (toText nodes load emit defines).bind (fromText nodes load emit) = some defines
  := by
  have hall : (defines.elems.mapM (encode nodes)).bind (fun items => items.mapM (decode nodes))
      = some defines.elems := by
    rw [Traversal.mapM_bind, Traversal.mapM_eq_some_iff, List.forall₂_same]
    intro d hd
    apply decode_encode h (hknown d hd)
  obtain ⟨items, hitems, hread⟩ := Option.bind_eq_some_iff.mp hall
  have hback : (fun item => (load (emit item)).bind (decode nodes)) = decode nodes := by
    funext item
    rw [hyaml, Option.bind_some]
  have hsequence : LexicalCast.sequenceFromText (yaml nodes load emit) (fun v => (load v).bind (decode nodes))
      (emit (nodes.sequence items)) = some defines.elems := by
    rw [LexicalCast.sequenceFromText]
    change (load (emit (nodes.sequence items))).bind
      (fun node => (nodes.items node).mapM fun item => (load (emit item)).bind (decode nodes)) = _
    rw [hyaml, Option.bind_some, h.items_sequence, hback, hread]
  rw [toText_eq hyaml, hitems, Option.map_some, Option.bind_some, fromText, hsequence, Option.map_some,
    foldl_insert_elems]

/-! ### Trees -/

end LogCodec

/-- A node as a tree. The keys of a map are strings. -/
inductive YamlNode where
  | null
  | scalar (value : Text)
  | sequence (items : List YamlNode)
  | map (entries : List (Text × YamlNode))

namespace YamlNode

/-- The functions for trees. A map is searched for the number of an element as a key. -/
def nodes : Nodes YamlNode where
  null := null
  scalar := scalar
  sequence := sequence
  mapping := map
  get
    | null, _ => some none
    | scalar _, _ => none
    | sequence _, _ => some none
    | map entries, key => some (entries.lookup key)
  asString
    | null => some (ascii "null")
    | scalar value => some value
    | _ => none
  items
    | sequence items => items
    | map entries => (List.range entries.length).map fun i => (entries.lookup (decimal i)).getD null
    | _ => []
  entries
    | map entries => some entries
    | _ => none
  assign
    | map entries, key, value => map (Nodes.assigned entries key value)
    | _, key, value => map [(key, value)]
  pushBack
    | some (sequence items), item => sequence (items ++ [item])
    | _, item => sequence [item]

theorem nodes_lawful :
  nodes.Lawful
  where
  get_mapping _ _ _ := rfl
  asString_scalar _ := rfl
  items_sequence _ := rfl
  assign_null _ _ := rfl
  assign_mapping _ _ _ _ := rfl
  pushBack_none _ := rfl
  pushBack_sequence _ _ := rfl

end YamlNode

namespace LogCodec

/-- The tree of a definition. -/
def tree (d : LogDefine) : YamlNode :=
  .map (entriesOf YamlNode.nodes d.name d.level.toString (d.appenders.map (encodeAppender YamlNode.nodes)))

theorem mapM_encode (l : List LogDefine) :
  l.mapM (encode YamlNode.nodes) = some (l.map tree)
  := by
  rw [Traversal.mapM_eq_some_iff, List.forall₂_map_right_iff, List.forall₂_same]
  intro d _
  apply encode_eq YamlNode.nodes_lawful

/-! ### An example -/

/-- A text, with a mark in front of every byte and another one behind. -/
def codeText : Text → Text
  | [] => [0]
  | c :: s => 1 :: c :: codeText s

mutual

/-- A code for nodes, which no text of the example has. -/
def code : YamlNode → Text
  | .null => [0]
  | .scalar value => 1 :: codeText value
  | .sequence items => 2 :: codeItems items
  | .map entries => 3 :: codeEntries entries

def codeItems : List YamlNode → Text
  | [] => [0]
  | item :: rest => 1 :: (code item ++ codeItems rest)

def codeEntries : List (Text × YamlNode) → Text
  | [] => [0]
  | (key, value) :: rest => 1 :: (codeText key ++ (code value ++ codeEntries rest))

end

theorem codeText_inj {s s' rest rest' : Text} (h : codeText s ++ rest = codeText s' ++ rest') :
  s = s' ∧ rest = rest'
  := by
  induction s generalizing s' with
  | nil =>
      cases s' with
      | nil => exact ⟨rfl, List.append_cancel_left h⟩
      | cons c s' => simp [codeText] at h
  | cons c s ih =>
      cases s' with
      | nil => simp [codeText] at h
      | cons c' s' =>
          simp only [codeText, List.cons_append, List.cons.injEq, true_and] at h
          obtain ⟨rfl, hrest⟩ := h
          obtain ⟨rfl, rfl⟩ := ih hrest
          exact ⟨rfl, rfl⟩

mutual

theorem code_inj {rest rest' : Text} :
  ∀ {n n' : YamlNode}, code n ++ rest = code n' ++ rest' → n = n' ∧ rest = rest'
  | .null, n', h => by
      cases n' with
      | null => exact ⟨rfl, List.append_cancel_left h⟩
      | _ => simp [code] at h
  | .scalar value, n', h => by
      cases n' with
      | scalar value' =>
          simp only [code, List.cons_append, List.cons.injEq, true_and] at h
          obtain ⟨rfl, rfl⟩ := codeText_inj h
          exact ⟨rfl, rfl⟩
      | _ => simp [code] at h
  | .sequence items, n', h => by
      cases n' with
      | sequence items' =>
          simp only [code, List.cons_append, List.cons.injEq, true_and] at h
          obtain ⟨rfl, rfl⟩ := codeItems_inj h
          exact ⟨rfl, rfl⟩
      | _ => simp [code] at h
  | .map entries, n', h => by
      cases n' with
      | map entries' =>
          simp only [code, List.cons_append, List.cons.injEq, true_and] at h
          obtain ⟨rfl, rfl⟩ := codeEntries_inj h
          exact ⟨rfl, rfl⟩
      | _ => simp [code] at h

theorem codeItems_inj {rest rest' : Text} :
  ∀ {items items' : List YamlNode}, codeItems items ++ rest = codeItems items' ++ rest' →
    items = items' ∧ rest = rest'
  | [], items', h => by
      cases items' with
      | nil => exact ⟨rfl, List.append_cancel_left h⟩
      | cons item' items' => simp [codeItems] at h
  | item :: items, items', h => by
      cases items' with
      | nil => simp [codeItems] at h
      | cons item' items' =>
          simp only [codeItems, List.cons_append, List.append_assoc, List.cons.injEq, true_and] at h
          obtain ⟨rfl, hrest⟩ := code_inj h
          obtain ⟨rfl, rfl⟩ := codeItems_inj hrest
          exact ⟨rfl, rfl⟩

theorem codeEntries_inj {rest rest' : Text} :
  ∀ {entries entries' : List (Text × YamlNode)},
    codeEntries entries ++ rest = codeEntries entries' ++ rest' → entries = entries' ∧ rest = rest'
  | [], entries', h => by
      cases entries' with
      | nil => exact ⟨rfl, List.append_cancel_left h⟩
      | cons p' entries' => simp [codeEntries] at h
  | (key, value) :: entries, entries', h => by
      cases entries' with
      | nil => simp [codeEntries] at h
      | cons p' entries' =>
          obtain ⟨key', value'⟩ := p'
          simp only [codeEntries, List.cons_append, List.append_assoc, List.cons.injEq, true_and] at h
          obtain ⟨rfl, hvalue⟩ := codeText_inj h
          obtain ⟨rfl, hrest⟩ := code_inj hvalue
          obtain ⟨rfl, rfl⟩ := codeEntries_inj hrest
          exact ⟨rfl, rfl⟩

end

open Classical in
/-- The node with a code. -/
noncomputable def uncode (text : Text) : Option YamlNode :=
  if h : ∃ n, code n = text then some h.choose else none

theorem uncode_code (n : YamlNode) :
  uncode (code n) = some n
  := by
  have h : ∃ n', code n' = code n := ⟨n, rfl⟩
  have heq : code h.choose ++ [] = code n ++ [] := congrArg (· ++ []) h.choose_spec
  rw [uncode, dif_pos h, (code_inj heq).1]

/-- The logger `http` writes to the standard output, with a pattern. -/
def http : LogDefine := ⟨ascii "http", .info, [⟨2, ascii "[%p] %m%n", []⟩]⟩

/-- The logger `system` writes to a file and to the standard output. -/
def system : LogDefine := ⟨ascii "system", .error, [⟨1, [], ascii "log"⟩, ⟨2, [], []⟩]⟩

/-- Both of them. -/
def both : LogDefines := ⟨[http, system], by decide⟩

/-- The text with the given lines. -/
def lines (l : List String) : Text := [10].intercalate (l.map ascii)

/-- What yaml-cpp writes for `http`. -/
def httpText : Text := lines
  ["name: http",
    "level: INFO",
    "appenders:",
    "  - type: StdoutLogAppender",
    "    pattern: \"[%p] %m%n\""]

/-- What yaml-cpp writes for `system`. -/
def systemText : Text := lines
  ["name: system",
    "level: ERROR",
    "appenders:",
    "  - type: FileLogAppender",
    "    file: log",
    "  - type: StdoutLogAppender"]

/-- What yaml-cpp writes for both. -/
def bothText : Text := lines
  ["- name: http",
    "  level: INFO",
    "  appenders:",
    "    - type: StdoutLogAppender",
    "      pattern: \"[%p] %m%n\"",
    "- name: system",
    "  level: ERROR",
    "  appenders:",
    "    - type: FileLogAppender",
    "      file: log",
    "    - type: StdoutLogAppender"]

open Classical in
/-- The texts of the nodes of the example, and codes of all others. -/
noncomputable def emitBoth (n : YamlNode) : Text :=
  if n = tree http then httpText
  else if n = tree system then systemText
  else if n = .sequence [tree http, tree system] then bothText
  else code n

/-- The nodes of these texts and codes. -/
noncomputable def loadBoth (text : Text) : Option YamlNode :=
  if text = httpText then some (tree http)
  else if text = systemText then some (tree system)
  else if text = bothText then some (.sequence [tree http, tree system])
  else uncode text

/-- A code begins with a byte below 4. -/
theorem code_ne (n : YamlNode) {text : Text} {c : Byte} (htext : text.head? = some c) (hc : 4 ≤ c) :
  code n ≠ text
  := by
  have hfirst : ∃ d, (code n).head? = some d ∧ d < 4 := by
    cases n with
    | null => exact ⟨0, rfl, by decide⟩
    | scalar value => exact ⟨1, rfl, by decide⟩
    | sequence items => exact ⟨2, rfl, by decide⟩
    | map entries => exact ⟨3, rfl, by decide⟩
  obtain ⟨d, hcode, hd⟩ := hfirst
  rintro rfl
  rw [htext] at hcode
  rw [← Option.some.inj hcode] at hd
  exact absurd hd (UInt8.not_lt.mpr hc)

theorem loadBoth_emitBoth (n : YamlNode) :
  loadBoth (emitBoth n) = some n
  := by
  rw [emitBoth]
  split
  · rename_i hn
    rw [loadBoth, if_pos rfl, hn]
  · split
    · rename_i hn
      rw [loadBoth, if_neg (by decide), if_pos rfl, hn]
    · split
      · rename_i hn
        rw [loadBoth, if_neg (by decide), if_neg (by decide), if_pos rfl, hn]
      · have hhttp : code n ≠ httpText := code_ne n (c := 110) (by decide) (by decide)
        have hsystem : code n ≠ systemText := code_ne n (c := 110) (by decide) (by decide)
        have hboth : code n ≠ bothText := code_ne n (c := 45) (by decide) (by decide)
        rw [loadBoth, if_neg hhttp, if_neg hsystem, if_neg hboth, uncode_code]

/-- Both loggers come back. -/
theorem both_come_back :
  toText YamlNode.nodes loadBoth emitBoth both = some bothText ∧
    fromText YamlNode.nodes loadBoth emitBoth bothText = some both
  := by
  have htext : toText YamlNode.nodes loadBoth emitBoth both = some bothText := by
    have hemit : emitBoth (.sequence [tree http, tree system]) = bothText := by
      rw [emitBoth, if_neg (by simp [tree]), if_neg (by simp [tree]), if_pos rfl]
    rw [toText_eq loadBoth_emitBoth, mapM_encode]
    apply congrArg some hemit
  have hback := fromText_toText YamlNode.nodes_lawful loadBoth_emitBoth both (by decide)
  rw [htext, Option.bind_some] at hback
  exact ⟨htext, hback⟩

end LogCodec

import TinyWebserver.Base.LogCodec
import TinyWebserver.Lib.Search

/-!
# The configuration

`Config::Lookup` of `base/config.h` registers variables, and `Config::LoadFromYaml` of `base/config.cpp`
lists the nodes of a tree with their key paths and hands them to the variables of these names. Both check
names against an alphabet that lacks one of the documented characters.

`loadFromYaml_spec`: each variable gets the nodes with its name, in depth-first order, and the last one
that can be converted decides its value exactly if `operator==` of its type tells values apart, which it
does not for the variable `logs`. `treated_iff`: a name is treated as the documentation has it exactly if it
has a character outside of the documented alphabet, or no `9` and no period in front.
-/

namespace Config

/-- The byte `'.'`. -/
def period : Byte := 46

/-- The characters that `ListAllMember` accepts. -/
def memberAlphabet : Text := ascii "abcdefghikjlmnopqrstuvwxyz._012345678"

/-- The characters that `Lookup` accepts. -/
def lookupAlphabet : Text := ascii "abcdefghikjlmnopqrstuvwxyz._012345678"

/-- `find_first_not_of`, with `none` for `npos`. -/
def findFirstNotOf (text set : Text) : Option ℕ := text.findIdx? fun c => !set.contains c

/-! ### Variables -/

/-- What the templates need of a type: the conversion of a text, `none` if it throws, and `operator==`. -/
structure Conversions (τ V : Type) where
  fromText : τ → Text → Option V
  same : τ → V → V → Bool

/-- A `ConfigVar`. -/
structure Var (τ V : Type) where
  type : τ
  m_val : V

/-- `GetDatas()`, with the calls of `FromString` so far. -/
structure State (τ V : Type) where
  datas : Text → Option (Var τ V)
  calls : List (Text × Text)

variable {τ V : Type}

/-- `SetValue`. -/
def Var.setValue (c : Conversions τ V) (var : Var τ V) (v : V) : Var τ V :=
  if c.same var.type v var.m_val = true then var else { var with m_val := v }

/-- `FromString`. -/
def Var.fromString (c : Conversions τ V) (var : Var τ V) (val : Text) : Var τ V :=
  match c.fromText var.type val with
  | none => var
  | some v => var.setValue c v

/-- What `Lookup` returns: the variable that it has registered or found, a null pointer for a variable of
another type, or an exception. -/
inductive Found where
  | created
  | exists
  | otherType
  | invalidArgument
deriving DecidableEq

/-- `Lookup`. -/
def lookup [DecidableEq τ] (s : State τ V) (name : Text) (type : τ) (default_value : V) :
    State τ V × Found :=
  match s.datas name with
  | some var => (s, if var.type = type then .exists else .otherType)
  | none =>
      if findFirstNotOf name lookupAlphabet ≠ none then
        (s, .invalidArgument)
      else
        ({ s with datas := Function.update s.datas name (some ⟨type, default_value⟩) }, .created)

/-! ### Loading a tree -/

mutual

/-- `ListAllMember`. -/
def listAllMember (pre : Text) (node : YamlNode) (output : List (Text × YamlNode)) :
    List (Text × YamlNode) :=
  if findFirstNotOf pre memberAlphabet ≠ none then
    output
  else
    match node with
    | .map entries => listEntries pre entries (output ++ [(pre, node)])
    | _ => output ++ [(pre, node)]
termination_by structural node

/-- The loop over the entries of a map. -/
def listEntries (pre : Text) (entries : List (Text × YamlNode)) (output : List (Text × YamlNode)) :
    List (Text × YamlNode) :=
  match entries with
  | [] => output
  | (key, child) :: rest =>
      listEntries pre rest
        (listAllMember (if pre = [] then key else pre ++ [period] ++ key) child output)
termination_by structural entries

end

/-- `::tolower`. -/
def tolower (c : Byte) : Byte := if 65 ≤ c ∧ c ≤ 90 then c + 32 else c

/-- The text of a scalar, or the text that the emitter makes of another node. -/
def nodeText (emit : YamlNode → Text) : YamlNode → Text
  | .scalar value => value
  | node => emit node

/-- The turn of the loop of `LoadFromYaml` for a node. -/
def loadNode (c : Conversions τ V) (emit : YamlNode → Text) (s : State τ V) (i : Text × YamlNode) :
    State τ V :=
  if i.1 = [] then
    s
  else
    let key := i.1.map tolower
    match s.datas key with
    | none => s
    | some var =>
        let val := nodeText emit i.2
        { datas := Function.update s.datas key (some (var.fromString c val))
          calls := s.calls ++ [(key, val)] }

/-- `LoadFromYaml`. -/
def loadFromYaml (c : Conversions τ V) (emit : YamlNode → Text) (s : State τ V) (root : YamlNode) :
    State τ V :=
  (listAllMember [] root []).foldl (loadNode c emit) s

/-! ### Key paths -/

mutual

/-- The nodes of a tree with the keys that lead to them, in depth-first order. -/
def paths : YamlNode → List (List Text × YamlNode)
  | .null => [([], .null)]
  | .scalar value => [([], .scalar value)]
  | .sequence items => [([], .sequence items)]
  | .map entries => ([], .map entries) :: entryPaths entries

/-- The nodes below the entries of a map. -/
def entryPaths : List (Text × YamlNode) → List (List Text × YamlNode)
  | [] => []
  | (key, child) :: rest => (paths child).map (fun p => (key :: p.1, p.2)) ++ entryPaths rest

end

/-- A tree whose keys are not empty. -/
structure Tree where
  root : YamlNode
  keys : ∀ p ∈ paths root, ∀ key ∈ p.1, key ≠ []

/-- A key path as a name. -/
def dotted (path : List Text) : Text := [period].intercalate path

/-- The name that `ListAllMember` gives to a key path: empty keys in front are left out. -/
def listed (path : List Text) : Text := dotted (path.dropWhile (· = []))

/-- A text that passes the check of `ListAllMember`. -/
def Accepted (text : Text) : Prop := ∀ c ∈ text, c ∈ memberAlphabet

instance (text : Text) : Decidable (Accepted text) := List.decidableBAll (fun c => c ∈ memberAlphabet) text

/-- The nodes below the root with accepted keys whose dotted path is a given name. -/
def named (t : Tree) (name : Text) : List YamlNode :=
  ((paths t.root).filter fun p => p.1 ≠ [] ∧ (∀ key ∈ p.1, Accepted key) ∧ dotted p.1 = name).map
    Prod.snd

/-- The texts that the variable of a name has been given. -/
def State.callsOf (s : State τ V) (name : Text) : List Text :=
  (s.calls.filter fun call => call.1 = name).map Prod.snd

/-! ### The list of all members -/

theorem findFirstNotOf_eq_none_iff (text set : Text) :
  findFirstNotOf text set = none ↔ ∀ c ∈ text, c ∈ set
  := by
  simp [findFirstNotOf, List.findIdx?_eq_none_iff]

theorem dotted_append_singleton (path : List Text) (key : Text) :
  dotted (path ++ [key]) = if path = [] then key else dotted path ++ [period] ++ key
  := by
  rw [dotted, Search.intercalate_append_singleton]
  split
  · rename_i hnil
    simp [hnil]
  · rfl

theorem accepted_append (a b : Text) :
  Accepted (a ++ b) ↔ Accepted a ∧ Accepted b
  := List.forall_mem_append

theorem accepted_period :
  Accepted [period]
  := by decide

/-- A dotted path is accepted as a whole exactly if all of its keys are. -/
theorem accepted_dotted (path : List Text) :
  Accepted (dotted path) ↔ ∀ key ∈ path, Accepted key
  := by
  induction path using List.reverseRecOn with
  | nil => simp [dotted, Accepted]
  | append_singleton path key ih =>
      rw [dotted_append_singleton, List.forall_mem_append, ← ih]
      split
      · rename_i hnil
        simp [hnil, dotted, Accepted]
      · rw [accepted_append, accepted_append]
        simp [accepted_period]

/-- Empty keys are accepted. -/
theorem accepted_listed (path : List Text) :
  Accepted (listed path) ↔ ∀ key ∈ path, Accepted key
  := by
  rw [listed, accepted_dotted]
  induction path with
  | nil => rfl
  | cons key path ih =>
      by_cases hkey : key = []
      · have hempty : Accepted key := by simp [hkey, Accepted]
        rw [List.dropWhile_cons_of_pos (by simpa using hkey), ih, List.forall_mem_cons]
        simp only [hempty, true_and]
      · simp [hkey]

theorem dotted_cons_ne_nil {key : Text} (hkey : key ≠ []) (path : List Text) :
  dotted (key :: path) ≠ []
  := by
  cases path with
  | nil => simpa [dotted] using hkey
  | cons key' path => simp [dotted, List.intercalate, hkey]

/-- The prefix of the members of an entry. -/
theorem prefix_eq_listed (path : List Text) (key : Text) :
  (if listed path = [] then key else listed path ++ [period] ++ key) = listed (path ++ [key])
  := by
  rw [listed, listed, List.dropWhile_append]
  cases hdrop : path.dropWhile (· = []) with
  | nil =>
      by_cases hkey : key = []
      · simp [hkey, dotted]
      · simp [hkey, dotted]
  | cons key' rest =>
      have hne : key' ≠ [] := by
        have hhead := List.head?_dropWhile_not (fun k : Text => k = []) path
        simpa [hdrop] using hhead
      rw [if_neg (dotted_cons_ne_nil hne rest), List.isEmpty_cons, if_neg (by decide),
        dotted_append_singleton, if_neg (by simp)]

/-- The name of a key path without empty keys is the path with dots. -/
theorem listed_eq_dotted {path : List Text} (h : path.head? ≠ some []) :
  listed path = dotted path
  := by
  cases path with
  | nil => rfl
  | cons key path =>
      have hkey : key ≠ [] := fun heq => h (by rw [heq]; rfl)
      rw [listed, List.dropWhile_cons_of_neg (by simpa using hkey)]

/-- The members of a tree under a path: the nodes with accepted keys, with their names. -/
def members (path : List Text) (ps : List (List Text × YamlNode)) : List (Text × YamlNode) :=
  (ps.filter fun p => (path ++ p.1).all fun key => Accepted key).map fun p => (listed (path ++ p.1), p.2)

theorem members_append (path : List Text) (ps ps' : List (List Text × YamlNode)) :
  members path (ps ++ ps') = members path ps ++ members path ps'
  := by
  simp [members]

theorem members_cons_key (path : List Text) (key : Text) (ps : List (List Text × YamlNode)) :
  members path (ps.map fun p => (key :: p.1, p.2)) = members (path ++ [key]) ps
  := by
  simp [members, List.filter_map, Function.comp_def]

theorem members_of_not_accepted {path : List Text} (h : ¬ ∀ key ∈ path, Accepted key)
    (ps : List (List Text × YamlNode)) :
  members path ps = []
  := by
  rw [members, List.map_eq_nil_iff, List.filter_eq_nil_iff]
  intro p _ hp
  apply h
  intro key hkey
  apply of_decide_eq_true (List.all_eq_true.mp hp key (List.mem_append_left p.1 hkey))

theorem members_self {path : List Text} (h : ∀ key ∈ path, Accepted key) (node : YamlNode) :
  members path [([], node)] = [(listed path, node)]
  := by
  rw [members, List.filter_cons_of_pos (by simpa using h), List.filter_nil, List.map_singleton,
    List.append_nil]

mutual

/-- `ListAllMember` lists the members below its prefix. -/
theorem listAllMember_eq (node : YamlNode) (path : List Text) (output : List (Text × YamlNode)) :
  listAllMember (listed path) node output = output ++ members path (paths node)
  := by
  by_cases haccept : ∀ key ∈ path, Accepted key
  · have hcheck : findFirstNotOf (listed path) memberAlphabet = none :=
      (findFirstNotOf_eq_none_iff _ _).mpr ((accepted_listed path).mpr haccept)
    have hself := members_self haccept
    cases node with
    | null => simp only [listAllMember, hcheck, ne_eq, not_true_eq_false, if_false, paths, hself]
    | scalar value =>
        simp only [listAllMember, hcheck, ne_eq, not_true_eq_false, if_false, paths, hself]
    | sequence items =>
        simp only [listAllMember, hcheck, ne_eq, not_true_eq_false, if_false, paths, hself]
    | map entries =>
        have hcons := members_append path [([], .map entries)] (entryPaths entries)
        rw [List.singleton_append, hself] at hcons
        simp only [listAllMember, hcheck, ne_eq, not_true_eq_false, if_false, paths, hcons]
        rw [listEntries_eq entries path, List.append_assoc]
  · have hcheck : findFirstNotOf (listed path) memberAlphabet ≠ none := by
      rw [ne_eq, findFirstNotOf_eq_none_iff]
      apply mt (accepted_listed path).mp haccept
    rw [members_of_not_accepted haccept, List.append_nil]
    cases node <;> simp only [listAllMember, if_pos hcheck]

theorem listEntries_eq (entries : List (Text × YamlNode)) (path : List Text)
    (output : List (Text × YamlNode)) :
  listEntries (listed path) entries output = output ++ members path (entryPaths entries)
  := by
  match entries with
  | [] => simp [listEntries, entryPaths, members]
  | (key, child) :: rest =>
      rw [listEntries, prefix_eq_listed, listAllMember_eq child (path ++ [key]),
        listEntries_eq rest path, entryPaths, members_append, members_cons_key, List.append_assoc]

end

/-- The list that is loaded: the nodes with accepted keys. -/
theorem listAllMember_root (root : YamlNode) :
  listAllMember [] root [] = members [] (paths root)
  := by
  simpa [listed, dotted] using listAllMember_eq root [] []

/-! ### What is loaded -/

theorem tolower_of_mem {c : Byte} (h : c ∈ memberAlphabet) :
  tolower c = c
  := by
  have hall : ∀ c ∈ memberAlphabet, tolower c = c := by decide +kernel
  apply hall c h

theorem map_tolower {text : Text} (h : Accepted text) :
  text.map tolower = text
  := by
  rw [List.map_congr_left fun c hc => tolower_of_mem (h c hc), List.map_id']

/-- A node does nothing if its name is not the one of a variable. -/
theorem loadNode_of_none (c : Conversions τ V) (emit : YamlNode → Text) {s : State τ V}
    {i : Text × YamlNode} (haccept : Accepted i.1) (h : s.datas i.1 = none) :
  loadNode c emit s i = s
  := by
  rw [loadNode, map_tolower haccept]
  simp only [h, ite_self]

/-- The variable with the name of a node is given its text. -/
theorem loadNode_of_some (c : Conversions τ V) (emit : YamlNode → Text) {s : State τ V}
    {i : Text × YamlNode} {var : Var τ V} (haccept : Accepted i.1) (hne : i.1 ≠ [])
    (h : s.datas i.1 = some var) :
  loadNode c emit s i
    = { datas := Function.update s.datas i.1 (some (var.fromString c (nodeText emit i.2)))
        calls := s.calls ++ [(i.1, nodeText emit i.2)] }
  := by
  rw [loadNode, if_neg hne, map_tolower haccept]
  simp only [h]

/-- The texts of the nodes with a name. -/
def textsOf (emit : YamlNode → Text) (nodes : List (Text × YamlNode)) (name : Text) : List Text :=
  (nodes.filter fun i => i.1 = name ∧ i.1 ≠ []).map fun i => nodeText emit i.2

/-- A list of nodes: the variable with a name is given the texts of the nodes with this name. -/
theorem foldl_loadNode (c : Conversions τ V) (emit : YamlNode → Text) {nodes : List (Text × YamlNode)}
    (haccept : ∀ i ∈ nodes, Accepted i.1) (s : State τ V) (name : Text) :
  (nodes.foldl (loadNode c emit) s).datas name
      = (s.datas name).map (fun var => (textsOf emit nodes name).foldl (Var.fromString c) var) ∧
    (nodes.foldl (loadNode c emit) s).callsOf name
      = s.callsOf name ++ if (s.datas name).isSome then textsOf emit nodes name else []
  := by
  induction nodes generalizing s with
  | nil => simp [textsOf]
  | cons i nodes ih =>
      have hi := haccept i List.mem_cons_self
      have hrest := ih fun j hj => haccept j (List.mem_cons_of_mem i hj)
      rw [List.foldl_cons]
      by_cases hname : i.1 = name ∧ i.1 ≠ []
      · obtain ⟨rfl, hne⟩ := hname
        have htexts : textsOf emit (i :: nodes) i.1 = nodeText emit i.2 :: textsOf emit nodes i.1 := by
          simp [textsOf, hne]
        cases hvar : s.datas i.1 with
        | none =>
            rw [loadNode_of_none c emit hi hvar, (hrest s).1, (hrest s).2, hvar]
            simp
        | some var =>
            have hafter := hrest (loadNode c emit s i)
            rw [loadNode_of_some c emit hi hne hvar] at hafter ⊢
            rw [hafter.1, hafter.2, htexts]
            simp [State.callsOf]
      · have htexts : textsOf emit (i :: nodes) name = textsOf emit nodes name := by
          simp only [textsOf, List.filter_cons, decide_eq_false hname, Bool.false_eq_true, if_false]
        have hafter := hrest (loadNode c emit s i)
        have hsame : (loadNode c emit s i).datas name = s.datas name ∧
            (loadNode c emit s i).callsOf name = s.callsOf name := by
          by_cases hne : i.1 = []
          · simp [loadNode, hne]
          · have hother : name ≠ i.1 := fun h => hname ⟨h.symm, hne⟩
            cases hvar : s.datas i.1 with
            | none => simp [loadNode_of_none c emit hi hvar]
            | some var =>
                rw [loadNode_of_some c emit hi hne hvar]
                simp [State.callsOf, Function.update_of_ne hother, hother.symm]
        rw [hafter.1, hafter.2, htexts, hsame.1, hsame.2]
        exact ⟨rfl, rfl⟩

/-- The nodes that a load takes for a name. -/
def taken (root : YamlNode) (name : Text) : List YamlNode :=
  ((paths root).filter fun p =>
    listed p.1 ≠ [] ∧ (∀ key ∈ p.1, Accepted key) ∧ listed p.1 = name).map Prod.snd

/-- The nodes of the list with a name are those that are taken for it. -/
theorem textsOf_members (emit : YamlNode → Text) (root : YamlNode) (name : Text) :
  textsOf emit (members [] (paths root)) name = (taken root name).map (nodeText emit)
  := by
  rw [textsOf, members, taken, List.filter_map, List.filter_filter, List.map_map, List.map_map]
  have hfilter : ∀ p ∈ paths root,
      ((((fun i => decide (i.1 = name ∧ i.1 ≠ [])) ∘
          fun p : List Text × YamlNode => (listed ([] ++ p.1), p.2)) p) &&
        ([] ++ p.1).all fun key => Accepted key)
      = decide (listed p.1 ≠ [] ∧ (∀ key ∈ p.1, Accepted key) ∧ listed p.1 = name) := by
    intro p _
    rw [Bool.eq_iff_iff]
    simp only [Function.comp_apply, List.nil_append, Bool.and_eq_true, decide_eq_true_eq,
      List.all_eq_true]
    tauto
  rw [List.filter_congr hfilter]
  rfl

/-- What a load does with a name. -/
theorem loadFromYaml_name (c : Conversions τ V) (emit : YamlNode → Text) (s : State τ V) (root : YamlNode)
    (name : Text) :
  (loadFromYaml c emit s root).datas name
      = (s.datas name).map
        (fun var => ((taken root name).map (nodeText emit)).foldl (Var.fromString c) var) ∧
    (loadFromYaml c emit s root).callsOf name
      = s.callsOf name ++ if (s.datas name).isSome then (taken root name).map (nodeText emit) else []
  := by
  have haccept : ∀ i ∈ members [] (paths root), Accepted i.1 := by
    intro i hi
    obtain ⟨p, hp, rfl⟩ := List.mem_map.mp hi
    apply (accepted_listed _).mpr
    simpa using (List.mem_filter.mp hp).2
  have h := foldl_loadNode c emit haccept s name
  rw [textsOf_members] at h
  rw [loadFromYaml, listAllMember_root]
  apply h

theorem loadFromYaml_calls (c : Conversions τ V) (emit : YamlNode → Text) (s : State τ V)
    (root : YamlNode) {name : Text} {var : Var τ V} (h : s.datas name = some var) :
  (loadFromYaml c emit s root).callsOf name = s.callsOf name ++ (taken root name).map (nodeText emit)
  := by
  rw [(loadFromYaml_name c emit s root name).2, h]
  rfl

/-! ### Values -/

/-- A state with a single variable. -/
def single (name : Text) (type : τ) (m_val : V) : State τ V :=
  ⟨fun name' => if name' = name then some ⟨type, m_val⟩ else none, []⟩

theorem keys_entry {key : Text} {node : YamlNode} (hkey : key ≠ []) (hnode : paths node = [([], node)]) :
  ∀ p ∈ paths (.map [(key, node)]), ∀ k ∈ p.1, k ≠ []
  := by
  simpa [paths, entryPaths, hnode] using hkey

/-- A tree with a single entry. -/
def entry {key : Text} {node : YamlNode} (hkey : key ≠ []) (hnode : paths node = [([], node)]) : Tree :=
  ⟨.map [(key, node)], keys_entry hkey hnode⟩

/-- The conversion and `operator==` of the variable `logs`. -/
def logs (nodes : Nodes YamlNode) (load : Text → Option YamlNode) (emit : YamlNode → Text) :
    Conversions Unit LogDefines where
  fromText _ := LogCodec.fromText nodes load emit
  same _ := LogConfig.setEq

example :
  (named ⟨.map [(ascii "a", .map [(ascii "b", .null), (ascii "B", .map [(ascii "b", .null)])]),
      (ascii "a.b", .sequence [])], by decide⟩ (ascii "a.b")).length = 2
  := by decide

/-! ### The alphabet of names -/

/-- The documented characters: `[0-9a-z_.]`. -/
def documented (c : Byte) : Bool :=
  48 ≤ c.toNat && c.toNat ≤ 57 || 97 ≤ c.toNat && c.toNat ≤ 122 || c.toNat = 95 || c.toNat = 46

/-- The byte `'9'`. -/
def nine : Byte := 57

theorem mem_lookupAlphabet_of_range {c : Byte} (first count : ℕ)
    (hall : ∀ n < count, UInt8.ofNat (first + n) ∈ lookupAlphabet) (hlow : first ≤ c.toNat)
    (hhigh : c.toNat < first + count) :
  c ∈ lookupAlphabet
  := by
  have h := hall (c.toNat - first) (by omega)
  rwa [Nat.add_sub_cancel' hlow, UInt8.ofNat_toNat] at h

/-- The documented characters but `9` are accepted. -/
theorem mem_lookupAlphabet_iff (c : Byte) :
  c ∈ lookupAlphabet ↔ documented c = true ∧ c ≠ nine
  := by
  constructor
  · intro h
    have hall : ∀ c ∈ lookupAlphabet, documented c = true ∧ c ≠ nine := by decide +kernel
    apply hall c h
  · rintro ⟨hdoc, hnine⟩
    have hne : c.toNat ≠ 57 := fun h => hnine (UInt8.toNat.inj h)
    simp only [documented, Bool.or_eq_true, Bool.and_eq_true, decide_eq_true_eq] at hdoc
    rcases hdoc with ((⟨hlow, hhigh⟩ | ⟨hlow, hhigh⟩) | hc) | hc
    · apply mem_lookupAlphabet_of_range 48 9 (by decide) hlow
      omega
    · apply mem_lookupAlphabet_of_range 97 26 (by decide) hlow
      omega
    · apply mem_lookupAlphabet_of_range 95 1 (by decide)
      · omega
      · omega
    · apply mem_lookupAlphabet_of_range 46 1 (by decide)
      · omega
      · omega

/-- What the program does with its configuration. -/
inductive Op (τ V : Type) where
  | lookup (name : Text) (type : τ) (default_value : V)
  | load (root : YamlNode)

/-- The state after an operation. -/
def Op.apply [DecidableEq τ] (c : Conversions τ V) (emit : YamlNode → Text) (s : State τ V) :
    Op τ V → State τ V
  | .lookup name type default_value => (Config.lookup s name type default_value).1
  | .load root => loadFromYaml c emit s root

/-- The state at the start of the program. -/
def empty : State τ V := ⟨fun _ => none, []⟩

/-- A state that the program can reach. -/
def Reachable [DecidableEq τ] (c : Conversions τ V) (emit : YamlNode → Text) (s : State τ V) : Prop :=
  ∃ ops : List (Op τ V), s = ops.foldl (Op.apply c emit) empty

/-- A name is treated as documented: with documented characters it is registered, and gets the nodes at its
path, and otherwise `Lookup` throws and changes nothing. -/
def Treated [DecidableEq τ] (c : Conversions τ V) (emit : YamlNode → Text) (name : Text) : Prop :=
  name ≠ [] → ∀ s, Reachable c emit s → ∀ (type : τ) (default_value : V),
    if name.all documented = true then
      (lookup s name type default_value).2 ≠ .invalidArgument ∧
      ((lookup s name type default_value).1.datas name).isSome = true ∧
      ∀ (root : YamlNode) (path : List Text) (node : YamlNode), path ≠ [] → (path, node) ∈ paths root →
        dotted path = name → ∃ vals,
          (loadFromYaml c emit (lookup s name type default_value).1 root).callsOf name
            = (lookup s name type default_value).1.callsOf name ++ vals ∧ nodeText emit node ∈ vals
    else
      lookup s name type default_value = (s, .invalidArgument)

/-- Loading registers nothing. -/
theorem isSome_loadNode (c : Conversions τ V) (emit : YamlNode → Text) (s : State τ V)
    (i : Text × YamlNode) (name : Text) :
  ((loadNode c emit s i).datas name).isSome = (s.datas name).isSome
  := by
  rw [loadNode]
  split
  · rfl
  · simp only
    split
    · rfl
    · rename_i var hvar
      by_cases hname : name = i.1.map tolower
      · rw [hname]
        simp [hvar]
      · simp [Function.update_of_ne hname]

theorem isSome_foldl (c : Conversions τ V) (emit : YamlNode → Text) (nodes : List (Text × YamlNode))
    (s : State τ V) (name : Text) :
  ((nodes.foldl (loadNode c emit) s).datas name).isSome = (s.datas name).isSome
  := by
  induction nodes generalizing s with
  | nil => rfl
  | cons i nodes ih => rw [List.foldl_cons, ih, isSome_loadNode]

section Alphabet

variable [DecidableEq τ]

theorem lookup_of_accepted {name : Text} (h : findFirstNotOf name lookupAlphabet = none)
    (s : State τ V) (type : τ) (default_value : V) :
  (lookup s name type default_value).2 ≠ .invalidArgument ∧
    ((lookup s name type default_value).1.datas name).isSome = true
  := by
  rw [lookup]
  cases hvar : s.datas name with
  | none => simp [h]
  | some var =>
      simp only [hvar, Option.isSome_some, and_true]
      split <;> decide

theorem lookup_of_rejected {name : Text} (h : findFirstNotOf name lookupAlphabet ≠ none)
    {s : State τ V} (hnone : s.datas name = none) (type : τ) (default_value : V) :
  lookup s name type default_value = (s, .invalidArgument)
  := by
  rw [lookup, hnone]
  simp only [if_pos h]

/-- The registered names are accepted. -/
def NamesAccepted (s : State τ V) : Prop :=
  ∀ name, (s.datas name).isSome = true → findFirstNotOf name lookupAlphabet = none

theorem namesAccepted_apply (c : Conversions τ V) (emit : YamlNode → Text) {s : State τ V}
    (h : NamesAccepted s) (op : Op τ V) :
  NamesAccepted (op.apply c emit s)
  := by
  cases op with
  | load root =>
      intro name hname
      apply h name
      rwa [Op.apply, loadFromYaml, isSome_foldl] at hname
  | lookup name type default_value =>
      rw [Op.apply, Config.lookup]
      cases hvar : s.datas name with
      | some var => apply h
      | none =>
          simp only
          split
          · apply h
          · rename_i haccept
            intro name' hname'
            by_cases heq : name' = name
            · subst heq
              apply not_not.mp haccept
            · apply h name'
              simpa [Function.update_of_ne heq] using hname'

theorem namesAccepted_of_reachable {c : Conversions τ V} {emit : YamlNode → Text} {s : State τ V}
    (h : Reachable c emit s) :
  NamesAccepted s
  := by
  obtain ⟨ops, rfl⟩ := h
  induction ops using List.reverseRecOn with
  | nil =>
      intro name hname
      cases hname
  | append_singleton ops op ih =>
      rw [List.foldl_append]
      apply namesAccepted_apply c emit ih

theorem dotted_nil_cons {path : List Text} (hpath : path ≠ []) :
  dotted ([] :: path) = period :: dotted path
  := by
  cases path with
  | nil => exact absurd rfl hpath
  | cons key path => simp [dotted, List.intercalate]

/-- A path whose name has no period in front has no empty key in front. -/
theorem head_ne_nil_of_dotted {path : List Text} (hne : dotted path ≠ [])
    (hperiod : (dotted path).head? ≠ some period) :
  path.head? ≠ some []
  := by
  intro hhead
  obtain ⟨rest, rfl⟩ := List.head?_eq_some_iff.mp hhead
  by_cases hrest : rest = []
  · apply hne
    rw [hrest]
    rfl
  · apply hperiod
    rw [dotted_nil_cons hrest]
    rfl

/-- A node at an accepted path without a period in front is handed to its variable. -/
theorem mem_taken {root : YamlNode} {path : List Text} {node : YamlNode} (hne : dotted path ≠ [])
    (hperiod : (dotted path).head? ≠ some period) (hnode : (path, node) ∈ paths root)
    (haccept : Accepted (dotted path)) :
  node ∈ taken root (dotted path)
  := by
  have hlisted := listed_eq_dotted (head_ne_nil_of_dotted hne hperiod)
  apply List.mem_map.mpr ⟨(path, node), List.mem_filter.mpr ⟨hnode, ?_⟩, rfl⟩
  simpa [hlisted, hne] using (accepted_dotted path).mp haccept

/-- A tree with a node under an empty key. -/
def underEmpty (key : Text) : YamlNode := .map [([], .map [(key, .scalar [])])]

/-- The node under the empty key is not handed to the variable of its path. -/
theorem taken_underEmpty (key : Text) :
  taken (underEmpty key) (period :: key) = []
  := by
  have hkey : listed [[], key] ≠ period :: key := by
    intro h
    have hlength := congrArg List.length h
    by_cases hnil : key = []
    · simp [listed, dotted, hnil] at h
    · simp [listed, dotted, hnil] at hlength
  have hempty : listed [[]] = [] := rfl
  have hroot : listed [] = [] := rfl
  simp [taken, underEmpty, paths, entryPaths, hkey, hempty, hroot]

/-- A name is treated as documented exactly if it has a character outside of the documented alphabet, or
neither a `9` nor a period in front. -/
theorem treated_iff [Inhabited τ] [Inhabited V] (c : Conversions τ V) (emit : YamlNode → Text)
    (name : Text) :
  Treated c emit name
    ↔ ¬ ((∀ b ∈ name, documented b = true) ∧ (nine ∈ name ∨ name.head? = some period))
  := by
  have hcheck : findFirstNotOf name lookupAlphabet = none ↔
      (∀ b ∈ name, documented b = true) ∧ nine ∉ name := by
    rw [findFirstNotOf_eq_none_iff]
    simp only [mem_lookupAlphabet_iff]
    constructor
    · intro h
      exact ⟨fun b hb => (h b hb).1, fun hb => (h nine hb).2 rfl⟩
    · rintro ⟨hdoc, hnine⟩ b hb
      exact ⟨hdoc b hb, ne_of_mem_of_not_mem hb hnine⟩
  constructor
  · rintro h ⟨hdoc, hbad⟩
    have hne : name ≠ [] := by
      rcases hbad with hnine | hperiod
      · apply List.ne_nil_of_mem hnine
      · rintro rfl
        cases hperiod
    have hempty := h hne empty ⟨[], rfl⟩ default default
    rw [if_pos (List.all_eq_true.mpr hdoc)] at hempty
    by_cases hnine : nine ∈ name
    · have hreject : findFirstNotOf name lookupAlphabet ≠ none := fun hnone => (hcheck.mp hnone).2 hnine
      rw [lookup_of_rejected hreject rfl] at hempty
      apply hempty.1 rfl
    · obtain ⟨rest, rfl⟩ := List.head?_eq_some_iff.mp (hbad.resolve_left hnine)
      obtain ⟨-, hsome, hload⟩ := hempty
      obtain ⟨var, hvar⟩ := Option.isSome_iff_exists.mp hsome
      have hnode : ([[], rest], YamlNode.scalar []) ∈ paths (underEmpty rest) := by
        simp [underEmpty, paths, entryPaths]
      have hdotted : dotted [[], rest] = period :: rest := by
        rw [dotted_nil_cons (by simp)]
        simp [dotted]
      obtain ⟨vals, hvals, hmem⟩ := hload _ _ _ (by simp) hnode hdotted
      rw [loadFromYaml_calls c emit _ _ hvar, taken_underEmpty] at hvals
      rw [← List.append_cancel_left hvals] at hmem
      cases hmem
  · intro h hne s hs type default_value
    split
    · rename_i hall
      have hdoc := List.all_eq_true.mp hall
      have hnine : nine ∉ name := fun hmem => h ⟨hdoc, Or.inl hmem⟩
      have hperiod : name.head? ≠ some period := fun hhead => h ⟨hdoc, Or.inr hhead⟩
      have haccept := hcheck.mpr ⟨hdoc, hnine⟩
      obtain ⟨hfound, hsome⟩ := lookup_of_accepted haccept s type default_value
      refine ⟨hfound, hsome, ?_⟩
      rintro root path node - hnode rfl
      obtain ⟨var, hvar⟩ := Option.isSome_iff_exists.mp hsome
      have hspec := loadFromYaml_calls c emit (lookup s (dotted path) type default_value).1 root hvar
      refine ⟨_, hspec, List.mem_map.mpr ⟨node, ?_, rfl⟩⟩
      apply mem_taken hne hperiod hnode
      apply (findFirstNotOf_eq_none_iff _ _).mp haccept
    · rename_i hdoc
      have hreject : findFirstNotOf name lookupAlphabet ≠ none := fun hnone =>
        hdoc (List.all_eq_true.mpr (hcheck.mp hnone).1)
      apply lookup_of_rejected hreject
      apply Option.not_isSome_iff_eq_none.mp
      intro hsome
      apply hreject (namesAccepted_of_reachable hs name hsome)

/-- The documented characters include `9`, and `Lookup` does not accept it. -/
theorem not_treated_nine :
  ¬ ∀ name, Treated (⟨fun _ _ => none, fun _ _ _ => true⟩ : Conversions Unit Unit) (fun _ => []) name
  := by
  intro h
  have hempty := h (ascii "http.port9") (by decide) empty ⟨[], rfl⟩ () ()
  rw [if_pos (by decide)] at hempty
  exact absurd hempty.1 (by decide)

end Alphabet

end Config

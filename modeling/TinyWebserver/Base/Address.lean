import TinyWebserver.Base.Bytes
import TinyWebserver.Lib.Ipv6

/-!
# Addresses

`IPv6Address.insert` of `src/base/address.cpp` writes an address and its port to a stream. The first run of
zero groups becomes `::`, on machines of both byte orders. `IPv6Address.insert_faithful`: what it writes
between the brackets is read as the same sixteen bytes.
-/

/-- The order in which a machine keeps the bytes of a number. -/
inductive ByteOrder where
  | little
  | big
deriving DecidableEq

/-- `byteswap` for types of two bytes. -/
def byteswap (value : UInt16) : UInt16 :=
  UInt16.ofNat (value.toNat / 256 + 256 * (value.toNat % 256))

/-- `byteswapOnLittleEndian`, as each of the two byte orders defines it. -/
def byteswapOnLittleEndian : ByteOrder → UInt16 → UInt16
  | .little, t => byteswap t
  | .big, t => t

/-- The `uint16_t` whose two bytes are in memory one behind the other. -/
def uint16At : ByteOrder → Byte → Byte → UInt16
  | .little, first, second => UInt16.ofNat (first.toNat + 256 * second.toNat)
  | .big, first, second => UInt16.ofNat (256 * first.toNat + second.toNat)

/-- An array of bytes as one of `uint16_t`. -/
def uint16s (order : ByteOrder) : List Byte → List UInt16
  | first :: second :: bytes => uint16At order first second :: uint16s order bytes
  | _ => []

/-- The base in which a stream writes integers. -/
inductive NumberBase where
  | dec
  | hex

/-- An output stream: what has been written, and the base for integers. -/
structure OStream where
  text : List Byte
  base : NumberBase

namespace OStream

/-- `os << "..."` -/
def put (os : OStream) (text : List Byte) : OStream := { os with text := os.text ++ text }

/-- `os << std::hex` and `os << std::dec` -/
def setBase (os : OStream) (base : NumberBase) : OStream := { os with base := base }

/-- `os << value` for an integer that is not negative. -/
def putNat (os : OStream) (value : ℕ) : OStream :=
  match os.base with
  | .dec => os.put (digitBytes value)
  | .hex => os.put (Digits.text 16 value)

end OStream

/-- What `IPv6Address` keeps in its `sockaddr_in6`: the port as it is in memory, and the sixteen bytes. -/
structure IPv6Address where
  sin6_port : UInt16
  s6_addr : List Byte
  length_addr : s6_addr.length = 16

namespace IPv6Address

/-- `IPv6Address(address, port)` -/
def ofBytes (order : ByteOrder) (address : { bytes : List Byte // bytes.length = 16 }) (port : UInt16) :
    IPv6Address where
  sin6_port := byteswapOnLittleEndian order port
  s6_addr := address.val
  length_addr := address.property

/-- One pass of the loop of `insert`, with the stream and `used_zeros`. -/
def insertGroup (order : ByteOrder) (addr : List UInt16) (state : OStream × Bool) (i : ℕ) :
    OStream × Bool :=
  let (os, used_zeros) := state
  if addr.getD i 0 = 0 ∧ used_zeros = false then
    (os, used_zeros)
  else
    let (os, used_zeros) :=
      if i ≠ 0 ∧ addr.getD (i - 1) 0 = 0 ∧ used_zeros = false then
        (os.put (ascii ":"), true)
      else
        (os, used_zeros)
    let os := if i ≠ 0 then os.put (ascii ":") else os
    let os := os.setBase .hex
    let os := os.putNat (byteswapOnLittleEndian order (addr.getD i 0)).toNat
    (os.setBase .dec, used_zeros)

/-- `insert` -/
def insert (order : ByteOrder) (a : IPv6Address) (os : OStream) : OStream :=
  let os := os.put (ascii "[")
  let addr := uint16s order a.s6_addr
  let (os, used_zeros) := (List.range 8).foldl (insertGroup order addr) (os, false)
  let os := if used_zeros = false ∧ addr.getD 7 0 = 0 then os.put (ascii "::") else os
  let os := os.put (ascii "]:")
  os.putNat (byteswapOnLittleEndian order a.sin6_port).toNat

/-- `toString` -/
def toString (order : ByteOrder) (a : IPv6Address) : List Byte :=
  (a.insert order ⟨[], .dec⟩).text

end IPv6Address

/-! ### Byte orders -/

theorem toNat_byteswap (v : UInt16) :
  (byteswap v).toNat = v.toNat / 256 + 256 * (v.toNat % 256)
  := by
  have hv := v.toNat_lt
  rw [byteswap, UInt16.toNat_ofNat']
  apply Nat.mod_eq_of_lt
  omega

theorem byteswap_byteswap (v : UInt16) :
  byteswap (byteswap v) = v
  := by
  have hv := v.toNat_lt
  have hdiv : (v.toNat / 256 + 256 * (v.toNat % 256)) / 256 = v.toNat % 256 := by omega
  have hmod : (v.toNat / 256 + 256 * (v.toNat % 256)) % 256 = v.toNat / 256 := by omega
  apply UInt16.toNat.inj
  rw [toNat_byteswap, toNat_byteswap, hdiv, hmod]
  omega

theorem byteswapOnLittleEndian_twice (order : ByteOrder) (v : UInt16) :
  byteswapOnLittleEndian order (byteswapOnLittleEndian order v) = v
  := by
  cases order with
  | little => apply byteswap_byteswap
  | big => rfl

theorem byteswapOnLittleEndian_eq_zero_iff (order : ByteOrder) (v : UInt16) :
  (byteswapOnLittleEndian order v).toNat = 0 ↔ v = 0
  := by
  rw [← UInt16.toNat_inj]
  cases order with
  | little =>
      rw [byteswapOnLittleEndian, toNat_byteswap, UInt16.toNat_zero]
      omega
  | big => rfl

/-- On both kinds of machines the swapped value has the bytes in network order. -/
theorem byteswapOnLittleEndian_uint16At (order : ByteOrder) (first second : Byte) :
  (byteswapOnLittleEndian order (uint16At order first second)).toNat = 256 * first.toNat + second.toNat
  := by
  have hfirst := first.toNat_lt
  have hsecond := second.toNat_lt
  cases order with
  | little =>
      have hlt : first.toNat + 256 * second.toNat < 2 ^ 16 := by omega
      rw [byteswapOnLittleEndian, toNat_byteswap, uint16At, UInt16.toNat_ofNat', Nat.mod_eq_of_lt hlt]
      omega
  | big =>
      rw [byteswapOnLittleEndian, uint16At, UInt16.toNat_ofNat']
      apply Nat.mod_eq_of_lt
      omega

/-! ### What is written -/

namespace IPv6Address

/-- The groups of the array, in network order. -/
def groupsOf (order : ByteOrder) (addr : List UInt16) : List ℕ :=
  addr.map fun h => (byteswapOnLittleEndian order h).toNat

theorem groupsOf_lt {order : ByteOrder} {addr : List UInt16} {g : ℕ} (h : g ∈ groupsOf order addr) :
  g < 65536
  := by
  obtain ⟨v, -, rfl⟩ := List.mem_map.mp h
  apply (byteswapOnLittleEndian order v).toNat_lt

theorem length_uint16s (order : ByteOrder) {k : ℕ} {bytes : List Byte} (h : bytes.length = 2 * k) :
  (uint16s order bytes).length = k
  := by
  induction k generalizing bytes with
  | zero =>
      obtain rfl := List.length_eq_zero_iff.mp h
      rfl
  | succ k ih => match bytes, h with
    | first :: second :: bytes, h =>
        rw [uint16s, List.length_cons, ih]
        simp only [List.length_cons] at h
        omega

/-- The groups have the bytes they come from. -/
theorem toBytes_groupsOf (order : ByteOrder) {k : ℕ} {bytes : List Byte} (h : bytes.length = 2 * k) :
  Ipv6.toBytes (groupsOf order (uint16s order bytes)) = bytes
  := by
  induction k generalizing bytes with
  | zero =>
      obtain rfl := List.length_eq_zero_iff.mp h
      rfl
  | succ k ih => match bytes, h with
    | first :: second :: bytes, h =>
        have hlength : bytes.length = 2 * k := by
          simp only [List.length_cons] at h
          omega
        have hrest := ih hlength
        have hfirst := first.toNat_lt
        have hsecond := second.toNat_lt
        have hhigh : (256 * first.toNat + second.toNat) / 256 = first.toNat := by omega
        have hlow : UInt8.ofNat (256 * first.toNat + second.toNat) = second := by
          apply UInt8.toNat.inj
          rw [UInt8.toNat_ofNat']
          omega
        rw [uint16s, groupsOf, List.map_cons, Ipv6.toBytes, List.flatMap_cons,
          byteswapOnLittleEndian_uint16At, hhigh, hlow, UInt8.ofNat_toNat]
        rw [groupsOf, Ipv6.toBytes] at hrest
        rw [hrest]
        rfl

/-- After the first `i` passes: the groups without the zeros at their end, or `::` for the first run of
zeros with at least one group behind it. -/
def Inserted (order : ByteOrder) (addr : List UInt16) (written : List Byte) (i : ℕ) (os : OStream) :
    Bool → Prop
  | false => os.base = .dec ∧ ∃ ls k,
      groupsOf order (addr.take i) = ls ++ List.replicate k 0 ∧ (∀ g ∈ ls, g ≠ 0) ∧
      os.text = written ++ Ipv6.joined ls
  | true => os.base = .dec ∧ ∃ ls k rs, 0 < k ∧ rs ≠ [] ∧
      groupsOf order (addr.take i) = ls ++ List.replicate k 0 ++ rs ∧
      os.text = written ++ (Ipv6.joined ls ++ 58 :: 58 :: Ipv6.joined rs)

theorem insertGroup_of_zero (order : ByteOrder) {addr : List UInt16} {i : ℕ} (h : addr.getD i 0 = 0)
    (os : OStream) :
  insertGroup order addr (os, false) i = (os, false)
  := by
  rw [insertGroup, if_pos ⟨h, rfl⟩]

/-- A pass that writes its group, behind `::`. -/
theorem insertGroup_of_run (order : ByteOrder) {addr : List UInt16} {i : ℕ} (h : addr.getD i 0 ≠ 0)
    (hi : i ≠ 0) (hprev : addr.getD (i - 1) 0 = 0) (os : OStream) :
  insertGroup order addr (os, false) i
    = (⟨os.text ++ (58 :: 58 :: Ipv6.groupText (byteswapOnLittleEndian order (addr.getD i 0)).toNat), .dec⟩,
      true)
  := by
  rw [insertGroup, if_neg (fun hskip => h hskip.1), if_pos ⟨hi, hprev, rfl⟩]
  simp [hi, OStream.put, OStream.setBase, OStream.putNat, Ipv6.groupText, ascii]

/-- A pass that writes its group, behind a colon if it is not the first. -/
theorem insertGroup_of_next (order : ByteOrder) {addr : List UInt16} {i : ℕ} {used_zeros : Bool}
    (h : addr.getD i 0 ≠ 0 ∨ used_zeros = true)
    (hprev : i ≠ 0 → addr.getD (i - 1) 0 ≠ 0 ∨ used_zeros = true) (os : OStream) :
  insertGroup order addr (os, used_zeros) i
    = (⟨os.text ++ ((if i = 0 then [] else [58]) ++
        Ipv6.groupText (byteswapOnLittleEndian order (addr.getD i 0)).toNat), .dec⟩, used_zeros)
  := by
  have hwrites : ¬ (addr.getD i 0 = 0 ∧ used_zeros = false) := by
    rintro ⟨hzero, rfl⟩
    rcases h with h | h
    · apply h hzero
    · cases h
  have hopens : ¬ (i ≠ 0 ∧ addr.getD (i - 1) 0 = 0 ∧ used_zeros = false) := by
    rintro ⟨hi, hzero, rfl⟩
    rcases hprev hi with h | h
    · apply h hzero
    · cases h
  rw [insertGroup, if_neg hwrites, if_neg hopens]
  rcases Nat.eq_zero_or_pos i with rfl | hi
  · simp [OStream.put, OStream.setBase, OStream.putNat, Ipv6.groupText]
  · simp [hi.ne', OStream.put, OStream.setBase, OStream.putNat, Ipv6.groupText, ascii]

/-- The groups up to the next one. -/
theorem groupsOf_take_succ (order : ByteOrder) {addr : List UInt16} {i : ℕ} (hi : i < addr.length) :
  groupsOf order (addr.take (i + 1))
    = groupsOf order (addr.take i) ++ [(byteswapOnLittleEndian order (addr.getD i 0)).toNat]
  := by
  rw [List.take_add_one, List.getD_eq_getElem?_getD, List.getElem?_eq_getElem hi, groupsOf,
    List.map_append]
  rfl

theorem ne_zero_of_groupsOf {order : ByteOrder} {addr : List UInt16} {i : ℕ}
    (h : groupsOf order (addr.take i) ≠ []) :
  i ≠ 0
  := by
  rintro rfl
  apply h rfl

/-- Where no `::` is written yet, the group in front is zero exactly if zeros have been left out. -/
theorem prev_eq_zero_iff {order : ByteOrder} {addr : List UInt16} {i : ℕ} (hi : i < addr.length)
    {ls : List ℕ} {k : ℕ} (hne : ∀ g ∈ ls, g ≠ 0)
    (h : groupsOf order (addr.take (i + 1)) = ls ++ List.replicate k 0) :
  addr.getD i 0 = 0 ↔ 0 < k
  := by
  rw [← byteswapOnLittleEndian_eq_zero_iff order]
  rw [groupsOf_take_succ order hi] at h
  cases k with
  | zero =>
      have hmem : (byteswapOnLittleEndian order (addr.getD i 0)).toNat ∈ ls := by
        rw [List.replicate_zero, List.append_nil] at h
        simp [← h]
      apply iff_of_false (hne _ hmem) (lt_irrefl 0)
  | succ k =>
      rw [List.replicate_succ', ← List.append_assoc] at h
      have hlast := (List.append_inj' h rfl).2
      apply iff_of_true (List.singleton_inj.mp hlast) (Nat.succ_pos k)

/-- A zero is left out, before any `::`. -/
theorem inserted_zero {order : ByteOrder} {addr : List UInt16} {written : List Byte} {i : ℕ}
    {os : OStream} (hi : i < addr.length) (h : Inserted order addr written i os false)
    (hzero : addr.getD i 0 = 0) :
  Inserted order addr written (i + 1) os false
  := by
  obtain ⟨hbase, ls, k, hgroups, hne, htext⟩ := h
  refine ⟨hbase, ls, k + 1, ?_, hne, htext⟩
  rw [groupsOf_take_succ order hi, hgroups, (byteswapOnLittleEndian_eq_zero_iff order _).mpr hzero,
    List.replicate_succ', List.append_assoc]

/-- The first group behind a run of zeros. -/
theorem inserted_run {order : ByteOrder} {addr : List UInt16} {written : List Byte} {i : ℕ}
    {os : OStream} (hi : i < addr.length) (h : Inserted order addr written i os false)
    (hi0 : i ≠ 0) (hprev : addr.getD (i - 1) 0 = 0) :
  Inserted order addr written (i + 1)
    ⟨os.text ++ (58 :: 58 :: Ipv6.groupText (byteswapOnLittleEndian order (addr.getD i 0)).toNat), .dec⟩
    true
  := by
  obtain ⟨hbase, ls, k, hgroups, hne, htext⟩ := h
  obtain ⟨j, rfl⟩ := Nat.exists_eq_succ_of_ne_zero hi0
  have hk : 0 < k := (prev_eq_zero_iff (by omega) hne hgroups).mp hprev
  refine ⟨rfl, ls, k, [(byteswapOnLittleEndian order (addr.getD (j + 1) 0)).toNat], hk, by simp, ?_, ?_⟩
  · rw [groupsOf_take_succ order hi, hgroups]
  · simp [htext, Ipv6.joined]

/-- A group that is not zero, behind others that are not. -/
theorem inserted_group {order : ByteOrder} {addr : List UInt16} {written : List Byte} {i : ℕ}
    {os : OStream} (hi : i < addr.length) (h : Inserted order addr written i os false)
    (hne0 : addr.getD i 0 ≠ 0) (hprev : i ≠ 0 → addr.getD (i - 1) 0 ≠ 0) :
  Inserted order addr written (i + 1)
    ⟨os.text ++ ((if i = 0 then [] else [58]) ++
      Ipv6.groupText (byteswapOnLittleEndian order (addr.getD i 0)).toNat), .dec⟩ false
  := by
  obtain ⟨hbase, ls, k, hgroups, hne, htext⟩ := h
  have hk : k = 0 := by
    cases i with
    | zero =>
        have hlength := congrArg List.length hgroups
        simp only [groupsOf, List.take_zero, List.map_nil, List.length_nil, List.length_append,
          List.length_replicate] at hlength
        omega
    | succ j =>
        have := mt (prev_eq_zero_iff (by omega) hne hgroups).mpr (hprev (by omega))
        omega
  rw [hk, List.replicate_zero, List.append_nil] at hgroups
  have hempty : i = 0 ↔ ls = [] := by
    rw [← List.length_eq_zero_iff, ← hgroups, groupsOf, List.length_map, List.length_take]
    omega
  refine ⟨rfl, ls ++ [(byteswapOnLittleEndian order (addr.getD i 0)).toNat], 0, ?_, ?_, ?_⟩
  · rw [groupsOf_take_succ order hi, hgroups, List.replicate_zero, List.append_nil]
  · intro g hg
    rcases List.mem_append.mp hg with hg | hg
    · apply hne g hg
    · rw [List.mem_singleton.mp hg, ne_eq, byteswapOnLittleEndian_eq_zero_iff]
      apply hne0
  · simp only [Ipv6.joined_append_singleton, htext, hempty, List.append_assoc]

/-- A group behind the `::`, which may be zero. -/
theorem inserted_behind {order : ByteOrder} {addr : List UInt16} {written : List Byte} {i : ℕ}
    {os : OStream} (hi : i < addr.length) (h : Inserted order addr written i os true) :
  Inserted order addr written (i + 1)
    ⟨os.text ++ ((if i = 0 then [] else [58]) ++
      Ipv6.groupText (byteswapOnLittleEndian order (addr.getD i 0)).toNat), .dec⟩ true
  := by
  obtain ⟨hbase, ls, k, rs, hk, hrs, hgroups, htext⟩ := h
  have hsome : groupsOf order (addr.take i) ≠ [] := by simp [hgroups, hrs]
  have hi0 := ne_zero_of_groupsOf hsome
  refine ⟨rfl, ls, k, rs ++ [(byteswapOnLittleEndian order (addr.getD i 0)).toNat], hk, by simp, ?_, ?_⟩
  · rw [groupsOf_take_succ order hi, hgroups, List.append_assoc]
  · simp [Ipv6.joined_append_singleton, htext, hi0, hrs]

/-- One pass. -/
theorem inserted_insertGroup {order : ByteOrder} {addr : List UInt16} {written : List Byte} {i : ℕ}
    {os : OStream} {used_zeros : Bool} (hi : i < addr.length)
    (h : Inserted order addr written i os used_zeros) :
  Inserted order addr written (i + 1) (insertGroup order addr (os, used_zeros) i).1
    (insertGroup order addr (os, used_zeros) i).2
  := by
  cases used_zeros with
  | false =>
      rcases eq_or_ne (addr.getD i 0) 0 with hzero | hzero
      · rw [insertGroup_of_zero order hzero]
        apply inserted_zero hi h hzero
      · by_cases hprev : i ≠ 0 ∧ addr.getD (i - 1) 0 = 0
        · rw [insertGroup_of_run order hzero hprev.1 hprev.2]
          apply inserted_run hi h hprev.1 hprev.2
        · rw [insertGroup_of_next order (Or.inl hzero) fun hi0 => Or.inl fun hz => hprev ⟨hi0, hz⟩]
          apply inserted_group hi h hzero fun hi0 hz => hprev ⟨hi0, hz⟩
  | true =>
      rw [insertGroup_of_next order (Or.inr rfl) fun _ => Or.inr rfl]
      apply inserted_behind hi h

/-- All passes up to one. -/
theorem inserted_foldl (order : ByteOrder) {addr : List UInt16} (os : OStream) (hbase : os.base = .dec)
    {i : ℕ} (hi : i ≤ addr.length) :
  Inserted order addr os.text i ((List.range i).foldl (insertGroup order addr) (os, false)).1
    ((List.range i).foldl (insertGroup order addr) (os, false)).2
  := by
  induction i with
  | zero => exact ⟨hbase, [], 0, by simp [groupsOf, Ipv6.joined]⟩
  | succ i ih =>
      rw [List.range_succ, List.foldl_append, List.foldl_cons, List.foldl_nil]
      apply inserted_insertGroup hi (ih (by omega))

/-- What stands between the brackets: all groups, or `::` for the first run of zeros. -/
theorem insert_text (order : ByteOrder) (a : IPv6Address) (os : OStream) (hbase : os.base = .dec) :
  ∃ text, (a.insert order os).text
      = os.text ++ ascii "[" ++ text ++ ascii "]:" ++
        digitBytes (byteswapOnLittleEndian order a.sin6_port).toNat ∧
    ((text = Ipv6.joined (groupsOf order (uint16s order a.s6_addr))) ∨
      ∃ ls k rs, 0 < k ∧ groupsOf order (uint16s order a.s6_addr) = ls ++ List.replicate k 0 ++ rs ∧
        text = Ipv6.joined ls ++ 58 :: 58 :: Ipv6.joined rs)
  := by
  have hlength : (uint16s order a.s6_addr).length = 8 := length_uint16s order a.length_addr
  have hloop := inserted_foldl order (os.put (ascii "[")) hbase hlength.ge
  rcases hfold : (List.range 8).foldl (insertGroup order (uint16s order a.s6_addr))
    (os.put (ascii "["), false) with ⟨os', used_zeros⟩
  simp only [hfold] at hloop
  have hall : (uint16s order a.s6_addr).take 8 = uint16s order a.s6_addr :=
    List.take_of_length_le hlength.le
  rw [insert]
  simp only [hfold]
  cases used_zeros with
  | false =>
      obtain ⟨hdec, ls, k, hgroups, hne, htext⟩ := hloop
      have hzero := prev_eq_zero_iff (by omega) hne hgroups
      rw [hall] at hgroups
      rcases Nat.eq_zero_or_pos k with rfl | hk
      · refine ⟨Ipv6.joined ls, ?_, Or.inl ?_⟩
        · rw [if_neg (by simp only [hzero]; simp)]
          simp [OStream.put, OStream.putNat, hdec, htext]
        · rw [hgroups, List.replicate_zero, List.append_nil]
      · refine ⟨Ipv6.joined ls ++ ascii "::", ?_, Or.inr ⟨ls, k, [], hk, ?_, rfl⟩⟩
        · rw [if_pos ⟨rfl, hzero.mpr hk⟩]
          simp [OStream.put, OStream.putNat, hdec, htext]
        · rw [hgroups, List.append_nil]
  | true =>
      obtain ⟨hdec, ls, k, rs, hk, -, hgroups, htext⟩ := hloop
      rw [hall] at hgroups
      refine ⟨Ipv6.joined ls ++ 58 :: 58 :: Ipv6.joined rs, ?_, Or.inr ⟨ls, k, rs, hk, hgroups, rfl⟩⟩
      simp [OStream.put, OStream.putNat, hdec, htext]

/-- What `insert` writes between the brackets is a text for the sixteen bytes of the address, with at most
one `::`, and the number behind it is the port. -/
theorem insert_faithful (order : ByteOrder) (address : { bytes : List Byte // bytes.length = 16 })
    (port : UInt16) (written : List Byte) :
  ∃ text, ((ofBytes order address port).insert order ⟨written, .dec⟩).text
      = written ++ ascii "[" ++ text ++ ascii "]:" ++ decimal port.toNat ∧
    93 ∉ text ∧ Ipv6.doubles text ≤ 1 ∧ Ipv6.parseBytes text = some address.val
  := by
  obtain ⟨text, htext, hform⟩ := insert_text order (ofBytes order address port) ⟨written, .dec⟩ rfl
  have hport : (byteswapOnLittleEndian order (ofBytes order address port).sin6_port) = port :=
    byteswapOnLittleEndian_twice order port
  have hlength : (uint16s order address.val).length = 8 := length_uint16s order address.property
  have hbytes : Ipv6.toBytes (groupsOf order (uint16s order address.val)) = address.val :=
    toBytes_groupsOf order (k := 8) address.property
  have hlt : ∀ g ∈ groupsOf order (uint16s order address.val), g < 65536 := fun _ => groupsOf_lt
  have hparse : Ipv6.parse text = some (groupsOf order (uint16s order address.val)) := by
    rcases hform with rfl | ⟨ls, k, rs, hk, hgroups, rfl⟩
    · apply Ipv6.parse_joined hlt
      rw [groupsOf, List.length_map]
      apply hlength
    · change groupsOf order (uint16s order address.val) = _ at hgroups
      have hcount := congrArg List.length hgroups
      rw [groupsOf, List.length_map] at hcount
      simp only [List.length_append, List.length_replicate] at hcount
      rw [hgroups] at hlt ⊢
      apply Ipv6.parse_compressed
      · intro g hg
        apply hlt g (by simp [hg])
      · intro g hg
        apply hlt g (by simp [hg])
      · apply hk
      · omega
  refine ⟨text, ?_, ?_, Ipv6.doubles_le_one hparse, ?_⟩
  · rw [htext, hport]
    congr 1
    apply (decimal_ofNat _).symm
  · intro hmem
    have hdigit : (93 : Byte) = 58 ∨ Ipv6.hexDigit 93 ≠ none := by
      rcases hform with rfl | ⟨ls, k, rs, -, -, rfl⟩
      · apply Ipv6.hexDigit_of_mem_joined hmem
      · simp only [List.mem_append, List.mem_cons] at hmem
        rcases hmem with h | h | h | h
        · apply Ipv6.hexDigit_of_mem_joined h
        · apply Or.inl h
        · apply Or.inl h
        · apply Ipv6.hexDigit_of_mem_joined h
    exact absurd hdigit (by decide)
  · rw [Ipv6.parseBytes, hparse, Option.map_some, hbytes]

example :
  (ofBytes .little ⟨[0x20, 0x01, 0x0d, 0xb8, 0, 0, 0, 0, 0, 1, 0, 0, 0, 0, 0, 0], rfl⟩ 80).toString .little
    = ascii "[2001:db8::1:0:0:0]:80"
  := by decide

end IPv6Address

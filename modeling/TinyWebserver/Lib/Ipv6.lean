import TinyWebserver.Lib.Digits
import TinyWebserver.Lib.Search
import TinyWebserver.Lib.Traversal

/-!
# Texts of IPv6 addresses

The preferred and the compressed form of RFC 4291: eight groups of one to four hexadecimal digits between
colons, where one `::` may stand for at least one group of zeros. `parse` reads such a text. The two ways
to write the groups are read back, `parse_joined` and `parse_compressed`, and a text that is read has at
most one `::`, `doubles_le_one`.
-/

namespace Ipv6

/-- The value of a hexadecimal digit. -/
def hexDigit (b : UInt8) : Option ℕ :=
  if 48 ≤ b ∧ b ≤ 57 then
    some (b.toNat - 48)
  else if 97 ≤ b ∧ b ≤ 102 then
    some (b.toNat - 87)
  else if 65 ≤ b ∧ b ≤ 70 then
    some (b.toNat - 55)
  else
    none

/-- A group has one to four digits. -/
def group (t : List UInt8) : Option ℕ :=
  if 1 ≤ t.length ∧ t.length ≤ 4 then Digits.number 16 hexDigit 0 t else none

/-- Groups with a colon between them. -/
def groups (t : List UInt8) : Option (List ℕ) :=
  if t = [] then some [] else (t.splitOn 58).mapM group

/-- What is in front of the first `::` and what is behind it. -/
def cut : List UInt8 → Option (List UInt8 × List UInt8)
  | [] => none
  | b :: t =>
      if b = 58 ∧ t.head? = some 58 then
        some ([], t.tail)
      else
        (cut t).map fun p => (b :: p.1, p.2)

/-- The groups of an address: eight of them, or at most seven around `::`. -/
def parse (t : List UInt8) : Option (List ℕ) :=
  match cut t with
  | none => (groups t).bind fun gs => if gs.length = 8 then some gs else none
  | some (l, r) =>
      (groups l).bind fun ls => (groups r).bind fun rs =>
        if ls.length + rs.length ≤ 7 then
          some (ls ++ List.replicate (8 - (ls.length + rs.length)) 0 ++ rs)
        else
          none

/-- The bytes of the groups, in network order. -/
def toBytes (gs : List ℕ) : List UInt8 :=
  gs.flatMap fun g => [UInt8.ofNat (g / 256), UInt8.ofNat g]

/-- The bytes of the address that a text stands for. -/
def parseBytes (t : List UInt8) : Option (List UInt8) := (parse t).map toBytes

/-- The number of places with two colons. -/
def doubles : List UInt8 → ℕ
  | [] => 0
  | b :: t => (if b = 58 ∧ t.head? = some 58 then 1 else 0) + doubles t

/-- The digits of a group without leading zeros. -/
def groupText (n : ℕ) : List UInt8 := Digits.text 16 n

/-- Groups with a colon between them, as text. -/
def joined (gs : List ℕ) : List UInt8 := [58].intercalate (gs.map groupText)

/-! ### One group -/

theorem hexDigit_knows :
  Digits.Knows 16 hexDigit
  := by decide

theorem hexDigit_colon :
  hexDigit 58 = none
  := by decide

theorem hexDigit_of_mem_groupText {n : ℕ} {b : UInt8} (h : b ∈ groupText n) :
  hexDigit b ≠ none
  := Digits.digit_of_mem_text (by decide) hexDigit_knows h

theorem colon_notMem_groupText (n : ℕ) :
  58 ∉ groupText n
  := by
  intro h
  apply hexDigit_of_mem_groupText h hexDigit_colon

theorem group_groupText {n : ℕ} (h : n < 65536) :
  group (groupText n) = some n
  := by
  have hpos : 1 ≤ (groupText n).length := List.length_pos_iff.mpr (Digits.text_ne_nil 16 n)
  have hlen : (groupText n).length ≤ 4 := by
    rw [groupText, Digits.text, List.length_map]
    apply (Nat.length_toDigits_le_iff (by norm_num) (by norm_num)).mpr h
  rw [group, if_pos ⟨hpos, hlen⟩]
  apply Digits.number_text (by decide) hexDigit_knows

/-- A group is a text that is not empty, without a colon. -/
theorem group_spec {t : List UInt8} {n : ℕ} (h : group t = some n) :
  t ≠ [] ∧ 58 ∉ t
  := by
  rw [group] at h
  split at h
  · rename_i hlen
    constructor
    · apply List.ne_nil_of_length_pos hlen.1
    · intro hmem
      apply Digits.digit_of_number h hmem hexDigit_colon
  · cases h

/-! ### Pairs of colons -/

theorem doubles_of_notMem {t : List UInt8} (h : 58 ∉ t) :
  doubles t = 0
  := by
  induction t with
  | nil => rfl
  | cons b t ih =>
      have hne : ¬ (b = 58 ∧ t.head? = some 58) := by
        rintro ⟨rfl, -⟩
        simp at h
      rw [doubles, if_neg hne, ih (List.not_mem_of_not_mem_cons h)]

/-- No pair of colons is split. -/
theorem doubles_append {l r : List UInt8} (h : l.getLast? ≠ some 58 ∨ r.head? ≠ some 58) :
  doubles (l ++ r) = doubles l + doubles r
  := by
  induction l with
  | nil => simp [doubles]
  | cons b l ih => cases l with
    | nil =>
        have hne : ¬ (b = 58 ∧ r.head? = some 58) := by
          rintro ⟨rfl, hr⟩
          simp [hr] at h
        simp [doubles, hne]
    | cons c l =>
        have hrest := ih (by simpa using h)
        simp only [List.cons_append] at hrest ⊢
        rw [doubles, hrest]
        simp [doubles, Nat.add_assoc]

/-- A text with neither a pair of colons nor a colon at one of its ends. -/
def Tidy (t : List UInt8) : Prop :=
  doubles t = 0 ∧ t.head? ≠ some 58 ∧ t.getLast? ≠ some 58

theorem tidy_of_notMem {t : List UInt8} (h : 58 ∉ t) :
  Tidy t
  := by
  refine ⟨doubles_of_notMem h, ?_, ?_⟩
  · intro hhead
    apply h (List.mem_of_head? hhead)
  · intro hlast
    apply h (List.mem_of_getLast? hlast)

theorem tidy_intercalate {ps : List (List UInt8)} (h : ∀ p ∈ ps, p ≠ [] ∧ 58 ∉ p) :
  Tidy ([58].intercalate ps)
  := by
  induction ps with
  | nil => simp [Tidy, doubles]
  | cons p ps ih =>
      have hp := h p List.mem_cons_self
      obtain ⟨hdp, hhp, hlp⟩ := tidy_of_notMem hp.2
      rcases eq_or_ne ps [] with rfl | hps
      · simpa using tidy_of_notMem hp.2
      · obtain ⟨hdr, hhr, hlr⟩ := ih fun q hq => h q (List.mem_cons_of_mem p hq)
        have hne : [58].intercalate ps ≠ [] := by
          obtain ⟨q, qs, rfl⟩ := List.exists_cons_of_ne_nil hps
          have hq := (h q (by simp)).1
          cases qs with
          | nil => simpa using hq
          | cons q' qs => simp [List.intercalate_cons_cons]
        rw [List.intercalate_cons_of_ne_nil hps, List.append_assoc]
        refine ⟨?_, ?_, ?_⟩
        · rw [doubles_append (Or.inl hlp), hdp, List.singleton_append, doubles, hdr]
          simp [hhr]
        · rw [List.head?_append_of_ne_nil p hp.1]
          apply hhp
        · rw [List.getLast?_append_of_ne_nil p (by simp), List.getLast?_append_of_ne_nil _ hne]
          apply hlr

theorem tidy_of_groups {t : List UInt8} {gs : List ℕ} (h : groups t = some gs) :
  Tidy t
  := by
  rw [groups] at h
  split at h
  · rename_i hnil
    simp [hnil, Tidy, doubles]
  · have htext : [58].intercalate (t.splitOn 58) = t := List.intercalate_splitOn 58
    rw [← htext]
    apply tidy_intercalate
    intro p hp
    obtain ⟨n, -, hn⟩ := (Traversal.mem_of_mapM_eq_some h).1 p hp
    apply group_spec hn

/-- The first pair of colons stands behind a text without one, if that does not end in a colon. -/
theorem cut_append {l : List UInt8} (hl : doubles l = 0) (hlast : l.getLast? ≠ some 58)
    (r : List UInt8) :
  cut (l ++ 58 :: 58 :: r) = some (l, r)
  := by
  induction l with
  | nil => simp [cut]
  | cons b l ih =>
      have hne : ¬ (b = 58 ∧ (l ++ 58 :: 58 :: r).head? = some 58) := by
        rintro ⟨rfl, hhead⟩
        cases l with
        | nil => simp at hlast
        | cons c l =>
            obtain rfl : c = 58 := by simpa using hhead
            simp [doubles] at hl
      have hdoubles : doubles l = 0 := by
        rw [doubles] at hl
        omega
      have hend : l.getLast? ≠ some 58 := by
        intro h
        apply hlast
        rw [List.getLast?_cons, h]
        rfl
      rw [List.cons_append, cut, if_neg hne, ih hdoubles hend]
      rfl

theorem cut_eq_none {t : List UInt8} (h : doubles t = 0) :
  cut t = none
  := by
  induction t with
  | nil => rfl
  | cons b t ih =>
      rw [doubles] at h
      have hne : ¬ (b = 58 ∧ t.head? = some 58) := by
        intro hpair
        rw [if_pos hpair] at h
        omega
      rw [cut, if_neg hne, ih (by omega)]
      rfl

theorem cut_eq_some {t l r : List UInt8} (h : cut t = some (l, r)) :
  t = l ++ 58 :: 58 :: r
  := by
  induction t generalizing l with
  | nil => cases h
  | cons b t ih =>
      rw [cut] at h
      split at h
      · rename_i hpair
        obtain ⟨rfl, rfl⟩ : [] = l ∧ t.tail = r := by simpa using h
        obtain ⟨t', rfl⟩ := List.head?_eq_some_iff.mp hpair.2
        simp [hpair.1]
      · obtain ⟨⟨l', r'⟩, hcut, heq⟩ := Option.map_eq_some_iff.mp h
        obtain ⟨rfl, rfl⟩ : b :: l' = l ∧ r' = r := by simpa using heq
        rw [ih hcut, List.cons_append]

/-! ### The two forms -/

theorem groups_joined {gs : List ℕ} (h : ∀ g ∈ gs, g < 65536) :
  groups (joined gs) = some gs
  := by
  have hmap : (gs.map groupText).mapM group = some gs := by
    induction gs with
    | nil => rfl
    | cons g gs ih =>
        rw [List.map_cons, List.mapM_cons, group_groupText (h g List.mem_cons_self),
          ih fun g' hg' => h g' (List.mem_cons_of_mem g hg')]
        rfl
  rcases eq_or_ne gs [] with rfl | hne
  · rfl
  · have hsplit : (joined gs).splitOn 58 = gs.map groupText := by
      apply List.splitOn_intercalate
      · intro l hl
        obtain ⟨n, -, rfl⟩ := List.mem_map.mp hl
        apply colon_notMem_groupText
      · simpa using hne
    have htext : joined gs ≠ [] := by
      intro hnil
      obtain ⟨g, gs, rfl⟩ := List.exists_cons_of_ne_nil hne
      rw [hnil, List.splitOn_nil, List.map_cons, List.cons.injEq] at hsplit
      apply Digits.text_ne_nil 16 g hsplit.1.symm
    rw [groups, if_neg htext, hsplit, hmap]

/-- Eight groups with a colon between them are read back. -/
theorem parse_joined {gs : List ℕ} (h : ∀ g ∈ gs, g < 65536) (hlen : gs.length = 8) :
  parse (joined gs) = some gs
  := by
  have hgroups := groups_joined h
  rw [parse, cut_eq_none (tidy_of_groups hgroups).1]
  simp [hgroups, hlen]

/-- At most seven groups around `::` are read with zeros in the middle. -/
theorem parse_compressed {ls rs : List ℕ} {k : ℕ} (hls : ∀ g ∈ ls, g < 65536)
    (hrs : ∀ g ∈ rs, g < 65536) (hk : 0 < k) (hlen : ls.length + k + rs.length = 8) :
  parse (joined ls ++ 58 :: 58 :: joined rs) = some (ls ++ List.replicate k 0 ++ rs)
  := by
  have hl := groups_joined hls
  have htidy := tidy_of_groups hl
  have hzeros : 8 - (ls.length + rs.length) = k := by omega
  rw [parse, cut_append htidy.1 htidy.2.2]
  simp only [hl, groups_joined hrs, Option.bind_some]
  rw [if_pos (by omega), hzeros]

/-- A text that is read has at most one `::`. -/
theorem doubles_le_one {t : List UInt8} {gs : List ℕ} (h : parse t = some gs) :
  doubles t ≤ 1
  := by
  rw [parse] at h
  split at h
  · obtain ⟨gs', hgs', -⟩ := Option.bind_eq_some_iff.mp h
    rw [(tidy_of_groups hgs').1]
    apply Nat.zero_le
  · rename_i l r hcut
    obtain ⟨ls, hls, hrest⟩ := Option.bind_eq_some_iff.mp h
    obtain ⟨rs, hrs, -⟩ := Option.bind_eq_some_iff.mp hrest
    obtain ⟨hl, -, hlast⟩ := tidy_of_groups hls
    obtain ⟨hr, hhead, -⟩ := tidy_of_groups hrs
    rw [cut_eq_some hcut, doubles_append (Or.inl hlast), hl]
    simp [doubles, hhead, hr]

/-- A text without a colon is not read. -/
theorem parse_eq_none_of_notMem {t : List UInt8} (h : 58 ∉ t) :
  parse t = none
  := by
  rw [parse, cut_eq_none (doubles_of_notMem h)]
  simp only [groups]
  split
  · rfl
  · rw [List.splitOn_eq_singleton h, Traversal.mapM_cons_eq]
    cases group t with
    | none => rfl
    | some g => rfl

/-- One more group behind those that are there. -/
theorem joined_append_singleton (gs : List ℕ) (g : ℕ) :
  joined (gs ++ [g]) = joined gs ++ (if gs = [] then [] else [58]) ++ groupText g
  := by
  rw [joined, List.map_append, List.map_singleton, Search.intercalate_append_singleton, joined]
  simp only [List.map_eq_nil_iff]

/-- A text of groups has only colons and digits. -/
theorem hexDigit_of_mem_joined {gs : List ℕ} {b : UInt8} (h : b ∈ joined gs) :
  b = 58 ∨ hexDigit b ≠ none
  := by
  induction gs using List.reverseRecOn with
  | nil => simp [joined] at h
  | append_singleton gs g ih =>
      rw [joined_append_singleton, List.mem_append, List.mem_append] at h
      rcases h with (h | h) | h
      · apply ih h
      · left
        split at h
        · cases h
        · simpa using h
      · apply Or.inr (hexDigit_of_mem_groupText h)

end Ipv6

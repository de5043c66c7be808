import TinyWebserver.Lib.Digits
import TinyWebserver.Lib.Traversal

/-!
# Texts of IPv4 addresses

The dotted decimal form: four numbers below 256, without leading zeros, with a dot between them. `parse`
reads such a text. It reads exactly the texts that `dotted` writes, `parse_eq_some_iff`.
-/

namespace Ipv4

/-- The value of a decimal digit. -/
def digit (b : UInt8) : Option ℕ :=
  if 48 ≤ b ∧ b ≤ 57 then some (b.toNat - 48) else none

/-- One of the four numbers. -/
def octet (t : List UInt8) : Option UInt8 :=
  if t = [] ∨ 1 < t.length ∧ t.head? = some 48 then
    none
  else
    (Digits.number 10 digit 0 t).bind fun n => if n < 256 then some (UInt8.ofNat n) else none

/-- The bytes of an address, in network order. -/
def parse (t : List UInt8) : Option (List UInt8) :=
  ((t.splitOn 46).mapM octet).bind fun bytes => if bytes.length = 4 then some bytes else none

/-- Bytes as numbers with a dot between them. -/
def dotted (bytes : List UInt8) : List UInt8 := [46].intercalate (bytes.map fun b => Digits.text 10 b.toNat)

/-! ### One number -/

theorem digit_knows :
  Digits.Knows 10 digit
  := by decide

/-- A digit is the one that is written for its value. -/
theorem digit_spec {b : UInt8} {d : ℕ} (h : digit b = some d) :
  d < 10 ∧ UInt8.ofNat d.digitChar.toNat = b
  := by
  have hall : ∀ d < 10, UInt8.ofNat d.digitChar.toNat = UInt8.ofNat (48 + d) := by decide
  rw [digit] at h
  split at h
  · rename_i hrange
    have hlow : 48 ≤ b.toNat := hrange.1
    have hhigh : b.toNat ≤ 57 := hrange.2
    obtain rfl := Option.some.inj h
    have hvalue : 48 + (b.toNat - 48) = b.toNat := by omega
    refine ⟨by omega, ?_⟩
    rw [hall _ (by omega), hvalue, UInt8.ofNat_toNat]
  · cases h

/-- Only zero begins with a zero. -/
theorem head_text {n : ℕ} (h : 0 < n) :
  (Digits.text 10 n).head? ≠ some 48
  := by
  induction n using Nat.strongRecOn with
  | ind n ih =>
      rcases Nat.lt_or_ge n 10 with hlt | hge
      · have hall : ∀ d < 10, 0 < d → UInt8.ofNat d.digitChar.toNat ≠ 48 := by decide
        rw [Digits.text_of_lt hlt]
        simpa using hall n hlt h
      · rw [Digits.text_of_le (by decide) hge, List.head?_append_of_ne_nil _ (Digits.text_ne_nil _ _)]
        apply ih (n / 10) (by omega) (by omega)

/-- Digits without a leading zero are those of the number they stand for. -/
theorem text_of_number {t : List UInt8} {n : ℕ} (h : Digits.number 10 digit 0 t = some n) (hne : t ≠ [])
    (hzero : ¬ (1 < t.length ∧ t.head? = some 48)) :
  Digits.text 10 n = t
  := by
  induction t using List.reverseRecOn generalizing n with
  | nil => exact absurd rfl hne
  | append_singleton s b ih =>
      rw [Digits.number_append] at h
      obtain ⟨m, hm, hlast⟩ := Option.bind_eq_some_iff.mp h
      obtain ⟨d, hd, hn⟩ := Option.bind_eq_some_iff.mp hlast
      obtain rfl : 10 * m + d = n := by simpa [Digits.number] using hn
      obtain ⟨hlt, hb⟩ := digit_spec hd
      rcases eq_or_ne s [] with rfl | hs
      · obtain rfl : 0 = m := by simpa [Digits.number] using hm
        rw [Nat.mul_zero, Nat.zero_add, Digits.text_of_lt hlt, hb, List.nil_append]
      · have hhead : s.head? ≠ some 48 := by
          intro hhead
          apply hzero
          rw [List.head?_append_of_ne_nil _ hs, List.length_append, List.length_singleton]
          exact ⟨Nat.lt_add_of_pos_left (List.length_pos_iff.mpr hs), hhead⟩
        have htext := ih hm hs fun hboth => hhead hboth.2
        have hpos : 0 < m := by
          rcases Nat.eq_zero_or_pos m with rfl | hpos
          · rw [← htext] at hhead
            exact absurd rfl hhead
          · apply hpos
        have hdiv : (10 * m + d) / 10 = m := by omega
        have hmod : (10 * m + d) % 10 = d := by omega
        rw [Digits.text_of_le (by decide) (by omega), hdiv, hmod, htext, hb]

theorem octet_text (b : UInt8) :
  octet (Digits.text 10 b.toNat) = some b
  := by
  have hlt := b.toNat_lt
  have hform : ¬ (Digits.text 10 b.toNat = [] ∨
      1 < (Digits.text 10 b.toNat).length ∧ (Digits.text 10 b.toNat).head? = some 48) := by
    rintro (hnil | ⟨hlength, hhead⟩)
    · apply Digits.text_ne_nil _ _ hnil
    · rcases Nat.eq_zero_or_pos b.toNat with hzero | hpos
      · rw [hzero] at hlength
        exact absurd hlength (by decide)
      · apply head_text hpos hhead
  rw [octet, if_neg hform, Digits.number_text (by decide) digit_knows, Option.bind_some, if_pos hlt, UInt8.ofNat_toNat]

theorem octet_eq_some {t : List UInt8} {b : UInt8} (h : octet t = some b) :
  Digits.text 10 b.toNat = t
  := by
  rw [octet] at h
  split at h
  · cases h
  · rename_i hform
    obtain ⟨n, hn, hbyte⟩ := Option.bind_eq_some_iff.mp h
    split at hbyte
    · rename_i hlt
      obtain rfl := Option.some.inj hbyte
      rw [UInt8.toNat_ofNat', Nat.mod_eq_of_lt hlt]
      apply text_of_number hn
      · intro hnil
        apply hform (Or.inl hnil)
      · intro hzero
        apply hform (Or.inr hzero)
    · cases hbyte

/-! ### Four numbers -/

theorem splitOn_dotted {bytes : List UInt8} (h : bytes ≠ []) :
  (dotted bytes).splitOn 46 = bytes.map fun b => Digits.text 10 b.toNat
  := by
  apply List.splitOn_intercalate
  · intro t ht hdot
    obtain ⟨b, -, rfl⟩ := List.mem_map.mp ht
    exact absurd (Digits.toNat_of_mem_text hdot) (by decide)
  · simpa using h

theorem mapM_octet (bytes : List UInt8) :
  (bytes.map fun b => Digits.text 10 b.toNat).mapM octet = some bytes
  := by
  induction bytes with
  | nil => rfl
  | cons b bytes ih => rw [List.map_cons, Traversal.mapM_cons_eq, octet_text, ih, Option.bind_some,
      Option.map_some]

/-- The texts that are read are those that are written. -/
theorem parse_eq_some_iff {t bytes : List UInt8} :
  parse t = some bytes ↔ bytes.length = 4 ∧ t = dotted bytes
  := by
  constructor
  · intro h
    obtain ⟨bytes', hbytes, hlength⟩ := Option.bind_eq_some_iff.mp h
    split at hlength
    · rename_i hfour
      obtain rfl := Option.some.inj hlength
      refine ⟨hfour, ?_⟩
      have htexts := Traversal.map_eq_of_mapM (g := fun b => Digits.text 10 b.toNat) (h := fun p => p)
        (fun _ _ => octet_eq_some) hbytes
      rw [dotted, htexts, List.map_id', List.intercalate_splitOn]
    · cases hlength
  · rintro ⟨hlength, rfl⟩
    have hne : bytes ≠ [] := by
      rintro rfl
      cases hlength
    rw [parse, splitOn_dotted hne, mapM_octet, Option.bind_some, if_pos hlength]

/-- A text of numbers has only digits and dots. -/
theorem mem_dotted {bytes : List UInt8} {c : UInt8} (h : c ∈ dotted bytes) :
  c = 46 ∨ 48 ≤ c.toNat ∧ c.toNat ≤ 57
  := by
  induction bytes with
  | nil => simp [dotted] at h
  | cons b bytes ih =>
      rcases eq_or_ne bytes [] with rfl | hne
      · apply Or.inr (Digits.toNat_of_mem_text (n := b.toNat) _)
        simpa [dotted] using h
      · have hne' : (bytes.map fun b => Digits.text 10 b.toNat) ≠ [] := by simpa using hne
        rw [dotted, List.map_cons, List.intercalate_cons_of_ne_nil hne', List.mem_append,
          List.mem_append] at h
        rcases h with (h | h) | h
        · apply Or.inr (Digits.toNat_of_mem_text h)
        · apply Or.inl (List.mem_singleton.mp h)
        · apply ih h

end Ipv4

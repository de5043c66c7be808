import Mathlib.Data.Nat.Digits.Lemmas
import Mathlib.Tactic

/-!
# Numbers as digits

Numbers as texts of bytes, in a base of at most sixteen. `text` writes the digits of a number, and `number`
reads digits one by one, with the value of each from a function `digit`, as the bases have different ones.
What is written is read back, `number_text`, where `digit` knows the digits that are written.
-/

namespace Digits

/-- The digits of a number, without leading zeros. -/
def text (base n : ℕ) : List UInt8 := (Nat.toDigits base n).map fun c => UInt8.ofNat c.toNat

/-- The number that digits stand for, behind those of `n`. -/
def number (base : ℕ) (digit : UInt8 → Option ℕ) (n : ℕ) : List UInt8 → Option ℕ
  | [] => some n
  | b :: bs => (digit b).bind fun d => number base digit (base * n + d) bs

/-- The function gives the value of each digit that is written in the base. -/
def Knows (base : ℕ) (digit : UInt8 → Option ℕ) : Prop :=
  ∀ d < base, digit (UInt8.ofNat d.digitChar.toNat) = some d

instance (base : ℕ) (digit : UInt8 → Option ℕ) : Decidable (Knows base digit) :=
  inferInstanceAs (Decidable (∀ d < base, _))

variable {base : ℕ} {digit : UInt8 → Option ℕ}

/-! ### Reading -/

theorem number_append (n : ℕ) (s t : List UInt8) :
  number base digit n (s ++ t) = (number base digit n s).bind fun m => number base digit m t
  := by
  induction s generalizing n with
  | nil => rfl
  | cons b s ih => cases h : digit b with
    | none => simp [number, h]
    | some d => simp [number, h, ih]

/-- All bytes of a number are digits. -/
theorem digit_of_number {n m : ℕ} {t : List UInt8} (h : number base digit n t = some m) {b : UInt8}
    (hb : b ∈ t) :
  digit b ≠ none
  := by
  induction t generalizing n with
  | nil => cases hb
  | cons c t ih =>
      obtain ⟨d, hd, hrest⟩ := Option.bind_eq_some_iff.mp h
      rcases List.mem_cons.mp hb with rfl | hb
      · simp [hd]
      · apply ih hrest hb

/-! ### Writing -/

theorem text_of_lt {d : ℕ} (h : d < base) :
  text base d = [UInt8.ofNat d.digitChar.toNat]
  := by
  rw [text, Nat.toDigits_of_lt_base h]
  rfl

theorem text_of_le {n : ℕ} (hbase : 1 < base) (h : base ≤ n) :
  text base n = text base (n / base) ++ [UInt8.ofNat (n % base).digitChar.toNat]
  := by
  rw [text, Nat.toDigits_of_base_le hbase h, List.map_append]
  rfl

theorem text_ne_nil (base n : ℕ) :
  text base n ≠ []
  := by
  simp [text, Nat.toDigits_ne_nil]

/-- What is written is read back. -/
theorem number_text (hbase : 1 < base) (hdigit : Knows base digit) (n : ℕ) :
  number base digit 0 (text base n) = some n
  := by
  induction n using Nat.strongRecOn with
  | ind n ih =>
      rcases Nat.lt_or_ge n base with h | h
      · simp [text_of_lt h, number, hdigit n h]
      · have hmod := hdigit (n % base) (Nat.mod_lt n (by omega))
        rw [text_of_le hbase h, number_append, ih (n / base) (Nat.div_lt_self (by omega) hbase)]
        simp only [Option.bind_some, number, hmod]
        rw [Nat.div_add_mod]

/-- All bytes that are written are digits. -/
theorem digit_of_mem_text (hbase : 1 < base) (hdigit : Knows base digit) {n : ℕ} {b : UInt8}
    (h : b ∈ text base n) :
  digit b ≠ none
  := digit_of_number (number_text hbase hdigit n) h

/-- In base ten the digits are those from `0` to `9`. -/
theorem toNat_of_mem_text {n : ℕ} {b : UInt8} (h : b ∈ text 10 n) :
  48 ≤ b.toNat ∧ b.toNat ≤ 57
  := by
  obtain ⟨c, hc, rfl⟩ := List.mem_map.mp h
  have hdigit := Nat.isDigit_of_mem_toDigits (by decide) (by decide) hc
  simp only [Char.isDigit, Bool.and_eq_true, decide_eq_true_eq] at hdigit
  have hlow : 48 ≤ c.toNat := hdigit.1
  have hhigh : c.toNat ≤ 57 := hdigit.2
  rw [UInt8.toNat_ofNat']
  omega

end Digits

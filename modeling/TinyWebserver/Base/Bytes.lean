import Mathlib.Tactic
import TinyWebserver.Lib.Digits

/-!
# Bytes

Strings of the source are lists of bytes. `ascii` gives the bytes of a literal, `decimal` those of a
number. `toInt` is the conversion of a length to `int`.
-/

/-- A byte of a stream, of a string or of the storage of a buffer. -/
abbrev Byte := UInt8

/-- The error number a failed system call leaves in `errno`. -/
abbrev Errno := ℕ

/-- All bytes are other than one that is not there. -/
theorem all_ne_of_notMem {b : Byte} {xs : List Byte} (h : b ∉ xs) :
  ∀ c ∈ xs, decide (c ≠ b) = true
  := by
  intro c hc
  apply decide_eq_true
  apply ne_of_mem_of_not_mem hc h

/-- The conversion of an unsigned value to `int`. -/
def toInt (n : ℕ) : ℤ := Int.bmod n (2 ^ 32)

theorem toInt_of_lt {n : ℕ} (h : n < 2 ^ 31) :
  toInt n = n
  := by
  apply Int.bmod_eq_of_le_mul_two
  · omega
  · norm_num
    omega

/-- The value as an `int`: the remainder, or a negative number if that is too large. -/
theorem toInt_eq (n : ℕ) :
  toInt n = if n % 2 ^ 32 < 2 ^ 31 then ((n % 2 ^ 32 : ℕ) : ℤ) else (n % 2 ^ 32 : ℕ) - 2 ^ 32
  := by
  have hdef : toInt n = if (n : ℤ) % (2 ^ 32 : ℕ) < ((2 ^ 32 : ℕ) + 1) / 2
      then (n : ℤ) % (2 ^ 32 : ℕ) else (n : ℤ) % (2 ^ 32 : ℕ) - (2 ^ 32 : ℕ) := Int.bmod_def _ _
  rw [hdef]
  split
  · rw [if_pos (by omega)]
    omega
  · rw [if_neg (by omega)]
    omega

/-- A length as an `int` is at most the length. -/
theorem toNat_toInt_le (n : ℕ) :
  (toInt n).toNat ≤ n
  := by
  rw [toInt_eq]
  split
  · omega
  · omega

/-- The bytes of a literal of ASCII characters. -/
def ascii (s : String) : List Byte := s.toList.map fun c => UInt8.ofNat c.toNat

/-- The decimal digits that `std::to_string` gives. -/
def decimal (n : ℤ) : List Byte := ascii (toString n)

/-- The digits of a natural number. -/
def digitBytes (n : ℕ) : List Byte := Digits.text 10 n

theorem decimal_ofNat (n : ℕ) :
  decimal (Int.ofNat n) = digitBytes n
  := by
  have hrepr : (toString (Int.ofNat n)).toList = Nat.toDigits 10 n := by
    change (Int.repr (Int.ofNat n)).toList = _
    rw [Int.repr, Nat.toList_repr]
  rw [decimal, ascii, hrepr, digitBytes, Digits.text]

theorem decimal_negSucc (n : ℕ) :
  decimal (Int.negSucc n) = 45 :: digitBytes (n + 1)
  := by
  have hrepr : (toString (Int.negSucc n)).toList = '-' :: Nat.toDigits 10 (n + 1) := by
    change (Int.repr (Int.negSucc n)).toList = _
    rw [Int.repr]
    simp
  rw [decimal, ascii, hrepr, digitBytes, Digits.text]
  rfl

theorem toNat_of_mem_digitBytes {n : ℕ} {b : Byte} (h : b ∈ digitBytes n) :
  48 ≤ b.toNat ∧ b.toNat ≤ 57
  := Digits.toNat_of_mem_text h

/-- A number is written with digits, and a sign in front of them. -/
theorem toNat_of_mem_decimal {z : ℤ} {b : Byte} (h : b ∈ decimal z) :
  b.toNat = 45 ∨ 48 ≤ b.toNat ∧ b.toNat ≤ 57
  := by
  cases z with
  | ofNat n =>
      rw [decimal_ofNat] at h
      exact Or.inr (toNat_of_mem_digitBytes h)
  | negSucc n =>
      rw [decimal_negSucc] at h
      rcases List.mem_cons.mp h with rfl | h
      · exact Or.inl rfl
      · exact Or.inr (toNat_of_mem_digitBytes h)

/-- The byte `'\r'`. -/
def cr : Byte := 13

/-- The byte `'\n'`. -/
def lf : Byte := 10

/-- The byte `' '`. -/
def space : Byte := 32

/-- The byte `':'`. -/
def colon : Byte := 58

/-- The end of a line. -/
def crlf : List Byte := [cr, lf]

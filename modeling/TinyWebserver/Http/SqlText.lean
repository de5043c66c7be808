import TinyWebserver.Base.Bytes
import TinyWebserver.Lib.Literals
import Mathlib.Data.List.TakeWhile

/-!
# The texts of the statements

The texts that `HttpRequest::UserVerify` of `http/httprequest.cpp` sends to the database. The name and the
password are printed between quotes as they are, into an array of 256 bytes. `orders_keep_iff` says when the
database reads the statement that was meant: both values stand for themselves between quotes and the
texts fit into the array.
-/

namespace UserVerify

open Literals

/-- The bytes of a string as `%s` prints it, up to the first zero byte. -/
def cStr (s : List Byte) : List Byte := s.takeWhile (· ≠ 0)

/-- What `snprintf` leaves in an array of `size` bytes, without the zero byte behind it. -/
def snprintf (size : ℕ) (text : List Byte) : List Byte := text.take (size - 1)

/-- The `SELECT` as `order`. -/
def selectOrder (name : List Byte) : List Byte :=
  snprintf 256
    (ascii "SELECT username, password FROM user WHERE username='" ++ cStr name ++ ascii "' LIMIT 1")

/-- The `INSERT` as `order`. -/
def insertOrder (name pwd : List Byte) : List Byte :=
  snprintf 256
    (ascii "INSERT INTO user(username, password) VALUES('" ++ cStr name ++ ascii "','" ++ cStr pwd ++
      ascii "')")

/-! ### How the database reads them -/

/-- The byte that a backslash in front of it makes of a byte. -/
def control (c : Byte) : Byte :=
  if c = 48 then 0
  else if c = 98 then 8
  else if c = 110 then 10
  else if c = 114 then 13
  else if c = 116 then 9
  else if c = 90 then 26
  else c

/-- A backslash in front of `%` or `_` stays. -/
def unescape (c : Byte) : List Byte := if c = 37 ∨ c = 95 then [92, c] else [control c]

/-- Literals of MySQL between single quotes. -/
def mysql : Rules Byte where
  quote := 39
  escape := 92
  unescape := unescape
  escape_ne := by decide
  unescape_cases := by
    intro c
    unfold unescape
    split
    · rename_i hc
      right
      refine ⟨rfl, ?_⟩
      rcases hc with rfl | rfl <;> decide
    · left
      simp

/-- The tokens of the `SELECT` that is meant. -/
def selectTokens (name : List Byte) : List (Token Byte) :=
  (ascii "SELECT username, password FROM user WHERE username=").map .code ++
    .literal name :: (ascii " LIMIT 1").map .code

/-- The tokens of the `INSERT` that is meant. -/
def insertTokens (name pwd : List Byte) : List (Token Byte) :=
  (ascii "INSERT INTO user(username, password) VALUES(").map .code ++
    .literal name :: .code 44 :: .literal pwd :: [.code 41]

/-- A text that fits into the array is not cut. -/
theorem snprintf_of_le {size : ℕ} {text : List Byte} (h : text.length ≤ size - 1) :
  snprintf size text = text
  := List.take_of_length_le h

theorem cStr_of_notMem {s : List Byte} (h : 0 ∉ s) :
  cStr s = s
  := List.takeWhile_eq_self_iff.mpr (all_ne_of_notMem h)

/-- The first part of a text, up to its first quote, and a literal behind it. -/
theorem tokens_order_iff {front cs rest : List Byte} {ts : List (Token Byte)}
    (hfront : mysql.quote ∉ front) (hrest : rest.head? ≠ some mysql.quote)
    (hweight : rest.length = weight ts) (size : ℕ) :
  tokens mysql .outside (snprintf size (front ++ mysql.quote :: (cs ++ mysql.quote :: rest)))
      = front.map .code ++ .literal cs :: ts ↔
    Verbatim mysql cs ∧ tokens mysql .outside rest = ts ∧
      front.length + cs.length + rest.length + 2 ≤ size - 1
  := by
  have hlength : (front ++ mysql.quote :: (cs ++ mysql.quote :: rest)).length
      = front.length + cs.length + rest.length + 2 := by
    simp only [List.length_append, List.length_cons]
    omega
  have hread : tokens mysql .outside (front ++ mysql.quote :: (cs ++ mysql.quote :: rest))
      = front.map .code ++ tokens mysql (.inside []) (cs ++ mysql.quote :: rest) := by
    rw [tokens_code hfront, tokens, if_pos rfl]
  constructor
  · intro h
    have hle := length_le_of_tokens_take h (by
      simp only [hlength, weight_append, weight_map_code, weight_cons, Token.weight, ← hweight]
      omega)
    rw [snprintf_of_le hle, hread] at h
    obtain ⟨hverbatim, hts⟩ := (tokens_literal_iff hrest hweight.le).mp (List.append_cancel_left h)
    exact ⟨hverbatim, hts, hlength ▸ hle⟩
  · rintro ⟨hverbatim, hts, hle⟩
    rw [snprintf_of_le (hlength ▸ hle), hread,
      (tokens_literal_iff hrest hweight.le).mpr ⟨hverbatim, hts⟩]

variable {name pwd : List Byte}

/-- The database reads the `SELECT` that is meant exactly if the name stands for itself and fits. -/
theorem selectOrder_iff (hname : 0 ∉ name) :
  tokens mysql .outside (selectOrder name) = selectTokens name ↔
    Verbatim mysql name ∧ name.length ≤ 194
  := by
  have htext : ascii "SELECT username, password FROM user WHERE username='" ++ name ++
        ascii "' LIMIT 1"
      = ascii "SELECT username, password FROM user WHERE username=" ++
        mysql.quote :: (name ++ mysql.quote :: ascii " LIMIT 1") := by
    have hfront : ascii "SELECT username, password FROM user WHERE username='"
      = ascii "SELECT username, password FROM user WHERE username=" ++ [mysql.quote] := by decide
    have hback : ascii "' LIMIT 1" = mysql.quote :: ascii " LIMIT 1" := by decide
    rw [hfront, hback, List.append_assoc, List.append_assoc]
    rfl
  have hback : tokens mysql .outside (ascii " LIMIT 1") = (ascii " LIMIT 1").map .code := by
    decide
  rw [selectOrder, cStr_of_notMem hname, htext, selectTokens,
    tokens_order_iff (by decide) (by decide) (weight_map_code _).symm]
  have hlens : (ascii "SELECT username, password FROM user WHERE username=").length = 51 ∧
      (ascii " LIMIT 1").length = 8 := by decide
  rw [hlens.1, hlens.2]
  constructor
  · rintro ⟨hverbatim, -, hle⟩
    exact ⟨hverbatim, by omega⟩
  · rintro ⟨hverbatim, hle⟩
    exact ⟨hverbatim, hback, by omega⟩

/-- The database reads the `INSERT` that is meant exactly if both values stand for themselves and fit. -/
theorem insertOrder_iff (hname : 0 ∉ name) (hpwd : 0 ∉ pwd) :
  tokens mysql .outside (insertOrder name pwd) = insertTokens name pwd ↔
    Verbatim mysql name ∧ Verbatim mysql pwd ∧ name.length + pwd.length ≤ 205
  := by
  have htext : ascii "INSERT INTO user(username, password) VALUES('" ++ name ++ ascii "','" ++ pwd ++
        ascii "')"
      = ascii "INSERT INTO user(username, password) VALUES(" ++
        mysql.quote :: (name ++ mysql.quote :: ([44] ++ mysql.quote :: (pwd ++ mysql.quote :: [41]))) := by
    have hfront : ascii "INSERT INTO user(username, password) VALUES('"
      = ascii "INSERT INTO user(username, password) VALUES(" ++ [mysql.quote] := by decide
    have hmiddle : ascii "','" = [mysql.quote, 44, mysql.quote] := by decide
    have hback : ascii "')" = [mysql.quote, 41] := by decide
    rw [hfront, hmiddle, hback, List.append_assoc, List.append_assoc, List.append_assoc,
      List.append_assoc]
    rfl
  have hlen : (ascii "INSERT INTO user(username, password) VALUES(").length = 44 := by decide
  have hsecond : tokens mysql .outside ([44] ++ mysql.quote :: (pwd ++ mysql.quote :: [41]))
      = .code 44 :: .literal pwd :: [.code 41] ↔ Verbatim mysql pwd := by
    have hread : tokens mysql .outside ([44] ++ mysql.quote :: (pwd ++ mysql.quote :: [41]))
        = .code 44 :: tokens mysql (.inside []) (pwd ++ mysql.quote :: [41]) := rfl
    have hback : tokens mysql .outside [41] = [.code 41] := rfl
    rw [hread, List.cons_eq_cons, tokens_literal_iff (by decide) (by decide)]
    simp [hback]
  have hweight : ([44] ++ mysql.quote :: (pwd ++ mysql.quote :: [41])).length
      = weight (.code 44 :: .literal pwd :: [Token.code (41 : Byte)]) := by
    simp [Token.weight]
    omega
  rw [insertOrder, cStr_of_notMem hname, cStr_of_notMem hpwd, htext, insertTokens,
    tokens_order_iff (by decide) (by simp [mysql]) hweight, hsecond, hlen]
  simp only [List.length_append, List.length_cons, List.length_nil]
  refine and_congr_right fun _ => and_congr_right fun _ => ?_
  omega

/-- The database reads both statements as they are meant exactly if the name and the password have no quote
and no backslash but in front of `%` or `_`, and both texts fit into the array. -/
theorem orders_keep_iff (hname : 0 ∉ name) (hpwd : 0 ∉ pwd) :
  (tokens mysql .outside (selectOrder name) = selectTokens name ∧
    tokens mysql .outside (insertOrder name pwd) = insertTokens name pwd) ↔
    Verbatim mysql name ∧ Verbatim mysql pwd ∧ name.length ≤ 194 ∧ name.length + pwd.length ≤ 205
  := by
  rw [selectOrder_iff hname, insertOrder_iff hname hpwd]
  tauto

/-- A name with a quote makes another statement. -/
theorem quote_in_name :
  0 ∉ ascii "a' OR '1'='1" ∧ 0 ∉ ascii "b" ∧
    ¬ (tokens mysql .outside (selectOrder (ascii "a' OR '1'='1"))
        = selectTokens (ascii "a' OR '1'='1") ∧
      tokens mysql .outside (insertOrder (ascii "a' OR '1'='1") (ascii "b"))
        = insertTokens (ascii "a' OR '1'='1") (ascii "b"))
  := by
  decide +kernel

/-- A plain name and a plain password are read as they are. -/
theorem orders_keep_plain :
  tokens mysql .outside (selectOrder (ascii "zch")) = selectTokens (ascii "zch") ∧
    tokens mysql .outside (insertOrder (ascii "zch") (ascii "50%_"))
      = insertTokens (ascii "zch") (ascii "50%_")
  := by
  apply (orders_keep_iff (by decide) (by decide)).mpr
  decide

end UserVerify

import TinyWebserver.Http.Forms

/-!
# Forms and their encoding

The encoding `application/x-www-form-urlencoded` of a list of pairs, and what the decoder makes of
it. The decoder does not undo the percent encoding: it leaves the `%` and writes two decimal digits
behind it, so an escaped byte becomes three bytes. Different strings are still mangled differently,
and `getPost_encoded` says for which pairs the values come back.
-/

namespace HttpRequest

/-! ### Encoded pairs -/

/-- The letters, the digits and `-_.*`, which are encoded as themselves. -/
def isUnreserved (b : Byte) : Bool :=
  (65 ≤ b ∧ b ≤ 90) ∨ (97 ≤ b ∧ b ≤ 122) ∨ (48 ≤ b ∧ b ≤ 57) ∨ b = 45 ∨ b = 95 ∨ b = 46 ∨ b = 42

/-- The hexadecimal digits, upper case and lower case, of value `n`. -/
def hexDigits (n : ℕ) : List Byte :=
  if n < 10 then [UInt8.ofNat (48 + n)] else [UInt8.ofNat (55 + n), UInt8.ofNat (87 + n)]

/-- The encodings of a byte. -/
inductive EncodesByte : Byte → List Byte → Prop where
  | plus : EncodesByte space [43]
  | unreserved {b : Byte} (h : isUnreserved b = true) : EncodesByte b [b]
  | escape {b high low : Byte} (h : isUnreserved b = false) (hspace : b ≠ space)
      (hhigh : high ∈ hexDigits (b.toNat / 16)) (hlow : low ∈ hexDigits (b.toNat % 16)) :
      EncodesByte b [37, high, low]

/-- The encodings of a string. -/
inductive Encodes : List Byte → List Byte → Prop where
  | nil : Encodes [] []
  | cons {b : Byte} {bs xs ys : List Byte} (hb : EncodesByte b xs) (h : Encodes bs ys) :
      Encodes (b :: bs) (xs ++ ys)

/-- The encodings of a pair. -/
def EncodesPair (p : List Byte × List Byte) (seg : List Byte) : Prop :=
  ∃ k v, Encodes p.1 k ∧ Encodes p.2 v ∧ seg = k ++ 61 :: v

/-- The encodings of a list of pairs. -/
def EncodesForm (pairs : List (List Byte × List Byte)) (body : List Byte) : Prop :=
  ∃ segs, List.Forall₂ EncodesPair pairs segs ∧ body = List.intercalate [38] segs

/-- The strings that the decoder gives back: unreserved bytes and spaces. -/
def Plain (xs : List Byte) : Prop := ∀ b ∈ xs, isUnreserved b = true ∨ b = space

/-- The value that `ConverHex` gives for a digit of value `n`. -/
def hexValue (n : ℕ) : ℕ := if n < 10 then n + 48 else n

theorem converHex_of_mem_hexDigits {n : ℕ} {c : Byte} (hn : n < 16) (h : c ∈ hexDigits n) :
  converHex c = hexValue n
  := by
  have hall : ∀ n < 16, ∀ c ∈ hexDigits n, converHex c = hexValue n := by decide +kernel
  apply hall n hn c h

/-- The number the decoder computes for the digits of a byte. -/
def escapeNumber (b : Byte) : ℕ := hexValue (b.toNat / 16) * 16 + hexValue (b.toNat % 16)

theorem escapeNumber_lt (b : Byte) :
  escapeNumber b < 1000
  := by
  have hb := b.toNat_lt
  simp only [escapeNumber, hexValue]
  split_ifs <;> omega

theorem escapeNumber_injective {b c : Byte} (h : escapeNumber b = escapeNumber c) :
  b = c
  := by
  have hb := b.toNat_lt
  have hc := c.toNat_lt
  apply UInt8.toNat_inj.mp
  simp only [escapeNumber, hexValue] at h
  split_ifs at h <;> omega

/-- What the decoder makes of the encoding of a byte. -/
def mangleByte (b : Byte) : List Byte :=
  if isUnreserved b ∨ b = space then [b]
  else [37, UInt8.ofNat (escapeNumber b / 10 + 48), UInt8.ofNat (escapeNumber b % 10 + 48)]

/-- What the decoder makes of the encoding of a string. -/
def mangle (xs : List Byte) : List Byte := xs.flatMap mangleByte

theorem toByte_natCast (n : ℕ) :
  toByte n = UInt8.ofNat n
  := by
  apply UInt8.toNat_inj.mp
  have hmod : ((n : ℤ) % 256).toNat = n % 256 := by omega
  simp [toByte, hmod]

theorem escapeDigits_eq {b high low : Byte} (hhigh : high ∈ hexDigits (b.toNat / 16))
    (hlow : low ∈ hexDigits (b.toNat % 16)) :
  escapeDigits high low =
    [UInt8.ofNat (escapeNumber b / 10 + 48), UInt8.ofNat (escapeNumber b % 10 + 48)]
  := by
  have hb := b.toNat_lt
  have hnum : converHex high * 16 + converHex low = (escapeNumber b : ℤ) := by
    rw [converHex_of_mem_hexDigits (by omega) hhigh, converHex_of_mem_hexDigits (by omega) hlow]
    simp [escapeNumber]
  rw [escapeDigits, hnum]
  simp only [← toByte_natCast]
  congr 2

theorem decodes_byte {b : Byte} {xs : List Byte} (h : EncodesByte b xs) :
  Decodes xs (mangleByte b)
  := by
  intro f rest
  cases h with
  | plus =>
      rw [List.singleton_append, formBytes_plus]
      simp [mangleByte]
  | unreserved h =>
      have hne : ∀ c : Byte, isUnreserved c = false → b ≠ c := by
        rintro c hc rfl
        simp [hc] at h
      rw [List.singleton_append, formBytes_other f rest (hne 61 (by decide)) (hne 43 (by decide))
        (hne 37 (by decide)) (hne 38 (by decide))]
      simp [mangleByte, h]
  | escape h hspace hhigh hlow =>
      rw [List.cons_append, List.cons_append, List.singleton_append, formBytes_percent,
        escapeDigits_eq hhigh hlow]
      simp [mangleByte, h, hspace]

/-- The decoder mangles encoded strings. -/
theorem decodes_encoded {xs ys : List Byte} (h : Encodes xs ys) :
  Decodes ys (mangle xs)
  := by
  induction h with
  | nil => apply Decodes.nil
  | cons hb _ ih =>
      rw [mangle, List.flatMap_cons]
      apply (decodes_byte hb).append ih

/-! ### Mangled strings -/

theorem mangleByte_of_plain {b : Byte} (h : isUnreserved b = true ∨ b = space) :
  mangleByte b = [b]
  := by
  rw [mangleByte, if_pos h]

theorem mangleByte_of_not_plain {b : Byte} (h : ¬ (isUnreserved b = true ∨ b = space)) :
  mangleByte b
    = [37, UInt8.ofNat (escapeNumber b / 10 + 48), UInt8.ofNat (escapeNumber b % 10 + 48)]
  := by
  rw [mangleByte, if_neg h]

theorem mangle_cons (b : Byte) (xs : List Byte) :
  mangle (b :: xs) = mangleByte b ++ mangle xs
  := by
  rw [mangle, List.flatMap_cons, mangle]

theorem mangle_of_plain {xs : List Byte} (h : Plain xs) :
  mangle xs = xs
  := by
  induction xs with
  | nil => rfl
  | cons b xs ih =>
      rw [mangle_cons, mangleByte_of_plain (h b List.mem_cons_self),
        ih fun c hc => h c (List.mem_cons_of_mem b hc)]
      rfl

theorem length_le_mangle (xs : List Byte) :
  xs.length ≤ (mangle xs).length
  := by
  induction xs with
  | nil => rfl
  | cons b xs ih =>
      rw [mangle_cons, List.length_append, List.length_cons, mangleByte]
      split
      · simp only [List.length_cons, List.length_nil]
        omega
      · simp only [List.length_cons, List.length_nil]
        omega

/-- A string with an escaped byte gets longer. -/
theorem length_lt_mangle {xs : List Byte} (h : ¬ Plain xs) :
  xs.length < (mangle xs).length
  := by
  induction xs with
  | nil => exact absurd (by simp [Plain]) h
  | cons b xs ih =>
      have hle := length_le_mangle xs
      rw [mangle_cons, List.length_append, List.length_cons]
      by_cases hb : isUnreserved b = true ∨ b = space
      · have hrest : ¬ Plain xs := by
          intro hplain
          apply h
          intro c hc
          rcases List.mem_cons.mp hc with rfl | hc
          · apply hb
          · apply hplain c hc
        have hlt := ih hrest
        rw [mangleByte_of_plain hb]
        simp only [List.length_cons, List.length_nil]
        omega
      · rw [mangleByte_of_not_plain hb]
        simp only [List.length_cons, List.length_nil]
        omega

theorem ofNat_inj_of_lt {m n : ℕ} (hm : m < 256) (hn : n < 256)
    (h : UInt8.ofNat m = UInt8.ofNat n) :
  m = n
  := by
  have hnat := congrArg UInt8.toNat h
  rw [UInt8.toNat_ofNat', UInt8.toNat_ofNat'] at hnat
  omega

/-- What is made of the encoding of a byte, in front of other bytes, tells the byte. -/
theorem mangleByte_append_inj {b c : Byte} {xs ys : List Byte}
    (h : mangleByte b ++ xs = mangleByte c ++ ys) :
  b = c ∧ xs = ys
  := by
  have hpercent : ∀ {d : Byte}, isUnreserved d = true ∨ d = space → d ≠ 37 := by
    rintro d hd rfl
    revert hd
    decide
  by_cases hb : isUnreserved b = true ∨ b = space
  · by_cases hc : isUnreserved c = true ∨ c = space
    · rw [mangleByte_of_plain hb, mangleByte_of_plain hc] at h
      simpa using h
    · rw [mangleByte_of_plain hb, mangleByte_of_not_plain hc] at h
      exact absurd (List.cons.inj h).1 (hpercent hb)
  · by_cases hc : isUnreserved c = true ∨ c = space
    · rw [mangleByte_of_not_plain hb, mangleByte_of_plain hc] at h
      exact absurd (List.cons.inj h).1.symm (hpercent hc)
    · rw [mangleByte_of_not_plain hb, mangleByte_of_not_plain hc] at h
      simp only [List.cons_append, List.nil_append, List.cons.injEq, true_and] at h
      obtain ⟨htens, hunits, hrest⟩ := h
      have hltb := escapeNumber_lt b
      have hltc := escapeNumber_lt c
      have htens := ofNat_inj_of_lt (by omega) (by omega) htens
      have hunits := ofNat_inj_of_lt (by omega) (by omega) hunits
      exact ⟨escapeNumber_injective (by omega), hrest⟩

theorem mangleByte_ne_nil (b : Byte) :
  mangleByte b ≠ []
  := by
  rw [mangleByte]
  split
  · simp
  · simp

/-- Different strings are mangled differently. -/
theorem mangle_injective :
  Function.Injective mangle
  := by
  intro xs
  induction xs with
  | nil =>
      intro ys h
      cases ys with
      | nil => rfl
      | cons c ys =>
          rw [mangle_cons] at h
          simpa [mangle, mangleByte_ne_nil] using h.symm
  | cons b xs ih =>
      intro ys h
      cases ys with
      | nil =>
          rw [mangle_cons] at h
          simp [mangle, mangleByte_ne_nil] at h
      | cons c ys =>
          rw [mangle_cons, mangle_cons] at h
          obtain ⟨rfl, hrest⟩ := mangleByte_append_inj h
          rw [ih hrest]

/-! ### Decoding and encoding -/

theorem storeAll_cons (post : StringMap) (p : List Byte × List Byte)
    (pairs : List (List Byte × List Byte)) :
  storeAll post (p :: pairs) = storeAll (post.set p.1 p.2) pairs
  := by
  rfl

theorem storeAll_of_notMem {post : StringMap} {pairs : List (List Byte × List Byte)}
    {k : List Byte} (h : k ∉ pairs.map Prod.fst) :
  storeAll post pairs k = post k
  := by
  induction pairs generalizing post with
  | nil => rfl
  | cons p pairs ih =>
      rw [List.map_cons, List.mem_cons, not_or] at h
      rw [storeAll_cons, ih h.2, StringMap.set, Function.update_of_ne h.1]

theorem storeAll_of_mem (post : StringMap) {pairs : List (List Byte × List Byte)}
    (hkeys : (pairs.map Prod.fst).Nodup) {p : List Byte × List Byte} (h : p ∈ pairs) :
  storeAll post pairs p.1 = some p.2
  := by
  induction pairs generalizing post with
  | nil => cases h
  | cons q pairs ih =>
      rw [List.map_cons, List.nodup_cons] at hkeys
      rw [storeAll_cons]
      rcases List.mem_cons.mp h with rfl | h
      · rw [storeAll_of_notMem hkeys.1, StringMap.set, Function.update_self]
      · apply ih _ hkeys.2 h

/-- What the decoder makes of the encoding of a pair. -/
def manglePair (p : List Byte × List Byte) : List Byte × List Byte := (mangle p.1, mangle p.2)

theorem nodup_mangled {pairs : List (List Byte × List Byte)}
    (hkeys : (pairs.map Prod.fst).Nodup) :
  ((pairs.map manglePair).map Prod.fst).Nodup
  := by
  have hmap : (pairs.map manglePair).map Prod.fst = (pairs.map Prod.fst).map mangle := by
    simp [manglePair]
  rw [hmap]
  apply hkeys.map mangle_injective

variable {pairs : List (List Byte × List Byte)}

/-- What is read under the key `k` in the mangled form: the value of a pair whose mangled key is
`k`, and the empty string if there is no such pair. -/
theorem storeAll_mangled_eq_iff (hkeys : (pairs.map Prod.fst).Nodup) (k : List Byte)
    {v : List Byte} (hv : v ≠ []) :
  (storeAll .empty (pairs.map manglePair) k).getD [] = v ↔
    ∃ p ∈ pairs, k = mangle p.1 ∧ v = mangle p.2
  := by
  constructor
  · intro h
    by_cases hk : k ∈ (pairs.map manglePair).map Prod.fst
    · obtain ⟨_, hq, rfl⟩ := List.mem_map.mp hk
      rw [storeAll_of_mem _ (nodup_mangled hkeys) hq, Option.getD_some] at h
      obtain ⟨p, hp, rfl⟩ := List.mem_map.mp hq
      exact ⟨p, hp, rfl, h.symm⟩
    · rw [storeAll_of_notMem hk] at h
      exact absurd h.symm hv
  · rintro ⟨p, hp, rfl, rfl⟩
    have hmem : manglePair p ∈ pairs.map manglePair := List.mem_map_of_mem hp
    have hread := storeAll_of_mem .empty (nodup_mangled hkeys) hmem
    rw [manglePair] at hread
    rw [hread, Option.getD_some]

/-- In a mangled form that gives the values back, a key whose value is not empty is plain: else
it is the mangled form of a shorter key of the list. -/
theorem plain_key_of_recovered (hkeys : (pairs.map Prod.fst).Nodup)
    (h : ∀ p ∈ pairs, (storeAll .empty (pairs.map manglePair) p.1).getD [] = p.2) (n : ℕ) :
  ∀ p ∈ pairs, p.1.length = n → p.2 ≠ [] → Plain p.1
  := by
  induction n using Nat.strong_induction_on with
  | h n ih =>
      intro p hp hn hv
      obtain ⟨q, hq, hkey, hvalue⟩ := (storeAll_mangled_eq_iff hkeys p.1 hv).mp (h p hp)
      have hqv : q.2 ≠ [] := by
        intro hnil
        rw [hnil] at hvalue
        apply hv hvalue
      by_cases hplain : Plain q.1
      · rw [hkey, mangle_of_plain hplain]
        apply hplain
      · have hlt := length_lt_mangle hplain
        rw [← hkey, hn] at hlt
        exact absurd (ih q.1.length hlt q hq rfl hqv) hplain

/-- Two pairs with the same key are the same. -/
theorem eq_of_key_eq (hkeys : (pairs.map Prod.fst).Nodup) {p q : List Byte × List Byte}
    (hp : p ∈ pairs) (hq : q ∈ pairs) (h : p.1 = q.1) :
  p = q
  := by
  apply List.inj_on_of_nodup_map hkeys hp hq h

/-- The mangled form gives the values back exactly if all pairs whose value is not empty are
plain. -/
theorem recovered_iff (hkeys : (pairs.map Prod.fst).Nodup) :
  (∀ p ∈ pairs, (storeAll .empty (pairs.map manglePair) p.1).getD [] = p.2) ↔
    ∀ p ∈ pairs, p.2 = [] ∨ Plain p.1 ∧ Plain p.2
  := by
  constructor
  · intro h p hp
    by_cases hv : p.2 = []
    · exact Or.inl hv
    · have hkey := plain_key_of_recovered hkeys h _ p hp rfl hv
      obtain ⟨q, hq, hkeyq, hvalue⟩ := (storeAll_mangled_eq_iff hkeys p.1 hv).mp (h p hp)
      have hpq : p = q := by
        apply eq_of_key_eq hkeys hp hq
        apply mangle_injective
        rw [mangle_of_plain hkey, ← hkeyq]
      refine Or.inr ⟨hkey, ?_⟩
      by_contra hplain
      have hlt := length_lt_mangle hplain
      rw [hpq, ← hvalue, hpq] at hlt
      apply lt_irrefl _ hlt
  · intro h p hp
    by_cases hv : p.2 = []
    · rw [hv]
      by_contra hne
      obtain ⟨q, hq, hkey, hvalue⟩ := (storeAll_mangled_eq_iff hkeys p.1 hne).mp rfl
      rcases h q hq with hnil | ⟨hplain, -⟩
      · rw [hnil] at hvalue
        apply hne hvalue
      · rw [mangle_of_plain hplain] at hkey
        rw [eq_of_key_eq hkeys hp hq hkey] at hv
        rw [hv] at hvalue
        apply hne hvalue
    · rcases h p hp with hnil | ⟨hkey, hvalue⟩
      · exact absurd hnil hv
      · apply (storeAll_mangled_eq_iff hkeys p.1 hv).mpr
        exact ⟨p, hp, (mangle_of_plain hkey).symm, (mangle_of_plain hvalue).symm⟩

/-- With a new key, storing the last value only if it is not empty reads as storing it. -/
theorem finish_getD {f : Fields} (hnew : f.post f.key = none) (x : List Byte) :
  (f.finish x).getD [] = (f.post.set f.key f.value x).getD []
  := by
  rw [Fields.finish]
  split
  · rfl
  · rename_i h
    have hnil : f.value = [] := by simpa [hnew] using h
    by_cases hx : x = f.key
    · rw [hx, hnew, StringMap.set, Function.update_self, hnil]
      rfl
    · rw [StringMap.set, Function.update_of_ne hx]

theorem getPost_eq {r : HttpRequest} {key : List Byte} (h : key ≠ []) :
  r.getPost key = some ((r.post key).getD [])
  := by
  rw [getPost, if_neg h]
  cases r.post key with
  | none => rfl
  | some v => rfl

theorem decodesPair_encoded {p : List Byte × List Byte} {seg : List Byte} (h : EncodesPair p seg) :
  DecodesPair (manglePair p) seg
  := by
  obtain ⟨k, v, hk, hv, rfl⟩ := h
  exact ⟨k, v, decodes_encoded hk, decodes_encoded hv, rfl⟩

/-- The decoder, on a form that is not too long, stores the mangled pairs. -/
theorem parseFromUrlencoded_encoded {r : HttpRequest} (hkeys : (pairs.map Prod.fst).Nodup)
    (h : EncodesForm pairs r.body) (hpost : r.post = .empty) (hlen : r.body.length < 2 ^ 31) :
  ∃ r', parseFromUrlencoded r = some r' ∧
    ∀ x, (r'.post x).getD [] = (storeAll .empty (pairs.map manglePair) x).getD []
  := by
  obtain ⟨segs, hsegs, hbody⟩ := h
  rcases List.eq_nil_or_concat pairs with rfl | ⟨init, last, rfl⟩
  · cases hsegs
    refine ⟨r, ?_, fun x => by rw [hpost]; rfl⟩
    rw [parseFromUrlencoded, if_pos (by simp [hbody])]
  · rw [List.concat_eq_append] at hkeys hsegs ⊢
    have hpairs : List.Forall₂ DecodesPair (init.map manglePair ++ [manglePair last]) segs := by
      rw [← List.map_singleton, ← List.map_append, List.forall₂_map_left_iff]
      apply hsegs.imp fun p seg => decodesPair_encoded
    have hjoin := parseFromUrlencoded_join hpairs hbody hlen
    rw [hpost] at hjoin
    obtain ⟨r', hr', hpost'⟩ := Option.map_eq_some_iff.mp hjoin
    have hnodup := nodup_mangled hkeys
    have hnew : storeAll .empty (init.map manglePair) (manglePair last).1 = none := by
      apply storeAll_of_notMem
      simp only [List.map_append, List.map_singleton] at hnodup
      intro hmem
      apply List.disjoint_of_nodup_append hnodup hmem
      simp
    refine ⟨r', hr', fun x => ?_⟩
    rw [hpost', finish_getD hnew, List.map_append, List.map_singleton, storeAll_concat]

/-- After the decoder `GetPost` gives the value of every pair. -/
def RecoversPairs (r : HttpRequest) (pairs : List (List Byte × List Byte)) : Prop :=
  ∃ r', parseFromUrlencoded r = some r' ∧ ∀ p ∈ pairs, r'.getPost p.1 = some p.2

/-- The values of the pairs are empty, or the form is not too long and the pairs with a value are
made of letters, digits, `-_.*` and spaces. -/
def PlainPairs (pairs : List (List Byte × List Byte)) (body : List Byte) : Prop :=
  body.length < 2 ^ 32 ∧
    ∀ p ∈ pairs, p.2 = [] ∨ body.length < 2 ^ 31 ∧ Plain p.1 ∧ Plain p.2

/-- What the decoder stores, as far as `GetPost` can tell. -/
theorem recoversPairs_iff_of_reads {r r' : HttpRequest} {m : StringMap}
    (hne : ∀ p ∈ pairs, p.1 ≠ []) (hr' : parseFromUrlencoded r = some r')
    (hreads : ∀ x, (r'.post x).getD [] = (m x).getD []) :
  RecoversPairs r pairs ↔ ∀ p ∈ pairs, (m p.1).getD [] = p.2
  := by
  constructor
  · rintro ⟨r'', hr'', hget⟩ p hp
    rw [hr'] at hr''
    cases hr''
    have hp' := hget p hp
    rw [getPost_eq (hne p hp), hreads] at hp'
    apply Option.some.inj hp'
  · intro hget
    refine ⟨r', hr', fun p hp => ?_⟩
    rw [getPost_eq (hne p hp), hreads, hget p hp]

/-- When the pairs of an encoded form of less than 4 GiB come back. -/
theorem recoversPairs_iff {r : HttpRequest} (hne : ∀ p ∈ pairs, p.1 ≠ [])
    (hkeys : (pairs.map Prod.fst).Nodup) (h : EncodesForm pairs r.body) (hpost : r.post = .empty)
    (hlen : r.body.length < 2 ^ 32) :
  RecoversPairs r pairs ↔ PlainPairs pairs r.body
  := by
  simp only [PlainPairs, hlen, true_and]
  by_cases hshort : r.body.length < 2 ^ 31
  · obtain ⟨r', hr', hreads⟩ := parseFromUrlencoded_encoded hkeys h hpost hshort
    simp only [hshort, true_and]
    rw [recoversPairs_iff_of_reads hne hr' hreads, recovered_iff hkeys]
  · have hr' := parseFromUrlencoded_of_negative (r := r) (by omega) hlen
    simp only [hshort, false_and, or_false]
    rw [recoversPairs_iff_of_reads hne hr' fun x => rfl, hpost]
    simp only [StringMap.empty, Option.getD_none, eq_comm]

/-- The pairs of an encoded form come back if they are plain, and for bodies of less than 4 GiB
only then. -/
theorem getPost_encoded {r : HttpRequest} (hne : ∀ p ∈ pairs, p.1 ≠ [])
    (hkeys : (pairs.map Prod.fst).Nodup) (h : EncodesForm pairs r.body) (hpost : r.post = .empty) :
  (PlainPairs pairs r.body → RecoversPairs r pairs) ∧
    (r.body.length < 2 ^ 32 → RecoversPairs r pairs → PlainPairs pairs r.body)
  := by
  constructor
  · intro hplain
    apply (recoversPairs_iff hne hkeys h hpost hplain.1).mpr hplain
  · intro hlen hrecovers
    apply (recoversPairs_iff hne hkeys h hpost hlen).mp hrecovers

/-- The encoding of an unreserved string is the string. -/
theorem encodes_self {xs : List Byte} (h : ∀ b ∈ xs, isUnreserved b = true) :
  Encodes xs xs
  := by
  induction xs with
  | nil => exact .nil
  | cons b xs ih =>
      exact .cons (.unreserved (h b List.mem_cons_self))
        (ih fun c hc => h c (List.mem_cons_of_mem b hc))

/-- The name `ann` and the password `p w`, encoded. -/
theorem encodesForm_plain :
  EncodesForm [(ascii "username", ascii "ann"), (ascii "password", ascii "p w")]
    (ascii "username=ann&password=p+w")
  := by
  have hvalue : Encodes (ascii "p w") (ascii "p+w") :=
    .cons (.unreserved (by decide)) (.cons .plus (.cons (.unreserved (by decide)) .nil))
  refine ⟨[ascii "username=ann", ascii "password=p+w"], ?_, by decide⟩
  refine .cons ⟨ascii "username", ascii "ann", ?_, ?_, by decide⟩
    (.cons ⟨ascii "password", ascii "p+w", ?_, hvalue, by decide⟩ .nil)
  · apply encodes_self (by decide +kernel)
  · apply encodes_self (by decide +kernel)
  · apply encodes_self (by decide +kernel)

/-- The name `ann` and the password `p@w`, encoded. -/
theorem encodesForm_escaped :
  EncodesForm [(ascii "username", ascii "ann"), (ascii "password", ascii "p@w")]
    (ascii "username=ann&password=p%40w")
  := by
  have hat : EncodesByte 64 [37, 52, 48] :=
    .escape (by decide) (by decide) (by decide) (by decide)
  have hvalue : Encodes (ascii "p@w") (ascii "p%40w") :=
    .cons (.unreserved (by decide)) (.cons hat (.cons (.unreserved (by decide)) .nil))
  refine ⟨[ascii "username=ann", ascii "password=p%40w"], ?_, by decide⟩
  refine .cons ⟨ascii "username", ascii "ann", ?_, ?_, by decide⟩
    (.cons ⟨ascii "password", ascii "p%40w", ?_, hvalue, by decide⟩ .nil)
  · apply encodes_self (by decide +kernel)
  · apply encodes_self (by decide +kernel)
  · apply encodes_self (by decide +kernel)

/-- The password `p@w` does not come back. -/
theorem escaped_not_recovered :
  EncodesForm [(ascii "username", ascii "ann"), (ascii "password", ascii "p@w")]
      (ascii "username=ann&password=p%40w") ∧
    ¬ RecoversPairs { init with body := ascii "username=ann&password=p%40w" }
      [(ascii "username", ascii "ann"), (ascii "password", ascii "p@w")]
  := by
  refine ⟨encodesForm_escaped, ?_⟩
  rintro ⟨r', hr', hget⟩
  have hpwd : (parseFromUrlencoded { init with body := ascii "username=ann&password=p%40w" }).bind
      (fun r => r.getPost (ascii "password")) ≠ some (ascii "p@w") := by decide
  apply hpwd
  rw [hr', Option.bind_some]
  apply hget (ascii "password", ascii "p@w")
  simp

/-- A name and a password of letters and spaces come back. -/
theorem plain_recovered :
  RecoversPairs { init with body := ascii "username=ann&password=p+w" }
    [(ascii "username", ascii "ann"), (ascii "password", ascii "p w")]
  := by
  apply (getPost_encoded (by decide) (by decide) encodesForm_plain rfl).1
  refine ⟨by decide, ?_⟩
  simp only [Plain]
  decide +kernel

end HttpRequest

import TinyWebserver.Base.Address
import TinyWebserver.Base.Lookup
import TinyWebserver.Lib.Ipv4

/-!
# Addresses and their texts

The rest of the classes of `base/address.cpp` for IP addresses: `IPv4Address`, the creation of an address
from a `sockaddr` or from a text, and the search for an address by its text. `inet_pton` and `getaddrinfo`
are parameters, with what is documented of them as assumptions. `create_toString` says which texts
`IPv4Address::Create` takes and that the address is written as the text it comes from.
`lookupAnyIPAddress_toString`: an address that is written is found again, with its port, if the family that
is asked for admits it, for addresses of both families and on machines of both byte orders.
-/

/-- `byteswap` for types of four bytes. -/
def byteswap32 (value : UInt32) : UInt32 :=
  UInt32.ofNat (value.toNat / 2 ^ 24 + 2 ^ 8 * (value.toNat / 2 ^ 16 % 2 ^ 8) +
    2 ^ 16 * (value.toNat / 2 ^ 8 % 2 ^ 8) + 2 ^ 24 * (value.toNat % 2 ^ 8))

/-- `byteswapOnLittleEndian` for types of four bytes. -/
def byteswapOnLittleEndian32 : ByteOrder → UInt32 → UInt32
  | .little, t => byteswap32 t
  | .big, t => t

/-- The `uint32_t` whose bytes are in memory one behind the other. -/
def uint32At : ByteOrder → List Byte → UInt32
  | .little, bytes => UInt32.ofNat (Nat.ofDigits 256 (bytes.map UInt8.toNat))
  | .big, bytes => UInt32.ofNat (Nat.ofDigits 256 (bytes.reverse.map UInt8.toNat))

/-- What `IPv4Address` keeps in its `sockaddr_in`: the port and the address as they are in memory. -/
structure IPv4Address where
  sin_port : UInt16
  s_addr : UInt32
deriving DecidableEq

namespace IPv4Address

/-- `IPv4Address(address, port)`, for an address in the order of the machine. -/
def ofNumber (order : ByteOrder) (address : UInt32) (port : UInt16) : IPv4Address where
  sin_port := byteswapOnLittleEndian order port
  s_addr := byteswapOnLittleEndian32 order address

/-- `Create(address, port)`, where `inet_pton` gives the bytes that it writes for `AF_INET`. -/
def create (inet_pton : List Byte → Option (List Byte)) (order : ByteOrder) (address : List Byte)
    (port : UInt16) : Option IPv4Address :=
  let rt := ofNumber order 0 0
  let rt := { rt with sin_port := byteswapOnLittleEndian order port }
  match inet_pton address with
  | some sin_addr => some { rt with s_addr := uint32At order sin_addr }
  | none => none

/-- `insert` -/
def insert (order : ByteOrder) (a : IPv4Address) (os : OStream) : OStream :=
  let addr := byteswapOnLittleEndian32 order a.s_addr
  let os := (os.putNat ((addr >>> 24) &&& 0xff).toNat).put (ascii ".")
  let os := (os.putNat ((addr >>> 16) &&& 0xff).toNat).put (ascii ".")
  let os := (os.putNat ((addr >>> 8) &&& 0xff).toNat).put (ascii ".")
  let os := os.putNat (addr &&& 0xff).toNat
  let os := os.put (ascii ":")
  os.putNat (byteswapOnLittleEndian order a.sin_port).toNat

/-- `toString` -/
def toString (order : ByteOrder) (a : IPv4Address) : List Byte :=
  (a.insert order ⟨[], .dec⟩).text

end IPv4Address

/-- The family that stands for all of them. -/
def afUnspec : ℤ := 0

/-- `AF_INET` -/
def afInet : ℤ := 2

/-- `AF_INET6` -/
def afInet6 : ℤ := 10

/-- A `sockaddr`, by its `sa_family`, which is neither of the first two in the last case. -/
inductive SockAddr where
  | inet (addr : IPv4Address)
  | inet6 (addr : IPv6Address)
  | other (sa_family : ℕ)

/-- An object of the class `Address`, by the class it has been made as. -/
inductive Address where
  | ipv4 (addr : IPv4Address)
  | ipv6 (addr : IPv6Address)
  | unknown (sa_family : ℕ)

/-- The hints that `Lookup` passes on. -/
structure Hints where
  ai_family : ℤ
  ai_socktype : ℤ
  ai_protocol : ℤ

/-- `getaddrinfo`: nothing is an error. -/
abbrev GetAddrInfo := Lookup.Request → Hints → Option (List (Option SockAddr))

namespace Address

/-- `Create(addr, addrlen)`, where nothing is a null pointer. -/
def create : Option SockAddr → Option Address
  | none => none
  | some (.inet addr) => some (.ipv4 addr)
  | some (.inet6 addr) => some (.ipv6 addr)
  | some (.other sa_family) => some (.unknown sa_family)

/-- `getFamily` -/
def getFamily : Address → ℤ
  | ipv4 _ => afInet
  | ipv6 _ => afInet6
  | unknown sa_family => sa_family

/-- `toString`, with `insert` of each class. -/
def toString (order : ByteOrder) : Address → List Byte
  | ipv4 addr => addr.toString order
  | ipv6 addr => addr.toString order
  | unknown sa_family => ascii "[UnknownAddress family=" ++ digitBytes sa_family ++ ascii "]"

/-- `std::dynamic_pointer_cast<IPAddress>` -/
def toIPAddress : Option Address → Option Address
  | some (ipv4 addr) => some (ipv4 addr)
  | some (ipv6 addr) => some (ipv6 addr)
  | _ => none

variable (getaddrinfo : GetAddrInfo)

/-- `Lookup`, with the vector `result` behind it. -/
def lookup (result : List (Option Address)) (host : List Byte) (family type protocol : ℤ) :
    Bool × List (Option Address) :=
  match getaddrinfo (Lookup.request host) ⟨family, type, protocol⟩ with
  | none => (false, result)
  | some results =>
      let result := result ++ results.map create
      (!result.isEmpty, result)

/-- `LookupAnyIPAddress` -/
def lookupAnyIPAddress (host : List Byte) (family type protocol : ℤ) : Option Address :=
  let (found, result) := lookup getaddrinfo [] host family type protocol
  if found then result.findSome? toIPAddress else none

end Address

/-! ### Byte orders -/

theorem toNat_uint32At_little (b₀ b₁ b₂ b₃ : Byte) :
  (uint32At .little [b₀, b₁, b₂, b₃]).toNat
    = b₀.toNat + 2 ^ 8 * b₁.toNat + 2 ^ 16 * b₂.toNat + 2 ^ 24 * b₃.toNat
  := by
  have h₀ := b₀.toNat_lt
  have h₁ := b₁.toNat_lt
  have h₂ := b₂.toNat_lt
  have h₃ := b₃.toNat_lt
  simp only [uint32At, List.map_cons, List.map_nil, Nat.ofDigits_cons, Nat.ofDigits_nil, UInt32.toNat_ofNat']
  omega

theorem toNat_uint32At_big {b₀ b₁ b₂ b₃ : Byte} :
  (uint32At .big [b₀, b₁, b₂, b₃]).toNat
    = b₃.toNat + 2 ^ 8 * b₂.toNat + 2 ^ 16 * b₁.toNat + 2 ^ 24 * b₀.toNat
  := toNat_uint32At_little b₃ b₂ b₁ b₀

theorem toNat_byteswap32 (v : UInt32) :
  (byteswap32 v).toNat = v.toNat / 2 ^ 24 + 2 ^ 8 * (v.toNat / 2 ^ 16 % 2 ^ 8) +
    2 ^ 16 * (v.toNat / 2 ^ 8 % 2 ^ 8) + 2 ^ 24 * (v.toNat % 2 ^ 8)
  := by
  have hv := v.toNat_lt
  rw [byteswap32, UInt32.toNat_ofNat']
  omega

/-- On both kinds of machines the swapped value has the bytes in network order. -/
theorem byteswapOnLittleEndian32_uint32At (order : ByteOrder) (b₀ b₁ b₂ b₃ : Byte) :
  byteswapOnLittleEndian32 order (uint32At order [b₀, b₁, b₂, b₃]) = uint32At .big [b₀, b₁, b₂, b₃]
  := by
  have h₀ := b₀.toNat_lt
  have h₁ := b₁.toNat_lt
  have h₂ := b₂.toNat_lt
  have h₃ := b₃.toNat_lt
  cases order with
  | little =>
      apply UInt32.toNat.inj
      rw [byteswapOnLittleEndian32, toNat_byteswap32, toNat_uint32At_little, toNat_uint32At_big]
      omega
  | big => rfl

/-- Every number is that of its four bytes. -/
theorem exists_uint32At (order : ByteOrder) (v : UInt32) :
  ∃ b₀ b₁ b₂ b₃, uint32At order [b₀, b₁, b₂, b₃] = v
  := by
  have hv := v.toNat_lt
  have hlittle : ∃ b₀ b₁ b₂ b₃, uint32At .little [b₀, b₁, b₂, b₃] = v := by
    refine ⟨UInt8.ofNat v.toNat, UInt8.ofNat (v.toNat / 2 ^ 8), UInt8.ofNat (v.toNat / 2 ^ 16),
      UInt8.ofNat (v.toNat / 2 ^ 24), ?_⟩
    apply UInt32.toNat.inj
    rw [toNat_uint32At_little]
    simp only [UInt8.toNat_ofNat']
    omega
  obtain ⟨b₀, b₁, b₂, b₃, hbytes⟩ := hlittle
  cases order with
  | little => exact ⟨b₀, b₁, b₂, b₃, hbytes⟩
  | big => exact ⟨b₃, b₂, b₁, b₀, hbytes⟩

/-- The four bytes as `insert` takes them out of the number. -/
theorem toNat_shift_uint32At (b₀ b₁ b₂ b₃ : Byte) :
  ((uint32At .big [b₀, b₁, b₂, b₃] >>> 24) &&& 0xff).toNat = b₀.toNat ∧
    ((uint32At .big [b₀, b₁, b₂, b₃] >>> 16) &&& 0xff).toNat = b₁.toNat ∧
    ((uint32At .big [b₀, b₁, b₂, b₃] >>> 8) &&& 0xff).toNat = b₂.toNat ∧
    (uint32At .big [b₀, b₁, b₂, b₃] &&& 0xff).toNat = b₃.toNat
  := by
  have h₀ := b₀.toNat_lt
  have h₁ := b₁.toNat_lt
  have h₂ := b₂.toNat_lt
  have h₃ := b₃.toNat_lt
  have hmask : ∀ n : ℕ, n &&& 255 = n % 2 ^ 8 := fun n => Nat.and_two_pow_sub_one_eq_mod n 8
  refine ⟨?_, ?_, ?_, ?_⟩
  all_goals
    simp only [UInt32.toNat_and, UInt32.toNat_shiftRight, toNat_uint32At_big, UInt32.reduceToNat,
      Nat.shiftRight_eq_div_pow, hmask, Nat.reduceMod]
    omega

/-! ### What is written -/

namespace IPv4Address

/-- The four numbers with dots, and the port behind a colon. -/
theorem toString_text (order : ByteOrder) (port : UInt16) (b₀ b₁ b₂ b₃ : Byte) :
  toString order ⟨byteswapOnLittleEndian order port, uint32At order [b₀, b₁, b₂, b₃]⟩
    = Ipv4.dotted [b₀, b₁, b₂, b₃] ++ colon :: digitBytes port.toNat
  := by
  obtain ⟨h₀, h₁, h₂, h₃⟩ := toNat_shift_uint32At b₀ b₁ b₂ b₃
  rw [toString, insert, byteswapOnLittleEndian32_uint32At, byteswapOnLittleEndian_twice, h₀, h₁, h₂, h₃]
  simp [OStream.putNat, OStream.put, Ipv4.dotted, List.intercalate_cons_cons, digitBytes,
    ascii, colon]

/-- An address has a port and four bytes. -/
theorem exists_bytes (order : ByteOrder) (a : IPv4Address) :
  ∃ port b₀ b₁ b₂ b₃, a = ⟨byteswapOnLittleEndian order port, uint32At order [b₀, b₁, b₂, b₃]⟩
  := by
  obtain ⟨b₀, b₁, b₂, b₃, hbytes⟩ := exists_uint32At order a.s_addr
  refine ⟨byteswapOnLittleEndian order a.sin_port, b₀, b₁, b₂, b₃, ?_⟩
  rw [byteswapOnLittleEndian_twice, hbytes]

/-- What is documented of `inet_pton` for `AF_INET`: it takes the texts of four numbers below 256 with dots
between them, without leading zeros, and writes the numbers. -/
def ReadsDotted (inet_pton : List Byte → Option (List Byte)) : Prop :=
  ∀ text bytes, inet_pton text = some bytes ↔ bytes.length = 4 ∧ text = Ipv4.dotted bytes

/-- `Create` takes the texts with four numbers below 256 and dots between them, without leading zeros, and
no others. The address is written as its text and its port. -/
theorem create_toString {inet_pton : List Byte → Option (List Byte)} (hpton : ReadsDotted inet_pton)
    (order : ByteOrder) (address : List Byte) (port : UInt16) (text : List Byte) :
  (create inet_pton order address port).map (toString order) = some text
    ↔ (∃ bytes : List Byte, bytes.length = 4 ∧ address = Ipv4.dotted bytes) ∧
      text = address ++ colon :: digitBytes port.toNat
  := by
  rw [create]
  cases hread : inet_pton address with
  | none =>
      apply iff_of_false
      · rintro ⟨⟩
      · rintro ⟨⟨bytes, hbytes⟩, -⟩
        rw [(hpton address bytes).mpr hbytes] at hread
        cases hread
  | some bytes =>
      obtain ⟨hlength, rfl⟩ := (hpton address bytes).mp hread
      match bytes, hlength with
      | [b₀, b₁, b₂, b₃], hlength =>
        rw [Option.map_some, toString_text, Option.some.injEq]
        constructor
        · rintro rfl
          exact ⟨⟨_, hlength, rfl⟩, rfl⟩
        · rintro ⟨-, rfl⟩
          rfl

theorem create_toString_loopback :
  (create Ipv4.parse .little (ascii "127.0.0.1") 8080).map (toString .little)
    = some (ascii "127.0.0.1:8080")
  := (create_toString (fun _ _ => Ipv4.parse_eq_some_iff) .little _ 8080 _).mpr
    ⟨⟨[127, 0, 0, 1], rfl, by decide⟩, by decide⟩

end IPv4Address

namespace IPv6Address

/-- A text for the sixteen bytes in brackets, and the port behind a colon. -/
theorem toString_text (order : ByteOrder) (a : IPv6Address) :
  ∃ text, a.toString order = Lookup.bracketed text
      (colon :: digitBytes (byteswapOnLittleEndian order a.sin6_port).toNat) ∧
    Lookup.closing ∉ text ∧ Ipv6.parseBytes text = some a.s6_addr
  := by
  obtain ⟨text, htext, hform⟩ := insert_text order a ⟨[], .dec⟩ rfl
  have hlength : (uint16s order a.s6_addr).length = 8 := length_uint16s order a.length_addr
  have hlt : ∀ g ∈ groupsOf order (uint16s order a.s6_addr), g < 65536 := fun _ => groupsOf_lt
  have hparse : Ipv6.parse text = some (groupsOf order (uint16s order a.s6_addr)) ∧
      ∀ b ∈ text, b = 58 ∨ Ipv6.hexDigit b ≠ none := by
    rcases hform with rfl | ⟨ls, k, rs, hk, hgroups, rfl⟩
    · have height : (groupsOf order (uint16s order a.s6_addr)).length = 8 := by
        rw [groupsOf, List.length_map, hlength]
      exact ⟨Ipv6.parse_joined hlt height, fun _ => Ipv6.hexDigit_of_mem_joined⟩
    · have hcount : (groupsOf order (uint16s order a.s6_addr)).length = 8 := by
        rw [groupsOf, List.length_map, hlength]
      rw [hgroups] at hcount hlt ⊢
      simp only [List.length_append, List.length_replicate] at hcount
      constructor
      · apply Ipv6.parse_compressed
        · intro g hg
          apply hlt g (by simp [hg])
        · intro g hg
          apply hlt g (by simp [hg])
        · apply hk
        · apply hcount
      · intro b hb
        simp only [List.mem_append, List.mem_cons] at hb
        rcases hb with hb | hb | hb | hb
        · apply Ipv6.hexDigit_of_mem_joined hb
        · apply Or.inl hb
        · apply Or.inl hb
        · apply Ipv6.hexDigit_of_mem_joined hb
  refine ⟨text, ?_, ?_, ?_⟩
  · rw [toString, htext]
    simp [Lookup.bracketed, Lookup.opening, Lookup.closing, colon, ascii]
  · intro hmem
    exact absurd (hparse.2 _ hmem) (by decide)
  · rw [Ipv6.parseBytes, hparse.1, Option.map_some, toBytes_groupsOf order (k := 8) a.length_addr]

end IPv6Address

/-! ### An address is found again -/

/-- The IPv4 address that an IPv6 address of the range `::ffff:0:0/96` stands for. -/
def IPv6Address.v4Mapped (order : ByteOrder) (a : IPv6Address) : Option IPv4Address :=
  if a.s6_addr.take 12 = List.replicate 10 0 ++ [255, 255] then
    some ⟨a.sin6_port, uint32At order (a.s6_addr.drop 12)⟩
  else
    none

/-- The address of the other family that stands for the same, if any. -/
def Address.v4Mapped (order : ByteOrder) : Address → Option Address
  | .ipv6 addr => (addr.v4Mapped order).map .ipv4
  | _ => none

/-- What is documented of `getaddrinfo` for addresses written as numbers, with a port as the service: for a
family that admits the address, each result is that address with the port, in network order, and for the
other family there is none, unless it is an IPv6 address that stands for an IPv4 address: that is then each
result. -/
structure Numeric (order : ByteOrder) (getaddrinfo : GetAddrInfo) (type protocol : ℤ) : Prop where
  inet {node : List Byte} {bytes : List Byte} (port : UInt16) {family : ℤ} :
    Ipv4.parse node = some bytes → family = afUnspec ∨ family = afInet →
      ∃ results, getaddrinfo ⟨node, some (digitBytes port.toNat)⟩ ⟨family, type, protocol⟩ = some results ∧
        results ≠ [] ∧ ∀ addr ∈ results,
          addr = some (.inet ⟨byteswapOnLittleEndian order port, uint32At order bytes⟩)
  inet6 {node : List Byte} {a : IPv6Address} {family : ℤ} :
    Ipv6.parseBytes node = some a.s6_addr → family = afUnspec ∨ family = afInet6 →
      ∃ results, getaddrinfo ⟨node, some (digitBytes (byteswapOnLittleEndian order a.sin6_port).toNat)⟩
          ⟨family, type, protocol⟩ = some results ∧
        results ≠ [] ∧ ∀ addr ∈ results, addr = some (.inet6 a)
  notInet {node : List Byte} {bytes : List Byte} (service : Option (List Byte)) :
    Ipv4.parse node = some bytes → getaddrinfo ⟨node, service⟩ ⟨afInet6, type, protocol⟩ = none
  mapped {node : List Byte} {a : IPv6Address} {m : IPv4Address} :
    Ipv6.parseBytes node = some a.s6_addr → a.v4Mapped order = some m →
      ∃ results, getaddrinfo ⟨node, some (digitBytes (byteswapOnLittleEndian order a.sin6_port).toNat)⟩
          ⟨afInet, type, protocol⟩ = some results ∧
        results ≠ [] ∧ ∀ addr ∈ results, addr = some (.inet m)
  notInet6 {node : List Byte} {a : IPv6Address} (service : Option (List Byte)) :
    Ipv6.parseBytes node = some a.s6_addr → a.v4Mapped order = none →
      getaddrinfo ⟨node, service⟩ ⟨afInet, type, protocol⟩ = none

namespace Address

variable {order : ByteOrder} {getaddrinfo : GetAddrInfo} {type protocol : ℤ}

/-- Where all results are one address, that is the one that is taken. -/
theorem lookupAnyIPAddress_of_results {host : List Byte} {family : ℤ} {results : List (Option SockAddr)}
    (hresults : getaddrinfo (Lookup.request host) ⟨family, type, protocol⟩ = some results)
    (hne : results ≠ []) {addr : SockAddr} (hall : ∀ addr' ∈ results, addr' = some addr) {a : Address}
    (hcreate : create (some addr) = some a) (ha : toIPAddress (some a) = some a) :
  lookupAnyIPAddress getaddrinfo host family type protocol = some a
  := by
  obtain ⟨first, rest, rfl⟩ := List.exists_cons_of_ne_nil hne
  obtain rfl := hall first List.mem_cons_self
  simp [lookupAnyIPAddress, lookup, hresults, hcreate, ha]

theorem lookupAnyIPAddress_of_error {host : List Byte} {family : ℤ}
    (hresults : getaddrinfo (Lookup.request host) ⟨family, type, protocol⟩ = none) :
  lookupAnyIPAddress getaddrinfo host family type protocol = none
  := by
  simp [lookupAnyIPAddress, lookup, hresults]

theorem colon_notMem_digitBytes (n : ℕ) :
  colon ∉ digitBytes n
  := by
  intro h
  exact absurd (toNat_of_mem_digitBytes h) (by decide)

theorem colon_notMem_dotted (bytes : List Byte) :
  colon ∉ Ipv4.dotted bytes
  := by
  intro h
  exact absurd (Ipv4.mem_dotted h) (by decide)

theorem dotted_ne_nil {bytes : List Byte} (h : bytes ≠ []) :
  Ipv4.dotted bytes ≠ []
  := by
  intro hnil
  have hsplit := Ipv4.splitOn_dotted h
  obtain ⟨b, rest, rfl⟩ := List.exists_cons_of_ne_nil h
  rw [hnil, List.splitOn_nil, List.map_cons, List.cons.injEq] at hsplit
  apply Digits.text_ne_nil 10 b.toNat hsplit.1.symm

/-- A dotted text with a port is taken apart at its only colon. -/
theorem request_dotted {bytes : List Byte} (h : bytes ≠ []) (n : ℕ) :
  Lookup.request (Ipv4.dotted bytes ++ colon :: digitBytes n) = ⟨Ipv4.dotted bytes, some (digitBytes n)⟩
  := by
  have hne := dotted_ne_nil h
  have hhead : (Ipv4.dotted bytes ++ colon :: digitBytes n).head? ≠ some Lookup.opening := by
    rw [List.head?_append_of_ne_nil _ hne]
    intro hopening
    exact absurd (Ipv4.mem_dotted (List.mem_of_head? hopening)) (by decide)
  rw [Lookup.request_of_plain (Lookup.plain_of_head hhead),
    Lookup.nodeService_single (colon_notMem_dotted bytes) (colon_notMem_digitBytes n)]
  simp [hne]

/-- A text in brackets with a port is taken apart there. -/
theorem request_bracketed_port {text : List Byte} (hne : text ≠ []) (hclosing : Lookup.closing ∉ text)
    (n : ℕ) :
  Lookup.request (Lookup.bracketed text (colon :: digitBytes n)) = ⟨text, some (digitBytes n)⟩
  := by
  simpa using Lookup.request_bracketed hne hclosing (colon :: digitBytes n)

/-- An address that is written is found again, with its port, if its family is asked for or any family.
Otherwise nothing is found, except for the IPv4 address that an IPv6 address stands for. -/
theorem lookupAnyIPAddress_toString (h : Numeric order getaddrinfo type protocol) {a : Address}
    (ha : toIPAddress (some a) = some a) {family : ℤ}
    (hfamily : family = afUnspec ∨ family = afInet ∨ family = afInet6) :
  lookupAnyIPAddress getaddrinfo (a.toString order) family type protocol
    = if family = afUnspec ∨ family = a.getFamily then some a else a.v4Mapped order
  := by
  cases a with
  | unknown sa_family => cases ha
  | ipv4 addr =>
      obtain ⟨port, b₀, b₁, b₂, b₃, rfl⟩ := IPv4Address.exists_bytes order addr
      have hparse : Ipv4.parse (Ipv4.dotted [b₀, b₁, b₂, b₃]) = some [b₀, b₁, b₂, b₃] :=
        Ipv4.parse_eq_some_iff.mpr ⟨rfl, rfl⟩
      have hbytes : [b₀, b₁, b₂, b₃] ≠ [] := by simp
      have hrequest := request_dotted hbytes port.toNat
      rw [toString, IPv4Address.toString_text]
      split
      · rename_i hadmits
        obtain ⟨results, hresults, hne, hall⟩ := h.inet port hparse hadmits
        rw [← hrequest] at hresults
        apply lookupAnyIPAddress_of_results hresults hne hall rfl ha
      · rename_i hother
        have hnone := h.notInet (some (digitBytes port.toNat)) hparse
        rw [← hrequest] at hnone
        rcases hfamily with rfl | rfl | rfl
        · exact absurd (Or.inl rfl) hother
        · exact absurd (Or.inr rfl) hother
        · apply lookupAnyIPAddress_of_error hnone
  | ipv6 addr =>
      obtain ⟨text, htext, hclosing, hparse⟩ := IPv6Address.toString_text order addr
      have hne : text ≠ [] := by
        rintro rfl
        cases hparse
      have hrequest := request_bracketed_port hne hclosing
        (byteswapOnLittleEndian order addr.sin6_port).toNat
      rw [toString, htext]
      split
      · rename_i hadmits
        obtain ⟨results, hresults, hne, hall⟩ := h.inet6 hparse hadmits
        rw [← hrequest] at hresults
        apply lookupAnyIPAddress_of_results hresults hne hall rfl ha
      · rename_i hother
        rcases hfamily with rfl | rfl | rfl
        · exact absurd (Or.inl rfl) hother
        · rw [Address.v4Mapped]
          cases hmapped : addr.v4Mapped order with
          | none =>
              have hnone := h.notInet6
                (some (digitBytes (byteswapOnLittleEndian order addr.sin6_port).toNat)) hparse hmapped
              rw [← hrequest] at hnone
              apply lookupAnyIPAddress_of_error hnone
          | some m =>
              obtain ⟨results, hresults, hne, hall⟩ := h.mapped hparse hmapped
              rw [← hrequest] at hresults
              apply lookupAnyIPAddress_of_results hresults hne hall rfl rfl
        · exact absurd (Or.inr rfl) hother

/-- A `getaddrinfo` that knows addresses written as numbers and nothing else, and gives each of them once. -/
def numericOnly (order : ByteOrder) : GetAddrInfo := fun request hints =>
  (request.service.bind (Digits.number 10 Ipv4.digit 0)).bind fun n =>
    let port := byteswapOnLittleEndian order (UInt16.ofNat n)
    match Ipv4.parse request.node, Ipv6.parseBytes request.node with
    | some bytes, _ =>
        if hints.ai_family = afUnspec ∨ hints.ai_family = afInet then
          some [some (.inet ⟨port, uint32At order bytes⟩)]
        else
          none
    | none, some bytes =>
        if h : bytes.length = 16 then
          if hints.ai_family = afUnspec ∨ hints.ai_family = afInet6 then
            some [some (.inet6 ⟨port, bytes, h⟩)]
          else if hints.ai_family = afInet then
            (IPv6Address.v4Mapped order ⟨port, bytes, h⟩).map fun m => [some (.inet m)]
          else
            none
        else
          none
    | none, none => none

/-- No text is read as addresses of both families. -/
theorem parse_eq_none_of_ipv6 {node bytes : List Byte} (h : Ipv6.parseBytes node = some bytes) :
  Ipv4.parse node = none
  := by
  cases hparse : Ipv4.parse node with
  | none => rfl
  | some bytes' =>
      obtain ⟨-, rfl⟩ := Ipv4.parse_eq_some_iff.mp hparse
      rw [Ipv6.parseBytes, Ipv6.parse_eq_none_of_notMem (colon_notMem_dotted bytes')] at h
      cases h

theorem numericOnly_numeric (order : ByteOrder) (type protocol : ℤ) :
  Numeric order (numericOnly order) type protocol
  := by
  have hnumber : ∀ n, Digits.number 10 Ipv4.digit 0 (digitBytes n) = some n :=
    Digits.number_text (by decide) Ipv4.digit_knows
  constructor
  · intro node bytes port family hparse hfamily
    refine ⟨[some (.inet ⟨byteswapOnLittleEndian order port, uint32At order bytes⟩)], ?_, by simp, by simp⟩
    simp [numericOnly, hnumber, hparse, hfamily]
  · intro node a family hparse hfamily
    refine ⟨[some (.inet6 a)], ?_, by simp, by simp⟩
    simp [numericOnly, hnumber, parse_eq_none_of_ipv6 hparse, hparse, hfamily, a.length_addr,
      byteswapOnLittleEndian_twice]
  · intro node bytes service hparse
    cases hservice : service.bind (Digits.number 10 Ipv4.digit 0) with
    | none => simp [numericOnly, hservice]
    | some n => simp [numericOnly, hservice, hparse, afInet6, afUnspec, afInet]
  · intro node a m hparse hmapped
    refine ⟨[some (.inet m)], ?_, by simp, by simp⟩
    simp [numericOnly, hnumber, parse_eq_none_of_ipv6 hparse, hparse, a.length_addr,
      byteswapOnLittleEndian_twice, afInet, afUnspec, afInet6, hmapped]
  · intro node a service hparse hmapped
    cases hservice : service.bind (Digits.number 10 Ipv4.digit 0) with
    | none => simp [numericOnly, hservice]
    | some n =>
        have hport : IPv6Address.v4Mapped order
            ⟨byteswapOnLittleEndian order (UInt16.ofNat n), a.s6_addr, a.length_addr⟩ = none := by
          rw [IPv6Address.v4Mapped] at hmapped ⊢
          split at hmapped
          · cases hmapped
          · rename_i hrange
            rw [if_neg hrange]
        simp [numericOnly, hservice, parse_eq_none_of_ipv6 hparse, hparse, a.length_addr, afInet6, afUnspec,
          afInet, hport]

/-- The address 2001:db8::1 with port 8080. -/
def documentation : IPv6Address :=
  .ofBytes .little ⟨[0x20, 0x01, 0x0d, 0xb8, 0, 0, 0, 0, 0, 0, 0, 0, 0, 0, 0, 1], rfl⟩ 8080

theorem lookupAnyIPAddress_toString_documentation :
  lookupAnyIPAddress (numericOnly .little) (toString .little (.ipv6 documentation)) afUnspec 0 0
    = some (.ipv6 documentation)
  := lookupAnyIPAddress_toString (numericOnly_numeric .little 0 0) rfl (Or.inl rfl)

example :
  toString .little (.ipv6 documentation) = ascii "[2001:db8::1]:8080"
  := by decide

end Address

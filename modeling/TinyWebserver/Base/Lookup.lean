import TinyWebserver.Base.Bytes
import TinyWebserver.Lib.Search

/-!
# Host names

`Address::Lookup` of `src/base/address.cpp` takes a host apart into the node and the service for
`getaddrinfo`. `Intended` says how a host is meant: an address in brackets with or without a service, a
name with a service behind its only colon, or the node alone. `request_intended_iff` gives the hosts that
are taken apart so: where the second search has found the first of several colons, its place stays the
service, and where nothing is in front of the only colon, the host is the node.
-/

namespace Lookup

/-- The byte `'['`. -/
def opening : Byte := 91

/-- The byte `']'`. -/
def closing : Byte := 93

/-- The first two arguments of `getaddrinfo`: the node, and the text at the pointer `service` unless that
is null. `getaddrinfo` reads each of them up to its first zero byte. -/
structure Request where
  node : List Byte
  service : Option (List Byte)
deriving DecidableEq

/-- `memchr`, as an offset. -/
def memchr (text : List Byte) (c : Byte) : Option ℕ := text.idxOf? c

/-- The check for an address in brackets. The service is an offset in the host. -/
def ipv6Service (host : List Byte) : List Byte × Option ℕ :=
  if host ≠ [] ∧ host.head? = some opening then
    match memchr (host.drop 1) closing with
    | some i =>
        let endipv6 := 1 + i
        ((host.drop 1).take (endipv6 - 1),
          if host[endipv6 + 1]? = some colon then some (endipv6 + 2) else none)
    | none => ([], none)
  else
    ([], none)

/-- The check for a node and a service. It sets the service in any case. -/
def nodeService (host : List Byte) : List Byte × Option ℕ :=
  match memchr host colon with
  | some service =>
      if memchr (host.drop (service + 1)) colon = none then
        (host.take service, some (service + 1))
      else
        ([], some service)
  | none => ([], none)

/-- What `Lookup` calls `getaddrinfo` with. -/
def request (host : List Byte) : Request :=
  let (node, service) := ipv6Service host
  let (node, service) := if node = [] then nodeService host else (node, service)
  let node := if node = [] then host else node
  ⟨node, service.map host.drop⟩

/-- An address in brackets, with something behind them. -/
def bracketed (n rest : List Byte) : List Byte := opening :: (n ++ closing :: rest)

/-- The forms `[n]` and `[n]:s`. -/
def Bracketed (host : List Byte) : Prop :=
  ∃ n, n ≠ [] ∧ closing ∉ n ∧ (host = bracketed n [] ∨ ∃ s, host = bracketed n (colon :: s))

/-- How a host is meant. -/
inductive Intended : List Byte → Request → Prop where
  | bracketedService {n : List Byte} (s : List Byte) (hn : n ≠ []) (hclosing : closing ∉ n) :
      Intended (bracketed n (colon :: s)) ⟨n, some s⟩
  | bracketedNode {n : List Byte} (hn : n ≠ []) (hclosing : closing ∉ n) :
      Intended (bracketed n []) ⟨n, none⟩
  | service {node service : List Byte} (hform : ¬ Bracketed (node ++ colon :: service))
      (hnode : colon ∉ node) (hservice : colon ∉ service) :
      Intended (node ++ colon :: service) ⟨node, some service⟩
  | node {host : List Byte} (hform : ¬ Bracketed host) (hcolon : colon ∉ host) :
      Intended host ⟨host, none⟩
  | bare {host : List Byte} (hhead : host.head? ≠ some opening) (hcount : 2 ≤ host.count colon) :
      Intended host ⟨host, none⟩

/-- An address without brackets, a service alone, or brackets with something else behind them than a
colon. -/
def Misread (host : List Byte) : Prop :=
  (host.head? ≠ some opening ∧ 2 ≤ host.count colon) ∨
  (∃ service, colon ∉ service ∧ host = colon :: service) ∨
  ∃ n c rest, n ≠ [] ∧ closing ∉ n ∧ c ≠ colon ∧ host = bracketed n (c :: rest) ∧
    host.count colon ≤ 1

/-! ### The two searches -/

theorem memchr_append {c : Byte} {xs : List Byte} (h : c ∉ xs) (rest : List Byte) :
  memchr (xs ++ c :: rest) c = some xs.length
  := by
  induction xs with
  | nil => simp [memchr, List.idxOf?_cons]
  | cons x xs ih =>
      have hx : x ≠ c := by
        rintro rfl
        simp at h
      have hxs := ih (List.not_mem_of_not_mem_cons h)
      rw [memchr] at hxs
      rw [memchr, List.cons_append, List.idxOf?_cons, hxs]
      simp [hx]

theorem memchr_eq_none_iff {c : Byte} {xs : List Byte} :
  memchr xs c = none ↔ c ∉ xs
  := List.idxOf?_eq_none_iff

theorem ipv6Service_bracketed {n : List Byte} (hclosing : closing ∉ n) (rest : List Byte) :
  ipv6Service (bracketed n rest)
    = (n, if rest.head? = some colon then some (n.length + 3) else none)
  := by
  have hsearch : memchr ((bracketed n rest).drop 1) closing = some n.length := memchr_append hclosing rest
  have hnext : (bracketed n rest)[1 + n.length + 1]? = rest.head? := by
    rw [bracketed, List.getElem?_cons_succ, List.getElem?_append_right (by omega),
      Nat.add_sub_cancel, List.getElem?_cons_succ, List.head?_eq_getElem?]
  rw [ipv6Service, if_pos (by simp [bracketed]), hsearch]
  simp only [hnext]
  simp [bracketed, Nat.add_comm]

/-- The brackets are taken off. -/
theorem request_bracketed {n : List Byte} (hn : n ≠ []) (hclosing : closing ∉ n) (rest : List Byte) :
  request (bracketed n rest) = ⟨n, if rest.head? = some colon then some rest.tail else none⟩
  := by
  have hdrop : (bracketed n rest).drop (n.length + 3) = rest.tail := by
    rw [bracketed, List.drop_succ_cons, List.drop_append]
    simp
  rw [request, ipv6Service_bracketed hclosing]
  simp only [if_neg hn]
  split
  · simp [hdrop]
  · rfl

/-- Without brackets around something the first search finds no node. -/
theorem ipv6Service_fst {host : List Byte}
    (h : ∀ n rest, n ≠ [] → closing ∉ n → host ≠ bracketed n rest) :
  (ipv6Service host).1 = []
  := by
  rw [ipv6Service]
  split
  · rename_i hhead
    obtain ⟨text, rfl⟩ := List.head?_eq_some_iff.mp hhead.2
    split
    · rename_i i hsearch
      obtain ⟨hi, hclosing, hbefore⟩ := List.idxOf?_eq_some_iff.mp hsearch
      by_contra hne
      have hnode : closing ∉ text.take i := by
        intro hmem
        obtain ⟨j, hj, hget⟩ := List.mem_take_iff_getElem.mp hmem
        apply hbefore j (by omega) hget
      apply h (text.take i) (text.drop (i + 1)) (by simpa using hne) hnode
      rw [bracketed]
      congr 1
      simp [← hclosing]
    · rfl
  · rfl

/-- Then the second search decides. -/
theorem request_of_plain {host : List Byte}
    (h : ∀ n rest, n ≠ [] → closing ∉ n → host ≠ bracketed n rest) :
  request host
    = ⟨if (nodeService host).1 = [] then host else (nodeService host).1,
      (nodeService host).2.map host.drop⟩
  := by
  have hempty := ipv6Service_fst h
  rw [request]
  simp only [hempty, if_true]

theorem nodeService_of_notMem {host : List Byte} (h : colon ∉ host) :
  nodeService host = ([], none)
  := by
  rw [nodeService, memchr_eq_none_iff.mpr h]

theorem nodeService_single {node service : List Byte} (hnode : colon ∉ node) (hservice : colon ∉ service) :
  nodeService (node ++ colon :: service) = (node, some (node.length + 1))
  := by
  have hrest : (node ++ colon :: service).drop (node.length + 1) = service := by
    rw [List.drop_append]
    simp
  rw [nodeService, memchr_append hnode]
  simp only [hrest, memchr_eq_none_iff.mpr hservice, if_true]
  rw [List.take_left]

theorem nodeService_several {front rest : List Byte} (hfront : colon ∉ front) (hrest : colon ∈ rest) :
  nodeService (front ++ colon :: rest) = ([], some front.length)
  := by
  have hdrop : (front ++ colon :: rest).drop (front.length + 1) = rest := by
    rw [List.drop_append]
    simp
  have hfound : memchr rest colon ≠ none := by
    rw [ne_eq, memchr_eq_none_iff, not_not]
    apply hrest
  rw [nodeService, memchr_append hfront]
  simp only [hdrop, if_neg hfound]

/-! ### The hosts that are taken apart as they are meant -/

/-- The first closing bracket decides what is in brackets. -/
theorem bracketed_inj {n n' rest rest' : List Byte} (h : closing ∉ n) (h' : closing ∉ n')
    (heq : bracketed n rest = bracketed n' rest') :
  n = n' ∧ rest = rest'
  := Search.append_cons_inj_of_notMem h h' (List.cons.inj heq).2

theorem not_bracketed_of_other {n rest : List Byte} {c : Byte} (hn : closing ∉ n) (hc : c ≠ colon) :
  ¬ Bracketed (bracketed n (c :: rest))
  := by
  rintro ⟨n', -, hn', heq | ⟨s, heq⟩⟩
  · apply absurd (bracketed_inj hn hn' heq).2
    simp
  · apply hc
    apply (List.cons.inj (bracketed_inj hn hn' heq).2).1

/-- A host that is in neither of the two forms and is not misread has no brackets around something. -/
theorem plain_of_not_misread {host : List Byte} (hform : ¬ Bracketed host) (hcount : host.count colon ≤ 1)
    (h : ¬ Misread host) :
  ∀ n rest, n ≠ [] → closing ∉ n → host ≠ bracketed n rest
  := by
  rintro n rest hn hclosing rfl
  match rest with
  | [] => apply hform ⟨n, hn, hclosing, Or.inl rfl⟩
  | c :: rest =>
      rcases eq_or_ne c colon with rfl | hc
      · apply hform ⟨n, hn, hclosing, Or.inr ⟨rest, rfl⟩⟩
      · apply h (Or.inr (Or.inr ⟨n, c, rest, hn, hclosing, hc, rfl, hcount⟩))

theorem count_single {node service : List Byte} (hnode : colon ∉ node) (hservice : colon ∉ service) :
  (node ++ colon :: service).count colon = 1
  := by
  rw [List.count_append, List.count_cons_self, List.count_eq_zero_of_not_mem hnode,
    List.count_eq_zero_of_not_mem hservice]

theorem plain_of_head {host : List Byte} (h : host.head? ≠ some opening) :
  ∀ n rest, n ≠ [] → closing ∉ n → host ≠ bracketed n rest
  := by
  rintro n rest - - rfl
  apply h rfl

/-- Where a host is not misread, it is taken apart as it is meant. -/
theorem request_of_intended {host : List Byte} {t : Request} (h : ¬ Misread host)
    (ht : Intended host t) :
  request host = t
  := by
  cases ht with
  | bracketedService s hn hclosing => simpa using request_bracketed hn hclosing (colon :: s)
  | bracketedNode hn hclosing => simpa using request_bracketed hn hclosing []
  | service hform hnode hservice =>
      rename_i node service
      have hplain := plain_of_not_misread hform (count_single hnode hservice).le h
      have hne : node ≠ [] := by
        rintro rfl
        apply h (Or.inr (Or.inl ⟨service, hservice, rfl⟩))
      have hdrop : (node ++ colon :: service).drop (node.length + 1) = service := by
        rw [List.drop_append]
        simp
      rw [request_of_plain hplain, nodeService_single hnode hservice]
      simp [hne, hdrop]
  | node hform hcolon =>
      have hplain := plain_of_not_misread hform (by simp [List.count_eq_zero_of_not_mem hcolon]) h
      rw [request_of_plain hplain, nodeService_of_notMem hcolon]
      rfl
  | bare hhead hcount => exact absurd (Or.inl ⟨hhead, hcount⟩) h

/-- An address without brackets: the service is the text from its first colon on. -/
theorem request_bare {host : List Byte} (hhead : host.head? ≠ some opening)
    (hcount : 2 ≤ host.count colon) :
  (request host).service ≠ none
  := by
  have hmem : colon ∈ host := List.count_pos_iff.mp (by omega)
  obtain ⟨front, rest, rfl, hfront⟩ := List.eq_append_cons_of_mem hmem
  have hrest : colon ∈ rest := by
    rw [List.count_append, List.count_cons_self, List.count_eq_zero_of_not_mem hfront] at hcount
    apply List.count_pos_iff.mp
    omega
  rw [request_of_plain (plain_of_head hhead), nodeService_several hfront hrest]
  simp

/-- A host that is misread is meant otherwise. -/
theorem exists_intended_of_misread {host : List Byte} (h : Misread host) :
  ∃ t, Intended host t ∧ request host ≠ t
  := by
  rcases h with ⟨hhead, hcount⟩ | ⟨service, hservice, rfl⟩ | ⟨n, c, rest, hn, hclosing, hc, rfl, hcount⟩
  · refine ⟨_, Intended.bare hhead hcount, ?_⟩
    intro heq
    apply request_bare hhead hcount
    rw [heq]
  · have hhead : (colon :: service).head? ≠ some opening := by simp [colon, opening]
    have hform : ¬ Bracketed ([] ++ colon :: service) := by
      rintro ⟨n, -, -, heq | ⟨s, heq⟩⟩
      · exact absurd (List.cons.inj heq).1 (by decide)
      · exact absurd (List.cons.inj heq).1 (by decide)
    have hnode : (request (colon :: service)).node = colon :: service := by
      rw [request_of_plain (plain_of_head hhead)]
      have hsplit : nodeService (colon :: service) = ([], some 1) :=
        nodeService_single List.not_mem_nil hservice
      simp [hsplit]
    refine ⟨_, Intended.service hform (by simp) hservice, ?_⟩
    intro heq
    rw [heq] at hnode
    cases hnode
  · have hform : ¬ Bracketed (bracketed n (c :: rest)) := not_bracketed_of_other hclosing hc
    have hrequest : request (bracketed n (c :: rest)) = ⟨n, none⟩ := by
      rw [request_bracketed hn hclosing]
      simp [hc]
    rw [hrequest]
    by_cases hmem : colon ∈ bracketed n (c :: rest)
    · obtain ⟨node, service, heq, hnode⟩ := List.eq_append_cons_of_mem hmem
      rw [heq] at hform hcount ⊢
      have hservice : colon ∉ service := by
        rw [List.count_append, List.count_cons_self, List.count_eq_zero_of_not_mem hnode] at hcount
        apply List.count_eq_zero.mp
        omega
      exact ⟨_, Intended.service hform hnode hservice, by simp⟩
    · refine ⟨_, Intended.node hform hmem, ?_⟩
      intro heq
      have hlength := congrArg (fun t => t.node.length) heq
      simp only [bracketed, List.length_cons, List.length_append] at hlength
      omega

/-- A host is taken apart as it is meant exactly if it is not misread. -/
theorem request_intended_iff (host : List Byte) :
  (∀ t, Intended host t → request host = t) ↔ ¬ Misread host
  := by
  constructor
  · intro h hmisread
    obtain ⟨t, ht, hne⟩ := exists_intended_of_misread hmisread
    apply hne (h t ht)
  · intro h t ht
    apply request_of_intended h ht

/-- The loopback address is meant as a node alone, and gets itself as the service. -/
theorem request_loopback :
  ¬ ∀ host t, Intended host t → request host = t
  := by
  intro h
  have hintended : Intended (ascii "::1") ⟨ascii "::1", none⟩ := Intended.bare (by decide) (by decide)
  exact absurd (h _ _ hintended) (by decide)

example :
  request (ascii "::1") = ⟨ascii "::1", some (ascii "::1")⟩
  := by decide

example :
  request (ascii "[::1]:80") = ⟨ascii "::1", some (ascii "80")⟩
  := by decide

end Lookup

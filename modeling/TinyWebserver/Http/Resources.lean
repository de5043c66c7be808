import TinyWebserver.Http.Response
import TinyWebserver.Lib.Transition

/-!
# The resources of a response

`HttpResponse` of `http/httpresponse.cpp` once more, with the descriptor that `AddContent_` opens, the address
of the mapping, and a record of the calls of `open`, `close`, `mmap` and `munmap`. Without these it is the
class of before (`toHttpResponse_makeResponse`). If `mmap` fails then `AddContent_` returns without a call of
`close`.

`run_balanced_iff`: in a run all calls are balanced exactly if no `MakeResponse` has a file to send that can be
opened, is not empty and cannot be mapped.
-/

/-- A call of `open` that succeeds, of `close`, of `mmap` that succeeds, or of `munmap`. -/
inductive ResourceEvent where
  | open (fd : ℕ)
  | close (fd : ℕ)
  | mmap (address length : ℕ)
  | munmap (address length : ℕ)
deriving DecidableEq, Repr

/-- What the process holds: its descriptors, and mappings by address and length. -/
structure LiveResources where
  fds : List ℕ
  mappings : List (ℕ × ℕ)
deriving DecidableEq, Repr

namespace LiveResources

open Transition

/-- What an event does. -/
def exec (live : LiveResources) : ResourceEvent → LiveResources
  | .open fd => { live with fds := fd :: live.fds }
  | .close fd => { live with fds := live.fds.erase fd }
  | .mmap address length => { live with mappings := (address, length) :: live.mappings }
  | .munmap address length => { live with mappings := live.mappings.erase (address, length) }

/-- What the events of a call do. -/
def execAll (live : LiveResources) (events : List ResourceEvent) : LiveResources := events.foldl exec live

/-- An event as a step. -/
def step (live : LiveResources) (event : ResourceEvent) : Option LiveResources := some (live.exec event)

/-- `munmap` gets the address and the length of the only mapping. -/
def Matching (live : LiveResources) : ResourceEvent → Prop
  | .munmap address length => live.mappings = [(address, length)]
  | _ => True

/-- An event that matches and leaves at most one mapping. -/
def Orderly (live : LiveResources) (event : ResourceEvent) : Prop :=
  live.Matching event ∧ (live.exec event).mappings.length ≤ 1

theorem guarded_orderly_cons (live : LiveResources) (event : ResourceEvent) (events : List ResourceEvent) :
  Guarded step Orderly live (event :: events) ↔
    live.Orderly event ∧ Guarded step Orderly (live.exec event) events
  := by
  simp only [Guarded, step, Option.some.injEq, forall_eq']

theorem orderly_open {live : LiveResources} (h : live.mappings = []) (fd : ℕ) :
  live.Orderly (.open fd)
  := ⟨trivial, by simp [exec, h]⟩

theorem orderly_mmap {live : LiveResources} (h : live.mappings = []) (address length : ℕ) :
  live.Orderly (.mmap address length)
  := ⟨trivial, by simp [exec, h]⟩

theorem orderly_close {live : LiveResources} (h : live.mappings.length ≤ 1) (fd : ℕ) :
  live.Orderly (.close fd)
  := ⟨trivial, h⟩

end LiveResources

/-- The results of the system calls of one response, with the descriptor that `open` returns and the address
that `mmap` returns, which is not null. -/
structure ResourceCalls extends FileSystem where
  fd : ℕ
  address : ℕ

/-- The class `HttpResponse` with the address that `mmFile_` has if it is not null. -/
structure MappedResponse extends HttpResponse where
  address : ℕ

namespace MappedResponse

open Transition

/-- The constructor. -/
def new : MappedResponse := ⟨HttpResponse.new, 0⟩

/-- `UnmapFile`. -/
def unmapFile (r : MappedResponse) : MappedResponse × List ResourceEvent :=
  match r.mmFile with
  | some _ => ({ r with mmFile := none }, [.munmap r.address r.mmFileStat.size])
  | none => (r, [])

/-- `Init`. -/
def init (r : MappedResponse) (srcDir path : List Byte) (isKeepAlive : Bool) (code : ℤ) :
    Option (MappedResponse × List ResourceEvent) :=
  if srcDir = [] then none
  else
    let (r, events) := if r.mmFile.isSome then r.unmapFile else (r, [])
    some (⟨⟨code, isKeepAlive, path, srcDir, none, ⟨0, 0⟩⟩, r.address⟩, events)

/-- `AddContent_`. -/
def addContent (calls : ResourceCalls) (r : MappedResponse) (buff : Buffer) :
    Option ((MappedResponse × List ResourceEvent) × Buffer) :=
  if calls.opens r.fileName then
    if r.mmFileStat.size = 0 then do
      let buff ← buff.append (ascii "Content-length: 0" ++ crlf ++ crlf)
      some (({ r with mmFile := none }, [.open calls.fd, .close calls.fd]), buff)
    else
      match calls.mmap r.fileName r.mmFileStat.size with
      | none => do
          let buff ← r.errorContent buff (ascii "File NotFound!")
          some ((r, [.open calls.fd]), buff)
      | some file => do
          let buff ← buff.append
            (ascii "Content-length: " ++ decimal r.mmFileStat.size ++ crlf ++ crlf)
          some (({ r with mmFile := some file, address := calls.address },
            [.open calls.fd, .mmap calls.address r.mmFileStat.size, .close calls.fd]), buff)
  else do
    let buff ← r.errorContent buff (ascii "File NotFound!")
    some ((r, []), buff)

/-- The beginning of `MakeResponse`, up to `ErrorHtml_`: the code and the file are chosen. -/
def chooseFile (calls : ResourceCalls) (r : MappedResponse) : MappedResponse :=
  let res := calls.stat r.fileName
  let mmFileStat := res.getD r.mmFileStat
  let response := HttpResponse.errorHtml calls.toFileSystem
    { r.toHttpResponse with
      mmFileStat := mmFileStat, code := HttpResponse.chooseCode r.code res mmFileStat }
  { r with toHttpResponse := response }

/-- `MakeResponse`. -/
def makeResponse (calls : ResourceCalls) (r : MappedResponse) (buff : Buffer) :
    Option ((MappedResponse × List ResourceEvent) × Buffer) := do
  let r := r.chooseFile calls
  let (response, buff) ← r.addStateLine buff
  let r := { r with toHttpResponse := response }
  let buff ← r.addHeader buff
  r.addContent calls buff

/-! ### Runs -/

/-- A call of a method, for `MakeResponse` with the results of its system calls and a buffer in good order. -/
inductive Call where
  | init (srcDir path : List Byte) (isKeepAlive : Bool) (code : ℤ)
  | makeResponse (calls : ResourceCalls) (buff : Buffer) (hbuff : buff.Inv)
  | unmapFile

/-- A response in a run: whether `Init` has been called since the last `MakeResponse`, and what the process
holds. -/
structure State where
  response : MappedResponse
  initialised : Bool
  live : LiveResources

namespace State

/-- A new response, with the descriptors that are open then. -/
def start (fds : List ℕ) : State := ⟨new, false, ⟨fds, []⟩⟩

/-- A call, with its events. There is none if an assertion fails, or for `MakeResponse` without `Init`. -/
def call (s : State) : Call → Option (MappedResponse × List ResourceEvent)
  | .init srcDir path isKeepAlive code => s.response.init srcDir path isKeepAlive code
  | .makeResponse calls buff _ =>
      if s.initialised then (s.response.makeResponse calls buff).map Prod.fst else none
  | .unmapFile => some s.response.unmapFile

/-- Whether `Init` has been called since the last `MakeResponse`, after a call. -/
def initialisedAfter (s : State) : Call → Bool
  | .init .. => true
  | .makeResponse .. => false
  | .unmapFile => s.initialised

/-- A call as a step. -/
def step (s : State) (c : Call) : Option State :=
  (s.call c).map fun (r, events) => ⟨r, s.initialisedAfter c, s.live.execAll events⟩

/-- A call is balanced: it leaves no descriptor open, at every moment there is at most one mapping, which
`munmap` gets, and after `UnmapFile` there is none. -/
def Balanced (s : State) (c : Call) : Prop :=
  ∀ r events, s.call c = some (r, events) →
    (s.live.execAll events).fds = s.live.fds ∧
    Guarded LiveResources.step LiveResources.Orderly s.live events ∧
    (c = .unmapFile → (s.live.execAll events).mappings = [])

end State

/-- The file can be opened and is not empty, and cannot be mapped. -/
def MapFails (calls : ResourceCalls) (r : MappedResponse) : Prop :=
  calls.opens r.fileName = true ∧ r.mmFileStat.size ≠ 0 ∧ calls.mmap r.fileName r.mmFileStat.size = none

/-- A call that does not reach the defect. -/
def State.Sound (s : State) : Call → Prop
  | .makeResponse calls _ _ => s.initialised = true → ¬ MapFails calls (s.response.chooseFile calls)
  | _ => True

/-! ### The class without its resources -/

theorem toHttpResponse_unmapFile (r : MappedResponse) :
  r.unmapFile.1.toHttpResponse = r.toHttpResponse.unmapFile
  := by
  rw [unmapFile, HttpResponse.unmapFile]
  split
  · rfl
  · rename_i hnone
    rw [← hnone]

theorem toHttpResponse_init (r : MappedResponse) (srcDir path : List Byte) (isKeepAlive : Bool) (code : ℤ) :
  (r.init srcDir path isKeepAlive code).map (fun p => p.1.toHttpResponse)
    = HttpResponse.init srcDir path isKeepAlive code
  := by
  rw [init, HttpResponse.init]
  split
  · rfl
  · rfl

theorem toHttpResponse_addContent (calls : ResourceCalls) (r : MappedResponse) (buff : Buffer) :
  (r.addContent calls buff).map (fun p => (p.1.1.toHttpResponse, p.2))
    = r.toHttpResponse.addContent calls.toFileSystem buff
  := by
  rw [addContent, HttpResponse.addContent]
  split
  · split
    · cases buff.append (ascii "Content-length: 0" ++ crlf ++ crlf) <;> rfl
    · cases calls.mmap r.fileName r.mmFileStat.size with
      | none => cases r.errorContent buff (ascii "File NotFound!") <;> rfl
      | some file =>
          dsimp only
          cases buff.append (ascii "Content-length: " ++ decimal r.mmFileStat.size ++ crlf ++ crlf) <;> rfl
  · cases r.errorContent buff (ascii "File NotFound!") <;> rfl

/-- Apart from the descriptor, the address and the events, `MakeResponse` is the one of before. -/
theorem toHttpResponse_makeResponse (calls : ResourceCalls) (r : MappedResponse) (buff : Buffer) :
  (r.makeResponse calls buff).map (fun p => (p.1.1.toHttpResponse, p.2))
    = r.toHttpResponse.makeResponse calls.toFileSystem buff
  := by
  rw [makeResponse, HttpResponse.makeResponse]
  dsimp only
  change Option.map _ (((r.chooseFile calls).addStateLine buff).bind _)
    = ((r.chooseFile calls).addStateLine buff).bind _
  cases (r.chooseFile calls).addStateLine buff with
  | none => rfl
  | some p =>
      dsimp only [Option.bind_some]
      change Option.map _ ((p.1.addHeader p.2).bind _) = (p.1.addHeader p.2).bind _
      cases p.1.addHeader p.2 with
      | none => rfl
      | some buff =>
          apply toHttpResponse_addContent calls { r.chooseFile calls with toHttpResponse := p.1 } buff

/-! ### What a call can leave -/

/-- What `AddContent_` can leave: the response and the events. -/
inductive Content (calls : ResourceCalls) (r : MappedResponse) : MappedResponse × List ResourceEvent → Prop where
  | missing (hopens : ¬ calls.opens r.fileName = true) : Content calls r (r, [])
  | empty (hopens : calls.opens r.fileName = true) (hsize : r.mmFileStat.size = 0) :
      Content calls r ({ r with mmFile := none }, [.open calls.fd, .close calls.fd])
  | unmapped (h : MapFails calls r) : Content calls r (r, [.open calls.fd])
  | mapped (file : List Byte) (hmap : ¬ MapFails calls r) :
      Content calls r ({ r with mmFile := some file, address := calls.address },
        [.open calls.fd, .mmap calls.address r.mmFileStat.size, .close calls.fd])

theorem errorContent_of_inv (r : HttpResponse) {buff : Buffer} (h : buff.Inv) (message : List Byte) :
  ∃ buff', r.errorContent buff message = some buff'
  := by
  obtain ⟨buff', hbuff', -, -⟩ := h.appendAll [ascii "Content-length: " ++
    decimal (r.errorBody message).length ++ crlf ++ crlf, r.errorBody message]
  exact ⟨buff', hbuff'⟩

theorem addContent_content (calls : ResourceCalls) (r : MappedResponse) {buff : Buffer} (h : buff.Inv) :
  ∃ p buff', r.addContent calls buff = some (p, buff') ∧ Content calls r p
  := by
  obtain ⟨buff₁, herror⟩ := errorContent_of_inv r.toHttpResponse h (ascii "File NotFound!")
  obtain ⟨buff₂, hempty, -, -⟩ := h.append (ascii "Content-length: 0" ++ crlf ++ crlf)
  obtain ⟨buff₃, hlength, -, -⟩ :=
    h.append (ascii "Content-length: " ++ decimal r.mmFileStat.size ++ crlf ++ crlf)
  rw [addContent]
  by_cases hopens : calls.opens r.fileName = true
  · rw [if_pos hopens]
    by_cases hsize : r.mmFileStat.size = 0
    · rw [if_pos hsize, hempty]
      exact ⟨_, buff₂, rfl, .empty hopens hsize⟩
    · rw [if_neg hsize]
      cases hmmap : calls.mmap r.fileName r.mmFileStat.size with
      | none =>
          rw [herror]
          exact ⟨_, buff₁, rfl, .unmapped ⟨hopens, hsize, hmmap⟩⟩
      | some file =>
          dsimp only
          rw [hlength]
          refine ⟨_, buff₃, rfl, .mapped file ?_⟩
          rintro ⟨-, -, hfails⟩
          rw [hmmap] at hfails
          cases hfails
  · rw [if_neg hopens, herror]
    exact ⟨_, buff₁, rfl, .missing hopens⟩

/-- `MakeResponse` does not fail, and leaves what `AddContent_` can leave for the file that is chosen. -/
theorem makeResponse_content (calls : ResourceCalls) (r : MappedResponse) {buff : Buffer} (h : buff.Inv) :
  ∃ p buff' code, r.makeResponse calls buff = some (p, buff') ∧
    Content calls { r.chooseFile calls with code := code } p
  := by
  obtain ⟨code, str, -, -, -, hline⟩ := (r.chooseFile calls).addStateLine_spec
  obtain ⟨buff₁, hbuff₁, hInv₁, -⟩ := hline.of_inv h
  obtain ⟨strs, -, hheader⟩ :=
    HttpResponse.addHeader_spec { (r.chooseFile calls).toHttpResponse with code := code }
  obtain ⟨buff₂, hbuff₂, hInv₂, -⟩ := hInv₁.appendAll strs
  rw [← hheader] at hbuff₂
  obtain ⟨p, buff₃, hbuff₃, hcontent⟩ :=
    addContent_content calls { r.chooseFile calls with code := code } hInv₂
  refine ⟨p, buff₃, code, ?_, hcontent⟩
  rw [makeResponse]
  change ((r.chooseFile calls).addStateLine buff).bind _ = _
  rw [hbuff₁, Option.bind_some]
  change (HttpResponse.addHeader { (r.chooseFile calls).toHttpResponse with code := code } buff₁).bind _ = _
  rw [hbuff₂, Option.bind_some]
  apply hbuff₃

/-! ### What is live -/

/-- The mapping of a response, by its address and length. -/
def mapping (r : MappedResponse) : List (ℕ × ℕ) :=
  match r.mmFile with
  | some _ => [(r.address, r.mmFileStat.size)]
  | none => []

theorem mapping_eq_nil {r : MappedResponse} (h : r.mmFile = none) :
  r.mapping = []
  := by
  rw [mapping, h]

theorem mmFile_unmapFile (r : MappedResponse) :
  r.unmapFile.1.mmFile = none
  := by
  rw [unmapFile]
  split
  · rfl
  · rename_i hnone
    apply hnone

/-- `UnmapFile` undoes the mapping, if there is one. -/
theorem unmapFile_live (r : MappedResponse) {live : LiveResources} (h : live.mappings = r.mapping) :
  (live.execAll r.unmapFile.2).fds = live.fds ∧
    Guarded LiveResources.step LiveResources.Orderly live r.unmapFile.2 ∧
    (live.execAll r.unmapFile.2).mappings = []
  := by
  rw [mapping] at h
  rw [unmapFile]
  split
  · rename_i hfile
    rw [hfile] at h
    have hnone : (live.exec (.munmap r.address r.mmFileStat.size)).mappings = [] := by
      simp [LiveResources.exec, h]
    refine ⟨rfl, ?_, hnone⟩
    rw [LiveResources.guarded_orderly_cons]
    refine ⟨⟨h, ?_⟩, trivial⟩
    rw [hnone]
    apply Nat.zero_le
  · rename_i hnone
    rw [hnone] at h
    exact ⟨rfl, trivial, h⟩

/-- `Init` does what `UnmapFile` does. -/
theorem init_eq (r : MappedResponse) (srcDir path : List Byte) (isKeepAlive : Bool) (code : ℤ) :
  r.init srcDir path isKeepAlive code
    = if srcDir = [] then none
      else some (⟨⟨code, isKeepAlive, path, srcDir, none, ⟨0, 0⟩⟩, r.address⟩, r.unmapFile.2)
  := by
  rw [init, unmapFile]
  cases r.mmFile with
  | none => rfl
  | some file => rfl

/-- After `Init` there is no mapping, and the mapping that `AddContent_` makes is the one of the response.
The descriptor stays open exactly if the file cannot be mapped. -/
theorem Content.live {calls : ResourceCalls} {r : MappedResponse} {p : MappedResponse × List ResourceEvent}
    (h : Content calls r p) (hr : r.mmFile = none) {live : LiveResources} (hlive : live.mappings = []) :
  Guarded LiveResources.step LiveResources.Orderly live p.2 ∧
    (live.execAll p.2).mappings = p.1.mapping ∧
    ((live.execAll p.2).fds = live.fds ↔ ¬ MapFails calls r)
  := by
  cases h with
  | missing hopens =>
      refine ⟨trivial, ?_, iff_of_true rfl fun hfails => hopens hfails.1⟩
      rw [mapping_eq_nil hr]
      apply hlive
  | empty hopens hsize =>
      have hfails : ¬ MapFails calls r := fun hfails => hfails.2.1 hsize
      have hle : (live.exec (.open calls.fd)).mappings.length ≤ 1 :=
        (LiveResources.orderly_open hlive calls.fd).2
      refine ⟨?_, hlive, iff_of_true (List.erase_cons_head ..) hfails⟩
      rw [LiveResources.guarded_orderly_cons, LiveResources.guarded_orderly_cons]
      exact ⟨LiveResources.orderly_open hlive _, LiveResources.orderly_close hle _, trivial⟩
  | unmapped hfails =>
      refine ⟨?_, ?_, iff_of_false (List.cons_ne_self _ _) (not_not_intro hfails)⟩
      · rw [LiveResources.guarded_orderly_cons]
        exact ⟨LiveResources.orderly_open hlive _, trivial⟩
      · rw [mapping_eq_nil hr]
        apply hlive
  | mapped file hmap =>
      have hmapping : (live.exec (.mmap calls.address r.mmFileStat.size)).mappings
          = [(calls.address, r.mmFileStat.size)] := congrArg _ hlive
      have hopened : (live.exec (.open calls.fd)).mappings = [] := hlive
      have hle := (LiveResources.orderly_mmap hopened calls.address r.mmFileStat.size).2
      refine ⟨?_, hmapping, iff_of_true (List.erase_cons_head ..) hmap⟩
      rw [LiveResources.guarded_orderly_cons, LiveResources.guarded_orderly_cons,
        LiveResources.guarded_orderly_cons]
      exact ⟨LiveResources.orderly_open hlive _, LiveResources.orderly_mmap hopened _ _,
        LiveResources.orderly_close hle _, trivial⟩

/-! ### Runs -/

namespace State

/-- The mapping that is live is the one of the response, and after `Init` there is none. -/
structure Inv (s : State) : Prop where
  mappings : s.live.mappings = s.response.mapping
  unmapped : s.initialised = true → s.response.mmFile = none

theorem inv_start (fds : List ℕ) :
  (start fds).Inv
  := ⟨rfl, fun _ => rfl⟩

/-- The choice of the file keeps the mapping. -/
theorem mmFile_chooseFile (calls : ResourceCalls) (r : MappedResponse) :
  (r.chooseFile calls).mmFile = r.mmFile
  := by
  apply HttpResponse.mmFile_errorHtml

/-- What `MakeResponse` does after `Init`. -/
theorem Inv.makeResponse {s : State} (h : s.Inv) (hinit : s.initialised = true) (calls : ResourceCalls)
    {buff : Buffer} (hbuff : buff.Inv) :
  ∃ p, s.call (.makeResponse calls buff hbuff) = some p ∧
    Guarded LiveResources.step LiveResources.Orderly s.live p.2 ∧
    (s.live.execAll p.2).mappings = p.1.mapping ∧
    ((s.live.execAll p.2).fds = s.live.fds ↔ ¬ MapFails calls (s.response.chooseFile calls))
  := by
  have hnone : (s.response.chooseFile calls).mmFile = none := by
    rw [mmFile_chooseFile, h.unmapped hinit]
  have hlive : s.live.mappings = [] := by rw [h.mappings, mapping_eq_nil (h.unmapped hinit)]
  obtain ⟨p, buff', code, hcall, hcontent⟩ := makeResponse_content calls s.response hbuff
  refine ⟨p, ?_, hcontent.live hnone hlive⟩
  rw [call, if_pos hinit, hcall]
  rfl

/-- A call is balanced exactly if it does not reach the defect. -/
theorem Inv.balanced_iff {s : State} (h : s.Inv) (c : Call) :
  s.Balanced c ↔ s.Sound c
  := by
  obtain ⟨hfds, horderly, hnone⟩ := s.response.unmapFile_live h.mappings
  cases c with
  | init srcDir path isKeepAlive code =>
      apply iff_of_true _ trivial
      intro r events hcall
      rw [call, init_eq] at hcall
      split at hcall
      · cases hcall
      · obtain ⟨rfl, rfl⟩ := Prod.mk.inj (Option.some.inj hcall)
        exact ⟨hfds, horderly, nofun⟩
  | makeResponse calls buff hbuff =>
      by_cases hinit : s.initialised = true
      · obtain ⟨⟨r, events⟩, hcall, horderly, -, hfds⟩ := h.makeResponse hinit calls hbuff
        rw [Sound, Balanced, ← hfds, hcall]
        constructor
        · intro hbalanced _
          exact (hbalanced r events rfl).1
        · rintro hfds r' events' heq
          obtain ⟨rfl, rfl⟩ := Prod.mk.inj (Option.some.inj heq)
          exact ⟨hfds hinit, horderly, nofun⟩
      · apply iff_of_true _ fun htrue => absurd htrue hinit
        intro r events hcall
        rw [call, if_neg hinit] at hcall
        cases hcall
  | unmapFile =>
      apply iff_of_true _ trivial
      intro r events hcall
      obtain ⟨rfl, rfl⟩ := Prod.mk.inj (Option.some.inj hcall)
      exact ⟨hfds, horderly, fun _ => hnone⟩

theorem Inv.step {s s' : State} {c : Call} (h : s.Inv) (hstep : s.step c = some s') :
  s'.Inv
  := by
  obtain ⟨-, -, hnone⟩ := s.response.unmapFile_live h.mappings
  obtain ⟨⟨r, events⟩, hcall, rfl⟩ := Option.map_eq_some_iff.mp hstep
  cases c with
  | init srcDir path isKeepAlive code =>
      rw [call, init_eq] at hcall
      split at hcall
      · cases hcall
      · obtain ⟨rfl, rfl⟩ := Prod.mk.inj (Option.some.inj hcall)
        exact ⟨hnone, fun _ => rfl⟩
  | makeResponse calls buff hbuff =>
      by_cases hinit : s.initialised = true
      · obtain ⟨p, hcall', -, hmappings, -⟩ := h.makeResponse hinit calls hbuff
        obtain rfl := Option.some.inj (hcall'.symm.trans hcall)
        exact ⟨hmappings, nofun⟩
      · rw [call, if_neg hinit] at hcall
        cases hcall
  | unmapFile =>
      have hfile := s.response.mmFile_unmapFile
      have hcall' : s.response.unmapFile = (r, events) := Option.some.inj hcall
      rw [hcall'] at hnone hfile
      exact ⟨hnone.trans (mapping_eq_nil hfile).symm, fun _ => hfile⟩

/-- In a run all calls are balanced exactly if no `MakeResponse` has a file to send that cannot be mapped. -/
theorem run_balanced_iff (fds : List ℕ) (calls : List Call) :
  Guarded step Balanced (start fds) calls ↔ Guarded step Sound (start fds) calls
  := by
  apply guarded_congr Inv
  · intro s c h
    apply h.balanced_iff
  · intro s c s' h _ hstep
    apply h.step hstep
  · apply inv_start

/-- A file of five bytes that can be read and opened, and cannot be mapped. -/
def unmappable : ResourceCalls where
  stat _ := some ⟨0o100644, 5⟩
  restat _ := none
  opens _ := true
  mmap _ _ := none
  fd := 7
  address := 0

/-- If the file cannot be mapped, its descriptor stays open. -/
theorem descriptor_left_open :
  ¬ ∀ (fds : List ℕ) (calls : List Call), Guarded step Balanced (start fds) calls
  := by
  intro h
  have hbuff : (Buffer.new 1).Inv := Buffer.new_inv le_rfl
  have hinit : (start []).step (.init (ascii "/srv") (ascii "/a") false 200) = some _ := rfl
  have hsecond := ((h [] [.init (ascii "/srv") (ascii "/a") false 200,
    .makeResponse unmappable (Buffer.new 1) hbuff]).2 _ hinit).1
  rw [((inv_start []).step hinit).balanced_iff] at hsecond
  apply hsecond rfl ⟨rfl, by decide, rfl⟩

end State

end MappedResponse

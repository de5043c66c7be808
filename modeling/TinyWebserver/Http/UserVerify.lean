import TinyWebserver.Base.Bytes
import TinyWebserver.Lib.Transition

/-!
# Login and registration

The function `HttpRequest::UserVerify` of `http/httprequest.cpp`, called by any number of threads. Its
statements are single steps in the database, a table of user names and passwords, and each of them may
fail. A registration looks for the name, and inserts it if it has not found it. A statement that is not
refused does here what it is meant to do, with names compared byte by byte; whether the database reads the
text that is sent so is a question about its bytes, which `Http.SqlText` answers.

The flag that is returned is set to true behind a failed `INSERT` too, so a registration may report success
though nothing was stored, `failed_insert`. In every run the registrations report the truth, and no name
that was not in the table at the start is registered twice, exactly if every `INSERT` succeeds and finds
that the name is not in the table yet, `run_truthful_iff`.
-/

universe u

namespace UserVerify

open Transition

/-- A row of the table `user`: the name and the password. -/
abbrev Row := List Byte × List Byte

/-- The arguments of a call. -/
structure Call where
  name : List Byte
  pwd : List Byte
  isLogin : Bool
deriving DecidableEq

/-- How the `SELECT` ends: `Query` returns the null pointer, the row is lost while it is fetched, which
looks like the end of the rows, or the row that was found is fetched. -/
inductive Selected where
  | failed
  | lost
  | fetched
deriving DecidableEq

/-- The rows that the `SELECT` is meant to find, at most one. -/
def select (table : List Row) (name : List Byte) : List Row :=
  (table.filter fun row => row.1 = name).take 1

/-- The flag behind the loop over the rows. -/
def fetchRows (call : Call) (rows : List Row) : Bool :=
  rows.foldl (fun _ row => if call.isLogin then call.pwd = row.2 else false) !call.isLogin

/-- The flag behind the `INSERT`: the branch for a failed one sets it to false, and the assignment behind
that branch sets it to true again. -/
def flagInserted (_ok : Bool) : Bool := true

/-- Where a call is: it sends the `SELECT`, or the `INSERT`. -/
inductive Phase where
  | selecting (call : Call)
  | inserting (call : Call)
deriving DecidableEq

/-- A call that has returned, with its result, and whether it has inserted a row. -/
structure Outcome where
  call : Call
  inserted : Bool
  result : Bool
deriving DecidableEq

/-- The table at the start and now, the calls of the threads, and those that have returned. -/
structure State (T : Type u) where
  initial : List Row
  table : List Row
  phase : T → Option Phase
  log : List Outcome

/-- A step: a thread calls the function, or sends one of its statements. -/
inductive Step (T : Type u) where
  | call (thread : T) (call : Call)
  | select (thread : T) (selected : Selected)
  | insert (thread : T) (ok : Bool)

variable {T : Type u} [DecidableEq T]

/-- The thread returns from the function. -/
def State.done (s : State T) (thread : T) (outcome : Outcome) : State T :=
  { s with phase := Function.update s.phase thread none, log := s.log ++ [outcome] }

/-- The thread goes on. -/
def State.goto (s : State T) (thread : T) (phase : Phase) : State T :=
  { s with phase := Function.update s.phase thread (some phase) }

/-- Behind the `SELECT`, with the rows that were fetched. -/
def State.verify (s : State T) (thread : T) (call : Call) (rows : List Row) : State T :=
  let flag := fetchRows call rows
  if !call.isLogin && flag then s.goto thread (.inserting call) else s.done thread ⟨call, false, flag⟩

/-- One step. The statements have their intended meaning, and `Query` gives a result or fails. -/
def step (s : State T) : Step T → Option (State T)
  | .call thread call =>
      match s.phase thread with
      | none =>
          if call.name = [] ∨ call.pwd = [] then some (s.done thread ⟨call, false, false⟩)
          else some (s.goto thread (.selecting call))
      | some _ => none
  | .select thread selected =>
      match s.phase thread with
      | some (.selecting call) =>
          match selected with
          | .failed => some (s.done thread ⟨call, false, false⟩)
          | .lost => some (s.verify thread call [])
          | .fetched => some (s.verify thread call (select s.table call.name))
      | _ => none
  | .insert thread ok =>
      match s.phase thread with
      | some (.inserting call) =>
          let inserted := if ok then s.table ++ [(call.name, call.pwd)] else s.table
          some ({ s with table := inserted }.done thread ⟨call, ok, flagInserted ok⟩)
      | _ => none

/-- The state before the first call. -/
def start (table : List Row) : State T := ⟨table, table, fun _ => none, []⟩

/-! ### The steps, read backwards -/

variable {s s' : State T}

/-- A call returns that has not inserted anything, and reports no registration. -/
def Outcome.Idle (o : Outcome) : Prop :=
  o.inserted = false ∧ (o.call.isLogin = false → o.result = false)

theorem verify_cases (s : State T) (thread : T) (call : Call) (rows : List Row) :
  (call.isLogin = false ∧ s.verify thread call rows = s.goto thread (.inserting call)) ∨
    ∃ o : Outcome, o.Idle ∧ s.verify thread call rows = s.done thread o
  := by
  rw [State.verify]
  split
  · rename_i hflag
    left
    simp_all
  · rename_i hflag
    refine Or.inr ⟨_, ⟨rfl, ?_⟩, rfl⟩
    rintro (hregister : call.isLogin = false)
    simpa [hregister] using hflag

/-- A thread goes on, and sends an `INSERT` only for a registration, or returns without one, or sends the
`INSERT` and returns. -/
theorem step_cases {l : Step T} (h : step s l = some s') :
  ((∀ thread ok, l ≠ .insert thread ok) ∧
      ((∃ thread phase, (∀ call, phase = .inserting call → call.isLogin = false) ∧
          s' = s.goto thread phase) ∨
        ∃ thread, ∃ o : Outcome, o.Idle ∧ s' = s.done thread o)) ∨
    ∃ thread ok call, l = .insert thread ok ∧ s.phase thread = some (.inserting call) ∧
      s' = { s with table := if ok then s.table ++ [(call.name, call.pwd)] else s.table }.done thread
        ⟨call, ok, true⟩
  := by
  cases l with
  | call thread call =>
      refine Or.inl ⟨by simp, ?_⟩
      rw [step] at h
      split at h
      · split at h
        · exact Or.inr ⟨thread, _, ⟨rfl, fun _ => rfl⟩, (Option.some.inj h).symm⟩
        · exact Or.inl ⟨thread, _, by simp, (Option.some.inj h).symm⟩
      · simp at h
  | select thread selected =>
      refine Or.inl ⟨by simp, ?_⟩
      have hverify : ∀ call rows, s' = s.verify thread call rows →
          (∃ thread phase, (∀ call, phase = .inserting call → call.isLogin = false) ∧
            s' = s.goto thread phase) ∨ ∃ thread, ∃ o : Outcome, o.Idle ∧ s' = s.done thread o := by
        rintro call rows rfl
        obtain ⟨hregister, heq⟩ | ⟨o, hidle, heq⟩ := verify_cases s thread call rows
        · refine Or.inl ⟨thread, _, ?_, heq⟩
          rintro call' hphase
          obtain rfl : call = call' := by simpa using hphase
          apply hregister
        · exact Or.inr ⟨thread, o, hidle, heq⟩
      rw [step] at h
      split at h
      · cases selected with
        | failed => exact Or.inr ⟨thread, _, ⟨rfl, fun _ => rfl⟩, (Option.some.inj h).symm⟩
        | lost => apply hverify _ _ (Option.some.inj h).symm
        | fetched => apply hverify _ _ (Option.some.inj h).symm
      · simp at h
  | insert thread ok =>
      right
      rw [step] at h
      split at h
      · rename_i call hphase
        refine ⟨thread, ok, call, rfl, hphase, ?_⟩
        rw [← Option.some.inj h]
        simp [flagInserted]
      · simp at h

/-! ### What the registrations report -/

/-- The names of the rows. -/
def names (table : List Row) : List (List Byte) := table.map Prod.fst

/-- A registration of the name has returned true. -/
def Outcome.registers (name : List Byte) (o : Outcome) : Bool :=
  !o.call.isLogin && decide (o.call.name = name) && o.result

/-- A registration returns true exactly if it has inserted its row, and for each name that was not in the
table at the start at most one of them does. -/
structure Truthful (initial : List Row) (log : List Outcome) : Prop where
  reports : ∀ o ∈ log, o.call.isLogin = false → (o.result = true ↔ o.inserted = true)
  once : ∀ name ∉ names initial, log.countP (Outcome.registers name) ≤ 1

/-- An `INSERT` succeeds, and its name is not in the table yet, or was there at the start. -/
def Inserts (s : State T) : Step T → Prop
  | .insert thread ok =>
      ∀ call, s.phase thread = some (.inserting call) →
        ok = true ∧ (call.name ∈ names s.initial ∨ call.name ∉ names s.table)
  | _ => True

instance Inserts.decidable (s : State T) : ∀ l, Decidable (Inserts s l)
  | .insert thread ok =>
      match h : s.phase thread with
      | some (.inserting call) =>
          decidable_of_iff
            (ok = true ∧ ((names s.initial).contains call.name ∨ !(names s.table).contains call.name))
            (by simp [Inserts, h])
      | some (.selecting _) => isTrue (by simp [Inserts, h])
      | none => isTrue (by simp [Inserts, h])
  | .call _ _ | .select _ _ => inferInstanceAs (Decidable True)

/-- The table has the rows from the start and those that were inserted, by registrations. -/
structure Inv (s : State T) : Prop where
  rows : ∀ name, name ∈ names s.table ↔ name ∈ names s.initial ∨
    ∃ o ∈ s.log, o.call.isLogin = false ∧ o.inserted = true ∧ o.call.name = name
  inserting : ∀ thread call, s.phase thread = some (.inserting call) → call.isLogin = false

omit [DecidableEq T] in
theorem start_inv (table : List Row) :
  Inv (start table : State T)
  := ⟨by simp [start], by simp [start]⟩

theorem Inv.goto (h : Inv s) (thread : T) {phase : Phase}
    (hphase : ∀ call, phase = .inserting call → call.isLogin = false) :
  Inv (s.goto thread phase)
  := by
  refine ⟨h.rows, ?_⟩
  intro thread' call hcall
  simp only [State.goto, Function.update_apply] at hcall
  split at hcall
  · apply hphase call (Option.some.inj hcall)
  · apply h.inserting thread' call hcall

/-- A call returns, with a table that has the row it has inserted. -/
theorem Inv.done (h : Inv s) (thread : T) {table : List Row} {o : Outcome}
    (htable : ∀ name, name ∈ names table ↔
      name ∈ names s.table ∨ o.call.isLogin = false ∧ o.inserted = true ∧ o.call.name = name) :
  Inv ({ s with table := table }.done thread o)
  := by
  constructor
  · intro name
    simp only [State.done, List.mem_append, List.mem_singleton]
    rw [htable, h.rows]
    constructor
    · rintro ((hinitial | ⟨o', ho', hinserted⟩) | hinserted)
      · exact Or.inl hinitial
      · exact Or.inr ⟨o', Or.inl ho', hinserted⟩
      · exact Or.inr ⟨o, Or.inr rfl, hinserted⟩
    · rintro (hinitial | ⟨o', ho' | rfl, hinserted⟩)
      · exact Or.inl (Or.inl hinitial)
      · exact Or.inl (Or.inr ⟨o', ho', hinserted⟩)
      · exact Or.inr hinserted
  · intro thread' call hcall
    simp only [State.done, Function.update_apply] at hcall
    split at hcall
    · simp at hcall
    · apply h.inserting thread' call hcall

theorem Inv.step (h : Inv s) {l : Step T} (hstep : step s l = some s') :
  Inv s'
  := by
  obtain ⟨-, ⟨thread, phase, hphase, rfl⟩ | ⟨thread, o, ⟨hinserted, -⟩, rfl⟩⟩ |
    ⟨thread, ok, call, -, hphase, rfl⟩ := step_cases hstep
  · apply h.goto thread hphase
  · apply h.done thread
    simp [hinserted]
  · apply h.done thread
    intro name
    have hregister := h.inserting thread call hphase
    cases ok with
    | true => simp [names, hregister, eq_comm]
    | false => simp

/-- A call that has not inserted anything does not change what the registrations report. -/
theorem truthful_idle {initial : List Row} {log : List Outcome} {o : Outcome} (hidle : o.Idle) :
  Truthful initial (log ++ [o]) ↔ Truthful initial log
  := by
  obtain ⟨hinserted, hresult⟩ := hidle
  have hcount : ∀ name, (log ++ [o]).countP (Outcome.registers name)
      = log.countP (Outcome.registers name) := by
    intro name
    have hnot : o.registers name = false := by
      cases hlogin : o.call.isLogin with
      | true => simp [Outcome.registers, hlogin]
      | false => simp [Outcome.registers, hresult hlogin]
    simp [List.countP_append, hnot]
  constructor
  · intro h
    refine ⟨fun o' ho' => h.reports o' (List.mem_append_left _ ho'), ?_⟩
    intro name hname
    rw [← hcount]
    apply h.once name hname
  · intro h
    constructor
    · intro o' ho' hregister
      rcases List.mem_append.mp ho' with ho' | ho'
      · apply h.reports o' ho' hregister
      · obtain rfl := List.mem_singleton.mp ho'
        simp [hinserted, hresult hregister]
    · intro name hname
      rw [hcount]
      apply h.once name hname

/-- A registration that reports success tells the truth exactly if its `INSERT` has succeeded, and no other
one has reported success for a name that is new. -/
theorem truthful_insert {initial : List Row} {log : List Outcome} {call : Call} {ok : Bool}
    (hregister : call.isLogin = false) :
  Truthful initial (log ++ [⟨call, ok, true⟩]) ↔ Truthful initial log ∧ ok = true ∧
    (call.name ∈ names initial ∨ log.countP (Outcome.registers call.name) = 0)
  := by
  have hcount : ∀ name, (log ++ [Outcome.mk call ok true]).countP (Outcome.registers name)
      = log.countP (Outcome.registers name) + if call.name = name then 1 else 0 := by
    intro name
    simp [List.countP_append, List.countP_cons, Outcome.registers, hregister]
  constructor
  · intro h
    refine ⟨⟨fun o ho => h.reports o (List.mem_append_left _ ho), ?_⟩, ?_, ?_⟩
    · intro name hname
      have honce := h.once name hname
      rw [hcount] at honce
      omega
    · exact (h.reports ⟨call, ok, true⟩ (by simp) hregister).mp rfl
    · rw [or_iff_not_imp_left]
      intro hname
      have honce := h.once call.name hname
      rw [hcount, if_pos rfl] at honce
      omega
  · rintro ⟨h, rfl, hnew⟩
    constructor
    · intro o ho hlogin
      rcases List.mem_append.mp ho with ho | ho
      · apply h.reports o ho hlogin
      · obtain rfl := List.mem_singleton.mp ho
        simp
    · intro name hname
      rw [hcount]
      have honce := h.once name hname
      split
      · rename_i heq
        subst heq
        rcases hnew with hold | hzero
        · exact absurd hold hname
        · omega
      · omega

omit [DecidableEq T] in
/-- If the registrations so far have told the truth, a new name is in the table exactly if one of them has
reported success for it. -/
theorem Inv.countP_eq_zero_iff (h : Inv s) (htruthful : Truthful s.initial s.log) {name : List Byte}
    (hname : name ∉ names s.initial) :
  s.log.countP (Outcome.registers name) = 0 ↔ name ∉ names s.table
  := by
  rw [List.countP_eq_zero, h.rows]
  simp only [hname, false_or, not_exists, not_and]
  constructor
  · intro hnone o ho hregister hinserted heq
    apply hnone o ho
    simp [Outcome.registers, hregister, heq, (htruthful.reports o ho hregister).mpr hinserted]
  · intro hnone o ho hregisters
    simp only [Outcome.registers, Bool.and_eq_true, Bool.not_eq_true', decide_eq_true_eq] at hregisters
    obtain ⟨⟨hregister, heq⟩, hresult⟩ := hregisters
    apply hnone o ho hregister ((htruthful.reports o ho hregister).mp hresult) heq

theorem truthful_step (h : Inv s) {l : Step T} (hstep : step s l = some s') :
  Truthful s'.initial s'.log ↔ Truthful s.initial s.log ∧ Inserts s l
  := by
  obtain ⟨hother, hcases⟩ | ⟨thread, ok, call, rfl, hphase, rfl⟩ := step_cases hstep
  · have hinserts : Inserts s l := by
      cases l with
      | insert thread ok => exact absurd rfl (hother thread ok)
      | call thread call => trivial
      | select thread selected => trivial
    obtain ⟨thread, phase, -, rfl⟩ | ⟨thread, o, hidle, rfl⟩ := hcases
    · simp [State.goto, hinserts]
    · simp [State.done, truthful_idle hidle, hinserts]
  · have hregister := h.inserting thread call hphase
    have hinserts : Inserts s (.insert thread ok) ↔
        ok = true ∧ (call.name ∈ names s.initial ∨ call.name ∉ names s.table) := by
      simp [Inserts, hphase]
    rw [hinserts]
    simp only [State.done]
    rw [truthful_insert hregister]
    apply and_congr_right
    intro htruthful
    apply and_congr_right
    intro _
    by_cases hname : call.name ∈ names s.initial
    · simp [hname]
    · rw [h.countP_eq_zero_iff htruthful hname]

theorem initial_of_run {table : List Row} {ls : List (Step T)}
    (h : run step (start table) ls = some s) :
  s.initial = table
  := by
  have hstep : ∀ (s : State T) l s', s.initial = table → step s l = some s' → s'.initial = table := by
    intro s l s' hs hstep
    obtain ⟨-, ⟨thread, phase, -, rfl⟩ | ⟨thread, o, -, rfl⟩⟩ | ⟨thread, ok, call, -, -, rfl⟩ :=
      step_cases hstep
    · apply hs
    · apply hs
    · apply hs
  apply run_invariant hstep rfl h

/-- In every run from a table, the registrations report the truth, and no name that is not in the table is
registered twice, exactly if every `INSERT` succeeds and its name is not in the table then, unless it was
there at the start. -/
theorem run_truthful_iff {table : List Row} {ls : List (Step T)}
    (h : run step (start table) ls = some s) :
  Truthful table s.log ↔ Guarded step Inserts (start table) ls
  := by
  have hInv : ∀ (s : State T) l s', Inv s → step s l = some s' → Inv s' := fun _ _ _ hs => hs.step
  have hstart : Truthful (start table : State T).initial (start table : State T).log :=
    ⟨by simp [start], by simp [start]⟩
  have hiff := run_guarded_iff (P := fun s : State T => Truthful s.initial s.log) hInv
    (fun _ _ _ hs => truthful_step hs) (start_inv table) h
  rw [initial_of_run h] at hiff
  apply hiff.trans (and_iff_right hstart)

/-- Two threads register the same name, one after the other. -/
def oneAfterTheOther : List (Step Bool) :=
  [.call false ⟨ascii "ann", ascii "x", false⟩, .select false .fetched, .insert false true,
    .call true ⟨ascii "ann", ascii "y", false⟩, .select true .fetched]

theorem run_truthful_iff_oneAfterTheOther :
  ∃ s, run step (start []) oneAfterTheOther = some s ∧
    s.log = [⟨⟨ascii "ann", ascii "x", false⟩, true, true⟩,
      ⟨⟨ascii "ann", ascii "y", false⟩, false, false⟩] ∧ Truthful [] s.log
  := by
  have hrun : (run step (start []) oneAfterTheOther).map State.log
      = some [⟨⟨ascii "ann", ascii "x", false⟩, true, true⟩,
        ⟨⟨ascii "ann", ascii "y", false⟩, false, false⟩] := by decide
  obtain ⟨s, hs, hlog⟩ := Option.map_eq_some_iff.mp hrun
  refine ⟨s, hs, hlog, ?_⟩
  rw [run_truthful_iff hs]
  decide

/-- The `INSERT` of a registration fails, and it returns true. -/
theorem failed_insert :
  ∃ s : State Bool, run step (start []) [.call false ⟨ascii "ann", ascii "x", false⟩,
      .select false .fetched, .insert false false] = some s ∧
    s.table = [] ∧ ∃ o ∈ s.log, o.inserted = false ∧ o.result = true ∧ ¬ Truthful [] s.log
  := by
  refine ⟨_, rfl, rfl, ⟨⟨ascii "ann", ascii "x", false⟩, false, true⟩, by decide, rfl, rfl, ?_⟩
  intro htruthful
  have hiff := htruthful.reports ⟨⟨ascii "ann", ascii "x", false⟩, false, true⟩ (by decide) rfl
  simp at hiff

end UserVerify

import TinyWebserver.Http.SqlText
import TinyWebserver.Http.UserVerify
import TinyWebserver.Lib.Atomic

/-!
# Accounts

What `UserVerify` is for: the accounts of the users, a name having at most one password. A registration makes
an account for a name that has none, a login asks for the password of one, and both are atomic. The function
sends a `SELECT` and an `INSERT`, and the statements of other calls may come between them.

`run_atomic`: as long as the database answers, reads the statements as they are meant, and gets no `INSERT`
for a name that has got a row since its `SELECT`, the results of all calls, in any number of threads, are
those of the atomic accounts, in the order of their last statements, and the table has the same accounts.
-/

universe u

namespace UserVerify

open Transition Atomic Literals

/-- The password of each name that has an account. -/
abbrev Accounts := List Byte → Option (List Byte)

/-- The call is granted: a login with the password of the account, or a registration of a name without
one. -/
def Grants (a : Accounts) (call : Call) : Prop :=
  call.name ≠ [] ∧ call.pwd ≠ [] ∧ a call.name = if call.isLogin then some call.pwd else none

instance (a : Accounts) (call : Call) : Decidable (Grants a call) := inferInstanceAs (Decidable (_ ∧ _))

/-- A call, taken at once. -/
def answer (a : Accounts) (call : Call) : Accounts × Bool :=
  (if Grants a call ∧ call.isLogin = false then Function.update a call.name (some call.pwd) else a,
    decide (Grants a call))

/-- The accounts of a table: the first row of a name counts. -/
def accounts (table : List Row) : Accounts := fun name => (select table name).head?.map Prod.snd

/-- The calls that have returned, with their results. -/
def results (log : List Outcome) : List (Call × Bool) := log.map fun o => (o.call, o.result)

variable {T : Type u} [DecidableEq T]

/-- The texts of a call, if it sends any, are read as the statements that are meant. -/
def Meant (call : Call) : Prop :=
  call.name = [] ∨ call.pwd = [] ∨
    tokens mysql .outside (selectOrder call.name) = selectTokens call.name ∧
      (call.isLogin = false →
        tokens mysql .outside (insertOrder call.name call.pwd) = insertTokens call.name call.pwd)

instance (call : Call) : Decidable (Meant call) := inferInstanceAs (Decidable (_ ∨ _ ∨ _ ∧ (_ → _)))

/-- The database answers, it reads the statements as they are meant, and the name of an `INSERT` has no row
yet. -/
def Answers (s : State T) : Step T → Prop
  | .call _ call => Meant call
  | .select _ selected => selected = .fetched
  | .insert thread ok =>
      ∀ call, s.phase thread = some (.inserting call) → ok = true ∧ call.name ∉ names s.table

instance Answers.decidable (s : State T) : ∀ l, Decidable (Answers s l)
  | .call _ call => inferInstanceAs (Decidable (Meant call))
  | .select _ selected => inferInstanceAs (Decidable (selected = .fetched))
  | .insert thread ok =>
      match h : s.phase thread with
      | some (.inserting call) =>
          decidable_of_iff (ok = true ∧ !(names s.table).contains call.name) (by simp [Answers, h])
      | some (.selecting _) => isTrue (by simp [Answers, h])
      | none => isTrue (by simp [Answers, h])

/-! ### The table -/

variable {table : List Row} {name pwd : List Byte}

theorem accounts_eq_none_iff :
  accounts table name = none ↔ name ∉ names table
  := by
  rw [accounts, Option.map_eq_none_iff, select, List.head?_take, if_neg Nat.one_ne_zero,
    List.head?_eq_none_iff, List.filter_eq_nil_iff]
  constructor
  · intro h hmem
    obtain ⟨row, hrow, rfl⟩ := List.mem_map.mp hmem
    exact h row hrow (by simp)
  · intro h row hrow hname
    apply h
    rw [← of_decide_eq_true hname]
    apply List.mem_map_of_mem hrow

/-- A row for a name that has none makes its account. -/
theorem accounts_insert (h : name ∉ names table) :
  accounts (table ++ [(name, pwd)]) = Function.update (accounts table) name (some pwd)
  := by
  funext name'
  rw [accounts, select, List.filter_append, List.head?_take]
  by_cases hname : name' = name
  · subst hname
    have hnone : (table.filter fun row => row.1 = name') = [] := by
      rw [List.filter_eq_nil_iff]
      rintro row hrow hname
      apply h
      rw [← of_decide_eq_true hname]
      apply List.mem_map_of_mem hrow
    simp [hnone]
  · have hother : ¬ name = name' := fun h => hname h.symm
    rw [Function.update_of_ne hname, accounts, select, List.head?_take]
    simp [hother]

/-- What the loop over the rows makes of the flag. -/
theorem fetchRows_select (call : Call) :
  fetchRows call (select table call.name)
    = decide (accounts table call.name = if call.isLogin then some call.pwd else none)
  := by
  have hlength : (select table call.name).length ≤ 1 := List.length_take_le _ _
  rw [accounts]
  generalize select table call.name = rows at hlength
  match rows with
  | [] => cases hlogin : call.isLogin <;> simp [fetchRows, hlogin]
  | [row] => cases hlogin : call.isLogin <;> simp [fetchRows, hlogin, eq_comm]
  | _ :: _ :: _ => simp at hlength

/-! ### Runs -/

variable {s s' : State T}

/-- The calls that have returned replay from the accounts of the start to those of the table, and a call
that sends a statement has a name and a password, and is a registration if it sends an `INSERT`. -/
structure Replays (s : State T) : Prop where
  replay : replay answer (accounts s.initial) (results s.log) = some (accounts s.table)
  selecting : ∀ thread call, s.phase thread = some (.selecting call) → call.name ≠ [] ∧ call.pwd ≠ []
  inserting : ∀ thread call, s.phase thread = some (.inserting call) →
    call.name ≠ [] ∧ call.pwd ≠ [] ∧ call.isLogin = false

omit [DecidableEq T] in
theorem start_replays (table : List Row) :
  Replays (start table : State T)
  := ⟨rfl, by simp [start], by simp [start]⟩

/-- A thread sends a statement. -/
theorem Replays.goto (h : Replays s) (thread : T) {phase : Phase}
    (hselecting : ∀ call, phase = .selecting call → call.name ≠ [] ∧ call.pwd ≠ [])
    (hinserting : ∀ call, phase = .inserting call →
      call.name ≠ [] ∧ call.pwd ≠ [] ∧ call.isLogin = false) :
  Replays (s.goto thread phase)
  := by
  refine ⟨h.replay, ?_, ?_⟩
  · intro thread' call hcall
    simp only [State.goto, Function.update_apply] at hcall
    split at hcall
    · apply hselecting call (Option.some.inj hcall)
    · apply h.selecting thread' call hcall
  · intro thread' call hcall
    simp only [State.goto, Function.update_apply] at hcall
    split at hcall
    · apply hinserting call (Option.some.inj hcall)
    · apply h.inserting thread' call hcall

/-- A thread returns with the result of the atomic accounts. -/
theorem Replays.done (h : Replays s) (thread : T) {table : List Row} {o : Outcome}
    (hresult : (answer (accounts s.table) o.call).2 = o.result)
    (htable : (answer (accounts s.table) o.call).1 = accounts table) :
  Replays ({ s with table := table }.done thread o)
  := by
  have hreplay := replay_concat answer h.replay hresult
  refine ⟨?_, ?_, ?_⟩
  · rw [htable] at hreplay
    simpa [State.done, results] using hreplay
  · intro thread' call hcall
    simp only [State.done, Function.update_apply] at hcall
    split at hcall
    · cases hcall
    · apply h.selecting thread' call hcall
  · intro thread' call hcall
    simp only [State.done, Function.update_apply] at hcall
    split at hcall
    · cases hcall
    · apply h.inserting thread' call hcall

/-- A call that is not granted, or a login. -/
theorem Replays.refused (h : Replays s) (thread : T) {o : Outcome}
    (hresult : o.result = decide (Grants (accounts s.table) o.call))
    (hkept : o.call.isLogin = true ∨ o.result = false) :
  Replays (s.done thread o)
  := by
  have hsame : (answer (accounts s.table) o.call).1 = accounts s.table := by
    rw [answer, if_neg]
    rintro ⟨hgrants, hregister⟩
    obtain hlogin | hfalse := hkept
    · simp [hlogin] at hregister
    · rw [hfalse, eq_comm, decide_eq_false_iff_not] at hresult
      exact hresult hgrants
  exact h.done thread hresult.symm hsame

/-- Behind a `SELECT` that was answered. -/
theorem Replays.verify (h : Replays s) {thread : T} {call : Call}
    (hcall : call.name ≠ [] ∧ call.pwd ≠ []) :
  Replays (s.verify thread call (select s.table call.name))
  := by
  have hflag : fetchRows call (select s.table call.name) = decide (Grants (accounts s.table) call) := by
    rw [fetchRows_select]
    simp [Grants, hcall]
  rw [State.verify]
  split
  · rename_i hinsert
    have hregister : call.isLogin = false := by
      rw [Bool.and_eq_true, Bool.not_eq_true'] at hinsert
      apply hinsert.1
    apply h.goto thread (by simp)
    rintro call' hphase
    obtain rfl := Phase.inserting.inj hphase
    exact ⟨hcall.1, hcall.2, hregister⟩
  · rename_i hreturn
    apply h.refused thread hflag
    cases hlogin : call.isLogin with
    | true => exact Or.inl rfl
    | false =>
        right
        simpa [hlogin] using hreturn

theorem Replays.step (h : Replays s) {l : Step T} (hok : Answers s l) (hstep : step s l = some s') :
  Replays s'
  := by
  cases l with
  | call thread call =>
      rw [UserVerify.step] at hstep
      split at hstep
      · split at hstep
        · rename_i hempty
          obtain rfl := Option.some.inj hstep
          apply h.refused thread _ (Or.inr rfl)
          rw [eq_comm, decide_eq_false_iff_not]
          rintro ⟨hname, hpwd, -⟩
          exact hempty.elim hname hpwd
        · rename_i hempty
          obtain rfl := Option.some.inj hstep
          apply h.goto thread _ (by simp)
          intro call' hphase
          obtain rfl := Phase.selecting.inj hphase
          exact not_or.mp hempty
      · cases hstep
  | select thread selected =>
      obtain rfl : selected = .fetched := hok
      rw [UserVerify.step] at hstep
      split at hstep
      · rename_i call hphase
        obtain rfl := Option.some.inj hstep
        apply h.verify (h.selecting thread call hphase)
      · cases hstep
  | insert thread ok =>
      rw [UserVerify.step] at hstep
      split at hstep
      · rename_i call hphase
        obtain ⟨rfl, hname⟩ := hok call hphase
        obtain rfl := Option.some.inj hstep
        obtain ⟨hne, hpwd, hregister⟩ := h.inserting thread call hphase
        have hgrants : Grants (accounts s.table) call := by
          refine ⟨hne, hpwd, ?_⟩
          rw [hregister]
          apply accounts_eq_none_iff.mpr hname
        apply h.done thread
        · simp [answer, hgrants, flagInserted]
        · rw [answer, if_pos ⟨hgrants, hregister⟩, if_pos rfl, accounts_insert hname]
      · cases hstep

/-- In every run in which the database answers, reads the statements as they are meant and gets every `INSERT`
for a name without a row, the calls that have returned have the results that atomic accounts give, in the
order of their last statements, and the table has these accounts. -/
theorem run_atomic {table : List Row} {ls : List (Step T)}
    (hok : Guarded UserVerify.step Answers (start table) ls) (h : run UserVerify.step (start table) ls = some s) :
  replay answer (accounts table) (results s.log) = some (accounts s.table)
  := by
  have hreplays := run_guarded_invariant (fun _ _ _ hs hok hstep => Replays.step hs hok hstep)
    (start_replays table) hok h
  rw [← initial_of_run h]
  apply hreplays.replay

/-- Two registrations of a name: the second one looks for it while the first one is under way, and a login
comes between them. -/
def overlapping : List (Step Bool) :=
  [.call false ⟨ascii "ann", ascii "x", false⟩, .call true ⟨ascii "ann", ascii "y", false⟩,
    .select false .fetched, .insert false true, .select true .fetched,
    .call false ⟨ascii "ann", ascii "x", true⟩, .select false .fetched]

theorem run_atomic_overlapping :
  ∃ s, run UserVerify.step (start []) overlapping = some s ∧
    replay answer (accounts []) (results s.log) = some (accounts s.table)
  := by
  have hsome : (run UserVerify.step (start []) overlapping).isSome = true := by decide
  obtain ⟨s, hs⟩ := Option.isSome_iff_exists.mp hsome
  exact ⟨s, hs, run_atomic (by decide +kernel) hs⟩

end UserVerify

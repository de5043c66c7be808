import TinyWebserver.Base.Bytes
import TinyWebserver.Lib.Transition

/-!
# The connection pool

The class `ConnectionPool` of `db/ConnectionPool.cpp`: consumers take connections out of a queue and
put them back when the last pointer to them goes, a producer adds connections while there are too few
in the queue, and a scanner deletes those that were in the queue for too long. Each of these is one
step, under the mutex. A connection is named by its number in the order of creation. The times of the
steady clock are arguments, in nanoseconds, and so are the results of `mysql_real_connect`.

In every run each connection is in one place, the queue or with a consumer, the counter is the number
of all connections and stays between the bounds, and no connection is handed out after it was deleted,
`run_pool_accounted`.
-/

universe u

/-- The handle of a connection: the null pointer, or one from `mysql_init` or from
`mysql_real_connect`. -/
inductive Handle where
  | null
  | initialised
  | connected
deriving DecidableEq, Repr

/-- The class `Connection`, as far as the pool sees it. -/
structure Connection where
  id : ℕ
  conn : Handle
  aliveTime : ℕ
deriving DecidableEq, Repr

namespace Connection

/-- The constructor. -/
def new (id : ℕ) : Connection := ⟨id, .initialised, 0⟩

/-- `Connect`, where `ok` says whether `mysql_real_connect` has returned a handle. -/
def connect (c : Connection) (ok : Bool) : Bool × Connection :=
  (ok, { c with conn := if ok then .connected else .null })

/-- `RefreshAliveTime`. -/
def refreshAliveTime (c : Connection) (now : ℕ) : Connection := { c with aliveTime := now }

/-- `GetAliveTime`, in microseconds, converted to `size_t`. -/
def getAliveTime (c : Connection) (now : ℕ) : ℕ :=
  (((now : ℤ) - c.aliveTime).tdiv 1000 % 2 ^ 64).toNat

end Connection

/-- The class `ConnectionPool`, less the name and the password of the database, with the number of
connections made so far. -/
structure ConnectionPool where
  minSize : ℕ
  maxSize : ℕ
  maxIdleTime : ℕ
  connectionQueue : List Connection
  connectionCount : ℤ
  isShutdown : Bool
  created : ℕ

namespace ConnectionPool

open Transition

/-- `AddConnection`, which does not look at what `Connect` returns. The counter is an `atomic_int`. -/
def addConnection (p : ConnectionPool) (ok : Bool) (now : ℕ) : ConnectionPool :=
  let (_, conn) := (Connection.new p.created).connect ok
  { p with
    connectionQueue := p.connectionQueue ++ [conn.refreshAliveTime now]
    connectionCount := Int.bmod (p.connectionCount + 1) (2 ^ 32)
    created := p.created + 1 }

/-- The first calls of `AddConnection`, in the loop of the constructor. -/
def addConnections (p : ConnectionPool) (oks : ℕ → Bool) (now : ℕ → ℕ) : ℕ → ConnectionPool
  | 0 => p
  | n + 1 => (p.addConnections oks now n).addConnection (oks n) (now n)

/-- The pool before the first call of `AddConnection`, of the static object, whose counter was zero. -/
def empty (minSize maxSize maxIdleTime : ℕ) : ConnectionPool :=
  { minSize := minSize, maxSize := maxSize, maxIdleTime := maxIdleTime, connectionQueue := [],
    connectionCount := 0, isShutdown := false, created := 0 }

/-- The constructor. -/
def new (minSize maxSize maxIdleTime : ℕ) (oks : ℕ → Bool) (now : ℕ → ℕ) : ConnectionPool :=
  (empty minSize maxSize maxIdleTime).addConnections oks now minSize

/-- `GetConnection`, behind the loop that waits until the queue is not empty. -/
def getConnection (p : ConnectionPool) : Option (Connection × ConnectionPool) :=
  match p.connectionQueue with
  | [] => none
  | conn :: rest => some (conn, { p with connectionQueue := rest })

/-- The function that `GetConnection` gives the pointer to be called in place of `delete`. -/
def giveBack (p : ConnectionPool) (conn : Connection) (now : ℕ) : ConnectionPool :=
  { p with connectionQueue := p.connectionQueue ++ [conn.refreshAliveTime now] }

/-- One turn of the loop of `ProduceConnectionTask`, behind the wait, which lasts while the queue is
long enough and the pool is not shut down. -/
def produceConnectionTask (p : ConnectionPool) (ok : Bool) (now : ℕ) : Option ConnectionPool :=
  if ¬ p.isShutdown ∧ p.minSize ≤ p.connectionQueue.length then none
  else if p.isShutdown then some p
  else if p.connectionCount < toInt p.maxSize then some (p.addConnection ok now)
  else some p

/-- The test of the scanner: the connection was not used for too long. -/
def expired (p : ConnectionPool) (conn : Connection) (now : ℕ) : Bool :=
  p.maxIdleTime * 1000 % 2 ^ 64 ≤ conn.getAliveTime now

/-- The inner loop of `ScannerConnectionTask`, on a queue and a counter, with the connections that are
deleted. The time at which it looks at a connection is the one for the number of those behind it. The
first element of an empty queue is an error. -/
def scanQueue (p : ConnectionPool) (now : ℕ → ℕ) :
    List Connection → ℤ → Option (List Connection × List Connection × ℤ)
  | [], count => if toInt p.minSize < count then none else some ([], [], count)
  | conn :: rest, count =>
      if toInt p.minSize < count then
        if p.expired conn (now rest.length) then
          (p.scanQueue now rest (count - 1)).map fun (deleted, left) => (conn :: deleted, left)
        else some ([], conn :: rest, count)
      else some ([], conn :: rest, count)

/-- One turn of the loop of `ScannerConnectionTask`, behind the wait, with the connections that are
deleted. -/
def scannerConnectionTask (p : ConnectionPool) (now : ℕ → ℕ) :
    Option (List Connection × ConnectionPool) :=
  if p.isShutdown then some ([], p)
  else
    (p.scanQueue now p.connectionQueue p.connectionCount).map fun (deleted, queue, count) =>
      (deleted, { p with connectionQueue := queue, connectionCount := count })

/-! ### Runs -/

/-- A connection was handed out to a consumer, or deleted. -/
inductive Event where
  | handed (id : ℕ)
  | deleted (id : ℕ)
deriving DecidableEq

/-- The pool, the pointers that the consumers hold, and what has happened to the connections. -/
structure State (C : Type u) where
  pool : ConnectionPool
  held : List (C × Connection)
  log : List Event

/-- A step: a consumer gets a connection or gives one back, the producer or the scanner takes a turn,
or the pool is shut down. -/
inductive Step (C : Type u) where
  | getConnection (consumer : C)
  | giveBack (consumer : C) (id now : ℕ)
  | produce (ok : Bool) (now : ℕ)
  | scan (now : ℕ → ℕ)
  | shutdown

variable {C : Type u} [DecidableEq C]

/-- One step, with `none` if it has to wait or is an error. -/
def step (s : State C) : Step C → Option (State C)
  | .getConnection consumer =>
      s.pool.getConnection.map fun (conn, pool) =>
        ⟨pool, (consumer, conn) :: s.held, s.log ++ [.handed conn.id]⟩
  | .giveBack consumer id now =>
      (s.held.find? fun p => p.1 = consumer ∧ p.2.id = id).map fun p =>
        { s with pool := s.pool.giveBack p.2 now, held := s.held.erase p }
  | .produce ok now =>
      (s.pool.produceConnectionTask ok now).map fun pool => { s with pool := pool }
  | .scan now =>
      (s.pool.scannerConnectionTask now).map fun (deleted, pool) =>
        { s with pool := pool, log := s.log ++ deleted.map fun conn => .deleted conn.id }
  | .shutdown => some { s with pool := { s.pool with isShutdown := true } }

/-- The numbers of the connections in the queue. -/
def State.queued (s : State C) : List ℕ := s.pool.connectionQueue.map Connection.id

/-- The numbers of the connections that the consumers hold. -/
def State.checkedOut (s : State C) : List ℕ := s.held.map fun p => p.2.id

/-- The numbers of all connections. -/
def State.all (s : State C) : List ℕ := s.queued ++ s.checkedOut

/-! ### The steps, read backwards -/

theorem step_getConnection {s s' : State C} {consumer : C}
    (h : step s (.getConnection consumer) = some s') :
  ∃ conn rest, s.pool.connectionQueue = conn :: rest ∧
    s' = ⟨{ s.pool with connectionQueue := rest }, (consumer, conn) :: s.held,
      s.log ++ [.handed conn.id]⟩
  := by
  obtain ⟨⟨conn, pool⟩, hget, rfl⟩ := Option.map_eq_some_iff.mp h
  rw [getConnection] at hget
  split at hget
  · simp at hget
  · rename_i conn' rest hqueue
    obtain ⟨rfl, rfl⟩ := Prod.mk.inj (Option.some.inj hget)
    exact ⟨conn', rest, hqueue, rfl⟩

theorem step_giveBack {s s' : State C} {consumer : C} {id now : ℕ}
    (h : step s (.giveBack consumer id now) = some s') :
  ∃ p ∈ s.held, s' = { s with pool := s.pool.giveBack p.2 now, held := s.held.erase p }
  := by
  obtain ⟨p, hfind, rfl⟩ := Option.map_eq_some_iff.mp h
  exact ⟨p, List.mem_of_find?_eq_some hfind, rfl⟩

/-- The turn of the producer adds a connection. -/
def Produces (p : ConnectionPool) : Prop :=
  p.isShutdown = false ∧ p.connectionQueue.length < p.minSize ∧ p.connectionCount < toInt p.maxSize

theorem step_produce {s s' : State C} {ok : Bool} {now : ℕ}
    (h : step s (.produce ok now) = some s') :
  s.pool.Produces ∧ s' = { s with pool := s.pool.addConnection ok now } ∨
    ¬ s.pool.Produces ∧ s' = s
  := by
  obtain ⟨pool, hproduce, rfl⟩ := Option.map_eq_some_iff.mp h
  rw [produceConnectionTask] at hproduce
  split at hproduce
  · simp at hproduce
  · rename_i hwait
    split at hproduce
    · rename_i hshutdown
      obtain rfl := Option.some.inj hproduce
      exact Or.inr ⟨fun hproduces => by simp [hproduces.1] at hshutdown, rfl⟩
    · rename_i hshutdown
      split at hproduce
      · rename_i hroom
        obtain rfl := Option.some.inj hproduce
        refine Or.inl ⟨⟨?_, ?_, hroom⟩, rfl⟩
        · simpa using hshutdown
        · by_contra hlong
          apply hwait ⟨hshutdown, not_lt.mp hlong⟩
      · rename_i hroom
        obtain rfl := Option.some.inj hproduce
        exact Or.inr ⟨fun hproduces => hroom hproduces.2.2, rfl⟩

theorem step_scan {s s' : State C} {now : ℕ → ℕ} (h : step s (.scan now) = some s') :
  s' = s ∨ s.pool.isShutdown = false ∧ ∃ deleted queue count,
    s.pool.scanQueue now s.pool.connectionQueue s.pool.connectionCount = some (deleted, queue, count) ∧
      s' = { s with
        pool := { s.pool with connectionQueue := queue, connectionCount := count }
        log := s.log ++ deleted.map fun conn => .deleted conn.id }
  := by
  obtain ⟨⟨deleted, pool⟩, hscan, rfl⟩ := Option.map_eq_some_iff.mp h
  rw [scannerConnectionTask] at hscan
  split at hscan
  · obtain ⟨rfl, rfl⟩ := Prod.mk.inj (Option.some.inj hscan)
    left
    simp
  · rename_i hshutdown
    obtain ⟨⟨deleted', queue, count⟩, hqueue, heq⟩ := Option.map_eq_some_iff.mp hscan
    obtain ⟨rfl, rfl⟩ := Prod.mk.inj heq
    exact Or.inr ⟨by simpa using hshutdown, deleted', queue, count, hqueue, rfl⟩

theorem step_shutdown {s s' : State C} (h : step s .shutdown = some s') :
  s' = { s with pool := { s.pool with isShutdown := true } }
  := (Option.some.inj h).symm

/-! ### Every connection is accounted for -/

/-- No connection is handed out after it was deleted. -/
def NoneAfterDelete (log : List Event) : Prop :=
  log.Pairwise fun e e' => ∀ id, e = .deleted id → e' ≠ .handed id

/-- The counter is the number of connections in the queue and with the consumers and lies between the
bounds, no connection is in two of these places, or in one of them twice, and none was handed out
after it was deleted. -/
structure Accounted (s : State C) : Prop where
  count : s.pool.connectionCount = s.queued.length + s.checkedOut.length
  nodup : (s.queued ++ s.checkedOut).Nodup
  ordered : NoneAfterDelete s.log
  minSize_le : s.pool.minSize ≤ s.pool.connectionCount
  le_maxSize : s.pool.connectionCount ≤ max s.pool.minSize s.pool.maxSize

/-- All connections have numbers below the next one, and a connection that was deleted is not among
them. The conversions of the bounds to `int` are exact. -/
structure Inv (s : State C) : Prop extends Accounted s where
  made : ∀ id ∈ s.all, id < s.pool.created
  deleted : ∀ id, .deleted id ∈ s.log → id < s.pool.created ∧ id ∉ s.all
  minSize_lt : s.pool.minSize < 2 ^ 31
  maxSize_lt : s.pool.maxSize < 2 ^ 31

omit [DecidableEq C] in
theorem Inv.count_eq_length {s : State C} (h : Inv s) :
  s.pool.connectionCount = s.all.length
  := by
  rw [h.count, State.all, List.length_append]
  push_cast
  rfl

omit [DecidableEq C] in
/-- A step that only moves connections, or hands some of them out. -/
theorem Inv.move {s s' : State C} (h : Inv s) (events : List ℕ) (hall : s'.all.Perm s.all)
    (hlog : s'.log = s.log ++ events.map .handed) (hevents : ∀ id ∈ events, id ∈ s.all)
    (hcount : s'.pool.connectionCount = s.pool.connectionCount)
    (hcreated : s'.pool.created = s.pool.created) (hmin : s'.pool.minSize = s.pool.minSize)
    (hmax : s'.pool.maxSize = s.pool.maxSize) :
  Inv s'
  := by
  have hmem : ∀ id, id ∈ s'.all ↔ id ∈ s.all := fun id => hall.mem_iff
  have hlength : (s'.queued ++ s'.checkedOut).length = s.all.length := hall.length_eq
  refine ⟨⟨?_, hall.symm.nodup h.nodup, ?_, ?_, ?_⟩, ?_, ?_, ?_, ?_⟩
  · rw [hcount, h.count_eq_length, ← hlength, List.length_append]
    push_cast
    rfl
  · rw [NoneAfterDelete, hlog, List.pairwise_append]
    refine ⟨h.ordered, ?_, ?_⟩
    · rw [List.pairwise_map]
      apply List.pairwise_of_forall
      simp
    · rintro e he e' he' id rfl rfl
      obtain ⟨id', hid', heq⟩ := List.mem_map.mp he'
      obtain rfl : id' = id := by simpa using heq
      apply (h.deleted id' he).2 (hevents id' hid')
  · rw [hcount, hmin]
    apply h.minSize_le
  · rw [hcount, hmin, hmax]
    apply h.le_maxSize
  · intro id hid
    rw [hcreated]
    apply h.made id ((hmem id).mp hid)
  · intro id hid
    have hold : Event.deleted id ∈ s.log := by simpa [hlog] using hid
    rw [hcreated, hmem]
    apply h.deleted id hold
  · rw [hmin]
    apply h.minSize_lt
  · rw [hmax]
    apply h.maxSize_lt

omit [DecidableEq C] in
/-- A new connection is put into the queue, if there are not too many. -/
theorem Inv.addConnection {s : State C} (h : Inv s) (ok : Bool) (now : ℕ)
    (hroom : s.pool.connectionCount < s.pool.maxSize) :
  Inv { s with pool := s.pool.addConnection ok now }
  := by
  have hall : State.all { s with pool := s.pool.addConnection ok now }
      = s.queued ++ s.pool.created :: s.checkedOut := by
    simp [State.all, State.queued, State.checkedOut, ConnectionPool.addConnection,
      Connection.refreshAliveTime, Connection.connect, Connection.new]
  have hnew : s.pool.created ∉ s.all := fun hmem => (h.made _ hmem).false
  have hperm : (s.queued ++ s.pool.created :: s.checkedOut).Perm (s.pool.created :: s.all) :=
    List.perm_middle
  have hmin := h.minSize_le
  have hcounted : (s.pool.addConnection ok now).connectionCount = s.pool.connectionCount + 1 := by
    have hmax := h.maxSize_lt
    apply Int.bmod_eq_of_le_mul_two <;> push_cast <;> omega
  refine ⟨⟨?_, ?_, h.ordered, ?_, ?_⟩, ?_, ?_, h.minSize_lt, h.maxSize_lt⟩
  · have hcount := h.count
    simp only [hcounted]
    simp only [State.queued, State.checkedOut, ConnectionPool.addConnection, List.length_map,
      List.length_append, List.length_singleton] at hcount ⊢
    push_cast
    omega
  · change (State.all { s with pool := s.pool.addConnection ok now }).Nodup
    rw [hall, hperm.nodup_iff]
    exact List.nodup_cons.mpr ⟨hnew, h.nodup⟩
  · simp only [hcounted]
    simp only [ConnectionPool.addConnection]
    omega
  · simp only [hcounted]
    simp only [ConnectionPool.addConnection]
    omega
  · intro id hid
    rw [hall, hperm.mem_iff] at hid
    simp only [ConnectionPool.addConnection]
    rcases List.mem_cons.mp hid with rfl | hid
    · apply Nat.lt_succ_self
    · apply (h.made id hid).trans (Nat.lt_succ_self _)
  · intro id hid
    obtain ⟨hlt, hnot⟩ := h.deleted id hid
    rw [hall, hperm.mem_iff]
    simp only [ConnectionPool.addConnection, List.mem_cons, not_or]
    exact ⟨hlt.trans (Nat.lt_succ_self _), hlt.ne, hnot⟩

/-- What the inner loop of the scanner does: it stops at the bound or at a connection that is not expired,
and deletes those in front of that. -/
inductive Scans (p : ConnectionPool) (now : ℕ → ℕ) :
    List Connection → ℤ → List Connection → List Connection → ℤ → Prop
  | bound {queue : List Connection} {count : ℤ} (hcount : count ≤ toInt p.minSize) :
      Scans p now queue count [] queue count
  | fresh {conn : Connection} {rest : List Connection} {count : ℤ}
      (hexpired : p.expired conn (now rest.length) = false) :
      Scans p now (conn :: rest) count [] (conn :: rest) count
  | delete {conn : Connection} {rest deleted left : List Connection} {count count' : ℤ}
      (hcount : toInt p.minSize < count) (hexpired : p.expired conn (now rest.length) = true)
      (hrest : Scans p now rest (count - 1) deleted left count') :
      Scans p now (conn :: rest) count (conn :: deleted) left count'

theorem scans_of_scanQueue {p : ConnectionPool} {now : ℕ → ℕ} {queue deleted left : List Connection}
    {count count' : ℤ} (h : p.scanQueue now queue count = some (deleted, left, count')) :
  Scans p now queue count deleted left count'
  := by
  induction queue generalizing deleted count with
  | nil =>
      rw [scanQueue] at h
      split at h
      · simp at h
      · rename_i hcount
        obtain ⟨rfl, rfl, rfl⟩ := by simpa using h
        apply Scans.bound (not_lt.mp hcount)
  | cons conn rest ih =>
      rw [scanQueue] at h
      split at h
      · rename_i hcount
        cases hexpired : p.expired conn (now rest.length) with
        | true =>
            rw [hexpired, if_pos rfl] at h
            obtain ⟨⟨deleted', left', count''⟩, hrest, heq⟩ := Option.map_eq_some_iff.mp h
            obtain ⟨rfl, rfl, rfl⟩ := by simpa using heq
            apply Scans.delete hcount hexpired (ih hrest)
        | false =>
            obtain ⟨rfl, rfl, rfl⟩ := by simpa [hexpired] using h
            apply Scans.fresh hexpired
      · rename_i hcount
        obtain ⟨rfl, rfl, rfl⟩ := by simpa using h
        apply Scans.bound (not_lt.mp hcount)

/-- It deletes connections at the front of the queue, as long as the counter is above the bound. -/
theorem Scans.spec {p : ConnectionPool} {now : ℕ → ℕ} {queue deleted left : List Connection}
    {count count' : ℤ} (h : Scans p now queue count deleted left count') :
  queue = deleted ++ left ∧ count' = count - deleted.length ∧
    (toInt p.minSize ≤ count → toInt p.minSize ≤ count')
  := by
  induction h with
  | bound hcount => simp
  | fresh hexpired => simp
  | delete hcount hexpired hrest ih =>
      obtain ⟨hqueue, hcount', hmin⟩ := ih
      refine ⟨by simp [hqueue], ?_, fun _ => hmin (by omega)⟩
      rw [hcount', List.length_cons]
      push_cast
      ring

omit [DecidableEq C] in
/-- Connections at the front of the queue are deleted, if enough are left. -/
theorem Inv.delete {s : State C} (h : Inv s) {deleted left : List Connection}
    (hqueue : s.pool.connectionQueue = deleted ++ left) {count : ℤ}
    (hcount : count = s.pool.connectionCount - deleted.length) (hmin : s.pool.minSize ≤ count) :
  Inv
    { s with
      pool := { s.pool with connectionQueue := left, connectionCount := count }
      log := s.log ++ deleted.map fun conn => .deleted conn.id }
  := by
  have hall : s.all = deleted.map Connection.id ++ (left.map Connection.id ++ s.checkedOut) := by
    simp [State.all, State.queued, hqueue, List.append_assoc]
  have hnodup : s.all.Nodup := h.nodup
  rw [hall, List.nodup_append] at hnodup
  obtain ⟨-, hleft, hdisjoint⟩ := hnodup
  refine ⟨⟨?_, hleft, ?_, hmin, ?_⟩, ?_, ?_, h.minSize_lt, h.maxSize_lt⟩
  · have hold := h.count_eq_length
    rw [hall] at hold
    simp only [List.length_append, List.length_map, State.queued, State.checkedOut] at hold ⊢
    push_cast at hold
    omega
  · rw [NoneAfterDelete, List.pairwise_append]
    refine ⟨h.ordered, ?_, ?_⟩
    · rw [List.pairwise_map]
      apply List.pairwise_of_forall
      simp
    · rintro e - e' he' id - rfl
      simp at he'
  · have hmax := h.le_maxSize
    simp only
    omega
  · intro id hid
    apply h.made
    rw [hall]
    exact List.mem_append_right _ hid
  · intro id hid
    rcases List.mem_append.mp hid with hold | hnew
    · obtain ⟨hlt, hnot⟩ := h.deleted id hold
      refine ⟨hlt, ?_⟩
      intro hmem
      apply hnot
      rw [hall]
      exact List.mem_append_right _ hmem
    · obtain ⟨conn, hconn, heq⟩ := List.mem_map.mp hnew
      obtain rfl : conn.id = id := by simpa using heq
      have hmem : conn.id ∈ deleted.map Connection.id := List.mem_map_of_mem hconn
      refine ⟨?_, fun hmem' => hdisjoint _ hmem _ hmem' rfl⟩
      apply h.made
      rw [hall]
      exact List.mem_append_left _ hmem

theorem Inv.step {s s' : State C} (h : Inv s) {l : Step C} (hstep : step s l = some s') :
  Inv s'
  := by
  cases l with
  | getConnection consumer =>
      obtain ⟨conn, rest, hqueue, rfl⟩ := step_getConnection hstep
      refine h.move [conn.id] ?_ rfl ?_ rfl rfl rfl rfl
      · simp only [State.all, State.queued, State.checkedOut, hqueue, List.map_cons,
          List.cons_append]
        exact List.perm_middle
      · simp [State.all, State.queued, hqueue]
  | giveBack consumer id now =>
      obtain ⟨p, hp, rfl⟩ := step_giveBack hstep
      refine h.move [] ?_ (by simp) (by simp) rfl rfl rfl rfl
      have hheld : s.checkedOut.Perm (p.2.id :: (s.held.erase p).map fun p => p.2.id) :=
        (List.perm_cons_erase hp).map fun p : C × Connection => p.2.id
      simp only [State.all, State.queued, State.checkedOut, ConnectionPool.giveBack,
        Connection.refreshAliveTime, List.map_append, List.map_cons, List.map_nil,
        List.append_assoc, List.singleton_append]
      exact hheld.symm.append_left _
  | produce ok now =>
      obtain ⟨hproduces, rfl⟩ | ⟨-, rfl⟩ := step_produce hstep
      · have hroom := hproduces.2.2
        rw [toInt_of_lt h.maxSize_lt] at hroom
        apply h.addConnection ok now hroom
      · apply h
  | scan now =>
      obtain rfl | ⟨-, deleted, queue, count, hscan, rfl⟩ := step_scan hstep
      · apply h
      · obtain ⟨hsplit, hcount, hmin⟩ := (scans_of_scanQueue hscan).spec
        rw [toInt_of_lt h.minSize_lt] at hmin
        apply h.delete hsplit hcount (hmin h.minSize_le)
  | shutdown =>
      obtain rfl := step_shutdown hstep
      refine h.move [] (List.Perm.refl _) (by simp) (by simp) rfl rfl rfl rfl

/-! ### The start -/

theorem addConnections_spec (p : ConnectionPool) (oks : ℕ → Bool) (now : ℕ → ℕ) (n : ℕ)
    (hqueue : p.connectionQueue.map Connection.id = List.range p.created)
    (hcount : p.connectionCount = p.created) (hlt : p.created + n < 2 ^ 31) :
  (p.addConnections oks now n).connectionQueue.map Connection.id
      = List.range (p.addConnections oks now n).created ∧
    (p.addConnections oks now n).connectionCount = (p.addConnections oks now n).created ∧
    (p.addConnections oks now n).created = p.created + n
  := by
  induction n with
  | zero => exact ⟨hqueue, hcount, rfl⟩
  | succ n ih =>
      obtain ⟨hids, hcount, hcreated⟩ := ih (by omega)
      refine ⟨?_, ?_, ?_⟩
      · simp [addConnections, ConnectionPool.addConnection, Connection.refreshAliveTime,
          Connection.connect, Connection.new, hids, List.range_succ]
      · simp only [addConnections, ConnectionPool.addConnection, hcount, hcreated]
        push_cast
        apply Int.bmod_eq_of_le_mul_two <;> push_cast <;> omega
      · simp only [addConnections, ConnectionPool.addConnection, hcreated]
        omega

theorem addConnections_sizes (p : ConnectionPool) (oks : ℕ → Bool) (now : ℕ → ℕ) (n : ℕ) :
  (p.addConnections oks now n).minSize = p.minSize ∧
    (p.addConnections oks now n).maxSize = p.maxSize
  := by
  induction n with
  | zero => exact ⟨rfl, rfl⟩
  | succ n ih => exact ih

omit [DecidableEq C] in
theorem new_inv {minSize maxSize : ℕ} (maxIdleTime : ℕ) (oks : ℕ → Bool) (now : ℕ → ℕ)
    (hmin : minSize < 2 ^ 31) (hmax : maxSize < 2 ^ 31) :
  Inv (⟨new minSize maxSize maxIdleTime oks now, [], []⟩ : State C)
  := by
  obtain ⟨hids, hcount, hcreated⟩ := addConnections_spec (empty minSize maxSize maxIdleTime) oks now
    minSize rfl rfl (by simpa [empty] using hmin)
  obtain ⟨hminSize, hmaxSize⟩ := addConnections_sizes (empty minSize maxSize maxIdleTime) oks now
    minSize
  rw [← new] at hids hcreated hcount hminSize hmaxSize
  simp only [empty, zero_add] at hcreated hminSize hmaxSize
  have hall : State.all (⟨new minSize maxSize maxIdleTime oks now, [], []⟩ : State C)
      = List.range minSize := by
    simp [State.all, State.queued, State.checkedOut, hids, hcreated]
  refine ⟨⟨?_, ?_, List.Pairwise.nil, ?_, ?_⟩, ?_, by simp, ?_, ?_⟩
  · simp [State.queued, State.checkedOut, hids, hcount]
  · change (State.all (⟨new minSize maxSize maxIdleTime oks now, [], []⟩ : State C)).Nodup
    rw [hall]
    exact List.nodup_range
  · rw [hminSize, hcount, hcreated]
  · rw [hminSize, hcount, hcreated]
    exact Int.ofNat_le.mpr (le_max_left _ _)
  · intro id hid
    rw [hall, List.mem_range] at hid
    rw [hcreated]
    exact hid
  · rw [hminSize]
    exact hmin
  · rw [hmaxSize]
    exact hmax

/-- For all bounds below `2 ^ 31`, any number of consumers and every order of steps: the counter is the
number of connections in the queue and with the consumers, each of these connections is in one place,
and once, none was handed out after it was deleted, and the counter lies between the bounds. -/
theorem run_pool_accounted {minSize maxSize maxIdleTime : ℕ} (oks : ℕ → Bool) (now : ℕ → ℕ)
    (hmin : minSize < 2 ^ 31) (hmax : maxSize < 2 ^ 31) {ls : List (Step C)} {s : State C}
    (h : run step ⟨new minSize maxSize maxIdleTime oks now, [], []⟩ ls = some s) :
  Accounted s
  := by
  have hInv : Inv s :=
    run_invariant (fun _ _ _ hs => hs.step) (new_inv maxIdleTime oks now hmin hmax) h
  exact hInv.toAccounted

/-- Two consumers and a pool for one to two connections: one consumer has to wait for the producer, and
what was given back first is deleted. -/
def twoConsumers : List (Step Bool) :=
  [.getConnection false, .produce true 10000, .getConnection true, .giveBack false 0 20000,
    .giveBack true 1 40000, .scan fun _ => 9000000, .getConnection true]

theorem run_pool_accounted_twoConsumers :
  ∃ s, run step ⟨new 1 2 5 (fun _ => true) fun _ => 0, [], []⟩ twoConsumers = some s ∧ Accounted s ∧
    s.log = [.handed 0, .handed 1, .deleted 0, .handed 1]
  := by
  have hrun : (run step ⟨new 1 2 5 (fun _ => true) fun _ => 0, [], []⟩ twoConsumers).map State.log
      = some [.handed 0, .handed 1, .deleted 0, .handed 1] := by decide
  obtain ⟨s, hs, hlog⟩ := Option.map_eq_some_iff.mp hrun
  exact ⟨s, hs, run_pool_accounted (fun _ => true) (fun _ => 0) (by decide) (by decide) hs, hlog⟩

end ConnectionPool

import PQuery.Config.IniReader
import PQuery.Library.Ownership

/-!
# Who owns a result

`PgResult` and the functions of `PgsqlDatabase` that handle results, over the results that `PQexec` has
returned: a pointer to one is its number in `State.results`, and what libpq is called with is kept in
order in `State.log`. An object lives at an address: by itself, as the member `result_` of a database,
or as the temporary or the local variable of one function.
-/

namespace PQuery.Pgsql

open Ownership

/-- The statuses that the source names, and the others. -/
inductive ExecStatusType
  | PGRES_EMPTY_QUERY
  | PGRES_COMMAND_OK
  | PGRES_TUPLES_OK
  | other (code : Nat)
deriving DecidableEq, Repr

/-- What libpq keeps of a query; `values` are its rows. -/
structure PGresult where
  status : ExecStatusType
  columns : Nat := 0
  values : List (List Str) := []
  cmdTuples : Str := []
deriving DecidableEq, Repr

structure PgResult where
  res_ : Option Nat := none
  status_ : ExecStatusType := .PGRES_EMPTY_QUERY
deriving DecidableEq, Repr

inductive Address
  | object (n : Nat)
  | result_ (database : Nat)
  | temporary
deriving DecidableEq, Repr

/-- The calls of libpq with a result. -/
inductive Event
  | clear (r : Nat)
  | read (r : Option Nat)
deriving DecidableEq, Repr

structure State where
  objects : Address → Option PgResult
  queryResult : Nat → Str
  results : List PGresult
  log : List Event

/-- What a function does to the state; none where it is done on an object that does not exist. -/
abbrev Action := StateT State Option

/-! ### libpq -/

/-- A null reply is an error before the query is sent. -/
def PQexec (reply : Option PGresult) : Action (Option Nat) := fun s =>
  match reply with
  | none => some (none, s)
  | some result => some (some s.results.length, { s with results := s.results ++ [result] })

def PQclear (r : Nat) : Action Unit := fun s => some ((), { s with log := s.log ++ [.clear r] })

/-- What one of the reading functions sees behind a pointer. -/
def readResult (r : Option Nat) : Action PGresult := fun s =>
  some ((r.bind (s.results[·]?)).getD { status := .PGRES_EMPTY_QUERY },
    { s with log := s.log ++ [.read r] })

def PQresultStatus (r : Option Nat) : Action ExecStatusType := return (← readResult r).status

def PQntuples (r : Option Nat) : Action Nat := return (← readResult r).values.length

def PQnfields (r : Option Nat) : Action Nat := return (← readResult r).columns

def PQgetvalue (r : Option Nat) (row col : Nat) : Action Str :=
  return ((← readResult r).values.getD row []).getD col []

def PQcmdTuples (r : Option Nat) : Action Str := return (← readResult r).cmdTuples

/-! ### PgResult -/

def object (x : Address) : Action PgResult := fun s => (s.objects x).map (·, s)

def store (x : Address) (o : Option PgResult) : Action Unit := fun s =>
  some ((), { s with objects := Function.update s.objects x o })

/-- An object can only be made where none is. -/
def vacant (x : Address) : Action Unit := fun s => if s.objects x = none then some ((), s) else none

def construct (x : Address) : Action Unit := do
  vacant x
  store x (some {})

/-- `PgResult(PQexec(conn, query))` -/
def constructFrom (x : Address) (reply : Option PGresult) : Action Unit := do
  vacant x
  let r ← PQexec reply
  let status ← if r.isSome then PQresultStatus r else pure .PGRES_EMPTY_QUERY
  store x (some { res_ := r, status_ := status })

def reset (x : Address) : Action Unit := do
  match (← object x).res_ with
  | some r => PQclear r
  | none => pure ()
  store x (some { res_ := none, status_ := .PGRES_EMPTY_QUERY })

def destroy (x : Address) : Action Unit := do
  reset x
  store x none

/-- `this = std::move(other)` -/
def moveAssign (this other : Address) : Action Unit := do
  let _ ← object this
  let _ ← object other
  if this ≠ other then
    reset this
    let o ← object other
    store this (some { res_ := o.res_, status_ := o.status_ })
    store other (some { res_ := none, status_ := .PGRES_EMPTY_QUERY })

/-! ### PgsqlDatabase -/

section
variable (d : Nat)

def performRealQuery (reply : Option PGresult) : Action Bool := do
  constructFrom .temporary reply
  moveAssign (.result_ d) .temporary
  destroy .temporary
  let result_ ← object (.result_ d)
  return result_.status_ = .PGRES_TUPLES_OK ∨ result_.status_ = .PGRES_COMMAND_OK

def appendQueryResult (text : Str) : Action Unit := fun s =>
  some ((), { s with queryResult := Function.update s.queryResult d (s.queryResult d ++ text) })

def clearQueryResult : Action Unit := fun s =>
  some ((), { s with queryResult := Function.update s.queryResult d [] })

def processQueryOutput : Action Unit := do
  let result_ ← object (.result_ d)
  if result_.res_.isSome then
    clearQueryResult d
    let rows ← PQntuples result_.res_
    let columns ← PQnfields result_.res_
    (List.range rows).forM fun row => do
      (List.range columns).forM fun col => do
        let strres ← PQgetvalue result_.res_ row col
        appendQueryResult d (if strres ≠ [] then strres ++ [' '] else "#EMPTY# ".toList)
      appendQueryResult d ['\n']

def cleanupResult : Action Unit := reset (.result_ d)

/-- `std::stoll`, which throws where it finds no number or one out of range. -/
def stoll (text : Str) : Option Int := (Config.readInt64 text).map Prod.fst

/-- None where `std::stoll` throws. -/
def getAffectedRows : Action (Option (BitVec 64)) := do
  let result_ ← object (.result_ d)
  if result_.res_.isSome then
    let affected_rows ← PQcmdTuples result_.res_
    if affected_rows = [] then return some 0
    else return (stoll affected_rows).map (BitVec.ofInt 64)
  else return some 0

/-- `psql_errstring` is `PQerrorMessage(conn)`. -/
def getErrorString (PQresStatus : ExecStatusType → Str) (psql_errstring : Str) : Action Str := do
  let psql_errstring := if psql_errstring.take 5 = "ERROR".toList then psql_errstring.drop 5 else psql_errstring
  let result_ ← object (.result_ d)
  if '\n' ∉ psql_errstring then return psql_errstring
  else if result_.res_.isSome then
    return PQresStatus result_.status_ ++ psql_errstring.takeWhile (· ≠ '\n')
  else return psql_errstring.takeWhile (· ≠ '\n')

end

/-- `serverVersion` is `PQserverVersion(conn)`. -/
def getServerVersion (reply : Option PGresult) (serverVersion : Int) : Action Str := do
  constructFrom .temporary reply
  let versionResult ← object .temporary
  let server_version ← if versionResult.status_ = .PGRES_TUPLES_OK then
      PQgetvalue versionResult.res_ 0 0
    else pure ("PostgreSQL Server ".toList ++ to_string serverVersion)
  destroy .temporary
  return server_version

/-! ### Runs -/

/-- The operations, each with what it gets from outside. -/
inductive Operation
  | construct (n : Nat)
  | constructFrom (n : Nat) (reply : Option PGresult)
  | moveAssign (n m : Nat)
  | reset (n : Nat)
  | destroy (n : Nat)
  | newDatabase (d : Nat)
  | deleteDatabase (d : Nat)
  | performRealQuery (d : Nat) (reply : Option PGresult)
  | processQueryOutput (d : Nat)
  | cleanupResult (d : Nat)
  | getAffectedRows (d : Nat)
  | getErrorString (d : Nat) (PQresStatus : ExecStatusType → Str) (psql_errstring : Str)
  | getServerVersion (reply : Option PGresult) (serverVersion : Int)

def perform : Operation → Action Unit
  | .construct n => Pgsql.construct (.object n)
  | .constructFrom n reply => Pgsql.constructFrom (.object n) reply
  | .moveAssign n m => Pgsql.moveAssign (.object n) (.object m)
  | .reset n => Pgsql.reset (.object n)
  | .destroy n => Pgsql.destroy (.object n)
  | .newDatabase d => Pgsql.construct (.result_ d)
  | .deleteDatabase d => Pgsql.destroy (.result_ d)
  | .performRealQuery d reply => do let _ ← Pgsql.performRealQuery d reply
  | .processQueryOutput d => Pgsql.processQueryOutput d
  | .cleanupResult d => Pgsql.cleanupResult d
  | .getAffectedRows d => do let _ ← Pgsql.getAffectedRows d
  | .getErrorString d PQresStatus psql_errstring => do
    let _ ← Pgsql.getErrorString d PQresStatus psql_errstring
  | .getServerVersion reply serverVersion => do let _ ← Pgsql.getServerVersion reply serverVersion

/-- Before the first operation. -/
def State.empty : State :=
  { objects := fun _ => none, queryResult := fun _ => [], results := [], log := [] }

/-- The state after some operations, each done on objects that exist. -/
def run (ops : List Operation) : Option State := (ops.forM perform State.empty).map Prod.snd

/-! ### What an operation does -/

section spec
variable {α β : Type} {s s' : State} {x y : Address} {o : PgResult}

theorem bind_eq_some {m : Action α} {f : α → Action β} {b : β} :
    (m >>= f) s = some (b, s') ↔ ∃ a t, m s = some (a, t) ∧ f a t = some (b, s') := by
  show (m s).bind (fun r => f r.1 r.2) = some (b, s') ↔ _
  rw [Option.bind_eq_some_iff]
  exact ⟨fun ⟨r, hr, h⟩ => ⟨r.1, r.2, hr, h⟩, fun ⟨a, t, ha, h⟩ => ⟨(a, t), ha, h⟩⟩

theorem object_eq_some : object x s = some (o, s') ↔ s.objects x = some o ∧ s' = s := by
  rw [object, Option.map_eq_some_iff]
  constructor
  · rintro ⟨o', ho, heq⟩
    obtain ⟨rfl, rfl⟩ := Prod.mk.inj heq
    exact ⟨ho, rfl⟩
  · rintro ⟨ho, rfl⟩
    exact ⟨o, ho, rfl⟩

theorem construct_eq_some : construct x s = some ((), s') ↔
    s.objects x = none ∧ s' = { s with objects := Function.update s.objects x (some {}) } := by
  rw [construct, bind_eq_some]
  by_cases hx : s.objects x = none
  · simp [vacant, hx, store, eq_comm]
  · simp [vacant, hx]

/-- The state after `reset`, or after `destroy`. -/
def State.released (s : State) (x : Address) (o : PgResult) (left : Option PgResult) : State :=
  { s with
    objects := Function.update s.objects x left
    log := s.log ++ o.res_.toList.map .clear }

theorem reset_eq_some : reset x s = some ((), s') ↔
    ∃ o, s.objects x = some o ∧ s' = s.released x o (some {}) := by
  rw [reset, bind_eq_some]
  simp only [object_eq_some]
  constructor
  · rintro ⟨o, t, ⟨ho, rfl⟩, h⟩
    refine ⟨o, ho, ?_⟩
    cases hres : o.res_ with
    | none =>
      rw [hres] at h
      obtain rfl := (Prod.mk.inj (Option.some.inj h)).2
      simp [State.released, hres]
    | some r =>
      rw [hres] at h
      obtain ⟨_, t, hclear, hstore⟩ := bind_eq_some.mp h
      obtain rfl := (Prod.mk.inj (Option.some.inj hclear)).2
      obtain rfl := (Prod.mk.inj (Option.some.inj hstore)).2
      simp [State.released, hres]
  · rintro ⟨o, ho, rfl⟩
    refine ⟨o, s, ⟨ho, rfl⟩, ?_⟩
    cases hres : o.res_ with
    | none => simp [State.released, hres, store]
    | some r =>
      exact bind_eq_some.mpr ⟨(), { s with log := s.log ++ [.clear r] }, rfl,
        by simp [State.released, hres, store]⟩

theorem destroy_eq_some : destroy x s = some ((), s') ↔
    ∃ o, s.objects x = some o ∧ s' = s.released x o none := by
  rw [destroy, bind_eq_some]
  constructor
  · rintro ⟨_, t, hreset, hstore⟩
    obtain ⟨o, ho, rfl⟩ := reset_eq_some.mp hreset
    obtain rfl := (Prod.mk.inj (Option.some.inj hstore)).2
    exact ⟨o, ho, by simp [State.released]⟩
  · rintro ⟨o, ho, rfl⟩
    exact ⟨(), _, reset_eq_some.mpr ⟨o, ho, rfl⟩, by simp [State.released, store]⟩

/-- The state with an object made of the reply of `PQexec`. -/
def State.acquired (s : State) (x : Address) : Option PGresult → State
  | none => { s with objects := Function.update s.objects x (some {}) }
  | some result =>
    { s with
      objects := Function.update s.objects x (some ⟨some s.results.length, result.status⟩)
      results := s.results ++ [result]
      log := s.log ++ [.read (some s.results.length)] }

theorem constructFrom_eq_some {reply : Option PGresult} : constructFrom x reply s = some ((), s') ↔
    s.objects x = none ∧ s' = s.acquired x reply := by
  have hrest : (do
      let r ← PQexec reply
      let status ← if r.isSome then PQresultStatus r else pure .PGRES_EMPTY_QUERY
      store x (some { res_ := r, status_ := status }) : Action Unit) s =
      some ((), s.acquired x reply) := by
    cases reply with
    | none => rfl
    | some result =>
      have hread : readResult (some s.results.length) { s with results := s.results ++ [result] } =
          some (result, { s with
            results := s.results ++ [result]
            log := s.log ++ [.read (some s.results.length)] }) := by
        simp [readResult]
      refine bind_eq_some.mpr ⟨some s.results.length, _, rfl, ?_⟩
      exact bind_eq_some.mpr ⟨result.status, _, bind_eq_some.mpr ⟨result, _, hread, rfl⟩, rfl⟩
  rw [constructFrom, bind_eq_some]
  constructor
  · rintro ⟨_, t, hvacant, h⟩
    obtain ⟨hx, heq⟩ := Option.ite_none_right_eq_some.mp hvacant
    obtain rfl := (Prod.mk.inj (Option.some.inj heq)).2
    exact ⟨hx, (Prod.mk.inj (Option.some.inj (h.symm.trans hrest))).2⟩
  · rintro ⟨hx, rfl⟩
    exact ⟨(), s, if_pos hx, hrest⟩

/-- The state with what `y` had in `x`. -/
def State.moved (s : State) (x y : Address) (o o' : PgResult) : State :=
  { s with
    objects := Function.update (Function.update s.objects x (some o')) y (some {})
    log := s.log ++ o.res_.toList.map .clear }

theorem moveAssign_eq_some : moveAssign x y s = some ((), s') ↔
    ∃ o o', s.objects x = some o ∧ s.objects y = some o' ∧
      s' = if x = y then s else s.moved x y o o' := by
  have hrest : ∀ o o', s.objects x = some o → s.objects y = some o' → x ≠ y → (do
      reset x
      let o' ← object y
      store x (some { res_ := o'.res_, status_ := o'.status_ })
      store y (some { res_ := none, status_ := .PGRES_EMPTY_QUERY }) : Action Unit) s =
      some ((), s.moved x y o o') := by
    intro o o' ho ho' hxy
    have hy : (s.released x o (some {})).objects y = some o' := by
      simpa only [State.released, Function.update_of_ne (Ne.symm hxy)] using ho'
    refine bind_eq_some.mpr ⟨(), _, reset_eq_some.mpr ⟨o, ho, rfl⟩, ?_⟩
    refine bind_eq_some.mpr ⟨o', _, object_eq_some.mpr ⟨hy, rfl⟩, ?_⟩
    refine bind_eq_some.mpr ⟨(), _, rfl, ?_⟩
    simp [store, State.released, State.moved]
  rw [moveAssign, bind_eq_some]
  constructor
  · rintro ⟨o, t, hthis, hnext⟩
    obtain ⟨o', t', hother, hassign⟩ := bind_eq_some.mp hnext
    obtain ⟨ho, rfl⟩ := object_eq_some.mp hthis
    obtain ⟨ho', rfl⟩ := object_eq_some.mp hother
    refine ⟨o, o', ho, ho', ?_⟩
    by_cases hxy : x = y
    · rw [if_neg (not_not.mpr hxy)] at hassign
      rw [if_pos hxy]
      exact (Prod.mk.inj (Option.some.inj hassign)).2.symm
    · rw [if_pos hxy, hrest o o' ho ho' hxy] at hassign
      rw [if_neg hxy]
      exact (Prod.mk.inj (Option.some.inj hassign)).2.symm
  · rintro ⟨o, o', ho, ho', rfl⟩
    refine ⟨o, s, object_eq_some.mpr ⟨ho, rfl⟩, ?_⟩
    refine bind_eq_some.mpr ⟨o', s, object_eq_some.mpr ⟨ho', rfl⟩, ?_⟩
    by_cases hxy : x = y
    · rw [if_neg (not_not.mpr hxy), if_pos hxy]
      rfl
    · rw [if_pos hxy, if_neg hxy]
      exact hrest o o' ho ho' hxy

end spec

/-! ### What every operation keeps -/

def Event.cleared : Event → Option Nat
  | .clear r => some r
  | .read _ => none

/-- Which object owns which result. -/
def State.ledger (s : State) : Ledger Address :=
  { holds := fun x => (s.objects x).bind PgResult.res_
    made := s.results.length
    released := s.log.filterMap Event.cleared }

/-- The status of the result behind a pointer. -/
def State.statusOf (s : State) : Option Nat → ExecStatusType
  | none => .PGRES_EMPTY_QUERY
  | some r => ((s.results[r]?).map PGresult.status).getD .PGRES_EMPTY_QUERY

/-- What is read is a result, and it has not been cleared before. -/
def ReadsLive (log : List Event) : Prop :=
  ∀ before r after, log = before ++ .read r :: after → ∃ p, r = some p ∧ .clear p ∉ before

structure State.Sound (s : State) : Prop where
  ledger : s.ledger.Sound
  status : ∀ x o, s.objects x = some o → o.status_ = s.statusOf o.res_
  reads : ReadsLive s.log

section sound
variable {s s' : State} {x y : Address} {o o' : PgResult}

theorem sound_empty : State.empty.Sound :=
  ⟨Ledger.sound_empty, by simp [State.empty], by simp [State.empty, ReadsLive]⟩

theorem holds_update (objects : Address → Option PgResult) (x : Address) (left : Option PgResult) :
    (fun z => (Function.update objects x left z).bind PgResult.res_) =
      Function.update (fun z => (objects z).bind PgResult.res_) x (left.bind PgResult.res_) := by
  funext z
  by_cases hz : z = x
  · rw [hz, Function.update_self, Function.update_self]
  · rw [Function.update_of_ne hz, Function.update_of_ne hz]

theorem cleared_map (l : List Nat) : (l.map Event.clear).filterMap Event.cleared = l := by
  rw [List.filterMap_map]
  exact List.filterMap_some

theorem ledger_released (ho : s.objects x = some o) {left : Option PgResult}
    (hleft : left.bind PgResult.res_ = none) : (s.released x o left).ledger = s.ledger.release x := by
  simp only [State.ledger, State.released, holds_update, hleft, Ledger.release, List.filterMap_append,
    cleared_map, ho, Option.bind_some]

theorem ledger_acquired (x : Address) (result : PGresult) :
    (s.acquired x (some result)).ledger = s.ledger.acquire x := by
  simp only [State.ledger, State.acquired, holds_update, Ledger.acquire, List.filterMap_append,
    List.length_append, List.length_singleton, Option.bind_some]
  simp [Event.cleared]

theorem ledger_empty_object (hx : s.objects x = none) :
    ({ s with objects := Function.update s.objects x (some {}) } : State).ledger = s.ledger := by
  have hholds : (s.objects x).bind PgResult.res_ = none := by rw [hx]; rfl
  simp only [State.ledger, holds_update, Option.bind_some]
  congr 1
  rw [← hholds]
  exact Function.update_eq_self x fun z => (s.objects z).bind PgResult.res_

theorem ledger_moved (hxy : x ≠ y) (ho : s.objects x = some o) (ho' : s.objects y = some o') :
    (s.moved x y o o').ledger = (s.ledger.release x).give x y := by
  simp only [State.ledger, State.moved, holds_update, Ledger.release, Ledger.give,
    List.filterMap_append, cleared_map, ho, Option.bind_some, Function.update_of_ne (Ne.symm hxy), ho',
    Function.update_idem]

theorem ReadsLive.append {log l : List Event} (h : ReadsLive log)
    (hl : ∀ before r after, l = before ++ .read r :: after → ∃ p, r = some p ∧ .clear p ∉ log ++ before) :
    ReadsLive (log ++ l) := by
  intro before r after heq
  rcases List.append_eq_append_iff.mp heq with ⟨mid, rfl, hmid⟩ | ⟨mid, hmid, hrest⟩
  · exact hl mid r after hmid
  · cases mid with
    | nil =>
      obtain ⟨p, hr, hp⟩ := hl [] r after hrest.symm
      rw [hmid, List.append_nil, List.append_nil] at hp
      exact ⟨p, hr, hp⟩
    | cons e mid =>
      obtain ⟨rfl, -⟩ := List.cons.inj hrest
      exact h before r mid hmid

theorem ReadsLive.clear {log : List Event} (h : ReadsLive log) (l : List Nat) :
    ReadsLive (log ++ l.map .clear) := by
  refine h.append fun before r after heq => ?_
  have hmem : .read r ∈ l.map Event.clear := by
    rw [heq]
    exact List.mem_append_right _ List.mem_cons_self
  obtain ⟨p, _, hp⟩ := List.mem_map.mp hmem
  cases hp

theorem ReadsLive.read {log : List Event} (h : ReadsLive log) {p : Nat} (hp : .clear p ∉ log) :
    ReadsLive (log ++ [.read (some p)]) := by
  refine h.append fun before r after heq => ?_
  rcases List.singleton_eq_append_iff.mp heq with ⟨rfl, hread⟩ | ⟨-, hnone⟩
  · obtain ⟨hr, -⟩ := List.cons.inj hread
    rw [List.append_nil]
    exact ⟨p, Event.read.inj hr, hp⟩
  · cases hnone

theorem status_update {objects : Address → Option PgResult} {status : Option Nat → ExecStatusType}
    (h : ∀ z o, objects z = some o → o.status_ = status o.res_) {left : Option PgResult}
    (hleft : ∀ o, left = some o → o.status_ = status o.res_) (x : Address) :
    ∀ z o, Function.update objects x left z = some o → o.status_ = status o.res_ := by
  intro z o ho
  by_cases hz : z = x
  · rw [hz, Function.update_self] at ho
    exact hleft o ho
  · rw [Function.update_of_ne hz] at ho
    exact h z o ho

theorem status_empty (s : State) (o : PgResult) (ho : some ({} : PgResult) = some o) :
    o.status_ = s.statusOf o.res_ := by
  obtain rfl := Option.some.inj ho
  rfl

theorem State.Sound.not_cleared (h : s.Sound) (hx : s.objects x = some o) {p : Nat}
    (hp : o.res_ = some p) : p < s.results.length ∧ .clear p ∉ s.log := by
  have hholds : s.ledger.holds x = some p := by
    show (s.objects x).bind PgResult.res_ = some p
    rw [hx]
    exact hp
  obtain ⟨hlt, hcount⟩ := h.ledger.held x p hholds
  refine ⟨hlt, fun hmem => ?_⟩
  exact List.count_eq_zero.mp hcount (List.mem_filterMap.mpr ⟨.clear p, hmem, rfl⟩)

theorem State.Sound.emptyObject (h : s.Sound) (hx : s.objects x = none) :
    ({ s with objects := Function.update s.objects x (some {}) } : State).Sound := by
  refine ⟨?_, status_update h.status (status_empty s) x, h.reads⟩
  rw [ledger_empty_object hx]
  exact h.ledger

theorem State.Sound.released (h : s.Sound) (ho : s.objects x = some o) {left : Option PgResult}
    (hleft : ∀ o, left = some o → o = {}) : (s.released x o left).Sound := by
  refine ⟨?_, status_update h.status (fun o ho => ?_) x, h.reads.clear _⟩
  · have hnone : left.bind PgResult.res_ = none := by
      cases hl : left with
      | none => rfl
      | some o => rw [hleft o hl]; rfl
    rw [ledger_released ho hnone]
    exact h.ledger.release x
  · rw [hleft o ho]
    rfl

theorem statusOf_append (s : State) (result : PGresult) {r : Option Nat}
    (hr : ∀ p, r = some p → p < s.results.length) :
    (s.acquired x (some result)).statusOf r = s.statusOf r := by
  cases r with
  | none => rfl
  | some p => simp only [State.statusOf, State.acquired, List.getElem?_append_left (hr p rfl)]

theorem State.Sound.acquired (h : s.Sound) (hx : s.objects x = none) (reply : Option PGresult) :
    (s.acquired x reply).Sound := by
  cases reply with
  | none => exact h.emptyObject hx
  | some result =>
    refine ⟨?_, status_update (fun z o ho => ?_) (fun o ho => ?_) x, h.reads.read ?_⟩
    · rw [ledger_acquired]
      refine h.ledger.acquire ?_
      show (s.objects x).bind PgResult.res_ = none
      rw [hx]
      rfl
    · rw [statusOf_append s result fun p hp => (h.not_cleared ho hp).1]
      exact h.status z o ho
    · obtain rfl := Option.some.inj ho
      simp [State.statusOf, State.acquired]
    · have hfresh := h.ledger.fresh s.results.length (Nat.le_refl _)
      exact fun hmem => List.count_eq_zero.mp hfresh (List.mem_filterMap.mpr ⟨_, hmem, rfl⟩)

theorem State.Sound.moved (h : s.Sound) (hxy : x ≠ y) (ho : s.objects x = some o)
    (ho' : s.objects y = some o') : (s.moved x y o o').Sound := by
  refine ⟨?_, status_update (status_update h.status (fun a ha => ?_) x) (status_empty s) y,
    h.reads.clear _⟩
  · rw [ledger_moved hxy ho ho']
    exact (h.ledger.release x).give hxy (Function.update_self ..)
  · obtain rfl := Option.some.inj ha
    exact h.status y _ ho'

theorem State.Sound.read (h : s.Sound) (ho : s.objects x = some o) {p : Nat} (hp : o.res_ = some p) :
    ({ s with log := s.log ++ [.read (some p)] } : State).Sound := by
  refine ⟨?_, h.status, h.reads.read (h.not_cleared ho hp).2⟩
  have hledger : ({ s with log := s.log ++ [.read (some p)] } : State).ledger = s.ledger := by
    simp [State.ledger, Event.cleared]
  rw [hledger]
  exact h.ledger

end sound

/-! ### What a function keeps -/

def Keeps {α : Type} (P : State → Prop) (m : Action α) : Prop :=
  ∀ s a s', P s → m s = some (a, s') → P s'

section keeps
variable {α β : Type} {P : State → Prop} {x y : Address} {o : PgResult}

theorem Keeps.pure (a : α) : Keeps P (pure a) := by
  intro s b s' hs heq
  obtain rfl := (Prod.mk.inj (Option.some.inj heq)).2
  exact hs

theorem Keeps.bind {m : Action α} {f : α → Action β} (hm : Keeps P m) (hf : ∀ a, Keeps P (f a)) :
    Keeps P (m >>= f) := by
  intro s b s' hs heq
  obtain ⟨a, t, hma, hfa⟩ := bind_eq_some.mp heq
  exact hf a t b s' (hm s a t hs hma) hfa

theorem Keeps.forM {f : α → Action Unit} (hf : ∀ a, Keeps P (f a)) (l : List α) : Keeps P (l.forM f) := by
  induction l with
  | nil => exact .pure ()
  | cons a l ih => exact .bind (hf a) fun _ => ih

/-- A sound state where the object at `x` is `o`. -/
def State.Has (x : Address) (o : PgResult) (s : State) : Prop := s.Sound ∧ s.objects x = some o

theorem keeps_object {f : PgResult → Action β} (hf : ∀ o, Keeps (State.Has x o) (f o)) :
    Keeps State.Sound (object x >>= f) := by
  intro s b s' hs heq
  obtain ⟨o, t, hobject, hfo⟩ := bind_eq_some.mp heq
  obtain ⟨ho, rfl⟩ := object_eq_some.mp hobject
  exact (hf o t b s' ⟨hs, ho⟩ hfo).1

theorem keeps_readResult (hr : o.res_.isSome) : Keeps (State.Has x o) (readResult o.res_) := by
  rintro s a s' ⟨hs, ho⟩ heq
  obtain ⟨p, hp⟩ := Option.isSome_iff_exists.mp hr
  obtain rfl := (Prod.mk.inj (Option.some.inj heq)).2
  rw [hp]
  exact ⟨hs.read ho hp, ho⟩

theorem keeps_construct (x : Address) : Keeps State.Sound (construct x) := by
  intro s a s' hs heq
  obtain ⟨hx, rfl⟩ := construct_eq_some.mp heq
  exact hs.emptyObject hx

theorem keeps_constructFrom (x : Address) (reply : Option PGresult) :
    Keeps State.Sound (constructFrom x reply) := by
  intro s a s' hs heq
  obtain ⟨hx, rfl⟩ := constructFrom_eq_some.mp heq
  exact hs.acquired hx reply

theorem keeps_reset (x : Address) : Keeps State.Sound (reset x) := by
  intro s a s' hs heq
  obtain ⟨o, ho, rfl⟩ := reset_eq_some.mp heq
  exact hs.released ho fun o ho => (Option.some.inj ho).symm

theorem keeps_destroy (x : Address) : Keeps State.Sound (destroy x) := by
  intro s a s' hs heq
  obtain ⟨o, ho, rfl⟩ := destroy_eq_some.mp heq
  exact hs.released ho fun o ho => by cases ho

theorem keeps_moveAssign (x y : Address) : Keeps State.Sound (moveAssign x y) := by
  intro s a s' hs heq
  obtain ⟨o, o', ho, ho', rfl⟩ := moveAssign_eq_some.mp heq
  by_cases hxy : x = y
  · rwa [if_pos hxy]
  · rw [if_neg hxy]
    exact hs.moved hxy ho ho'

theorem keeps_queryResult {m : Action Unit}
    (hm : ∀ s, ∃ queryResult, m s = some ((), { s with queryResult := queryResult })) :
    Keeps (State.Has x o) m := by
  intro s a s' hs heq
  obtain ⟨queryResult, hqueryResult⟩ := hm s
  rw [hqueryResult] at heq
  obtain rfl := (Prod.mk.inj (Option.some.inj heq)).2
  exact ⟨⟨hs.1.ledger, hs.1.status, hs.1.reads⟩, hs.2⟩

theorem keeps_performRealQuery (d : Nat) (reply : Option PGresult) :
    Keeps State.Sound (performRealQuery d reply) := by
  refine .bind (keeps_constructFrom _ reply) fun _ => ?_
  refine .bind (keeps_moveAssign _ _) fun _ => ?_
  refine .bind (keeps_destroy _) fun _ => ?_
  exact keeps_object fun o => .pure _

theorem keeps_processQueryOutput (d : Nat) : Keeps State.Sound (processQueryOutput d) := by
  refine keeps_object fun o => ?_
  by_cases hr : o.res_.isSome
  · rw [if_pos hr]
    have hread : ∀ {γ : Type} (f : PGresult → γ),
        Keeps (State.Has (.result_ d) o) (do return f (← readResult o.res_)) := fun f =>
      .bind (keeps_readResult hr) fun _ => .pure _
    have happend : ∀ text, Keeps (State.Has (.result_ d) o) (appendQueryResult d text) :=
      fun text => keeps_queryResult fun _ => ⟨_, rfl⟩
    refine .bind (keeps_queryResult fun _ => ⟨_, rfl⟩) fun _ => ?_
    refine .bind (hread _) fun rows => ?_
    refine .bind (hread _) fun columns => ?_
    refine .forM (fun row => ?_) _
    refine .bind (.forM (fun col => ?_) _) fun _ => happend _
    exact .bind (hread _) fun strres => happend _
  · rw [if_neg hr]
    exact .pure ()

theorem keeps_getAffectedRows (d : Nat) : Keeps State.Sound (getAffectedRows d) := by
  refine keeps_object fun o => ?_
  by_cases hr : o.res_.isSome
  · rw [if_pos hr]
    refine .bind (.bind (keeps_readResult hr) fun _ => .pure _) fun affected_rows => ?_
    by_cases hempty : affected_rows = []
    · rw [if_pos hempty]
      exact .pure _
    · rw [if_neg hempty]
      exact .pure _
  · rw [if_neg hr]
    exact .pure _

theorem keeps_getErrorString (d : Nat) (PQresStatus : ExecStatusType → Str) (psql_errstring : Str) :
    Keeps State.Sound (getErrorString d PQresStatus psql_errstring) := by
  refine keeps_object fun o => ?_
  split_ifs <;> exact .pure _

theorem keeps_getServerVersion (reply : Option PGresult) (serverVersion : Int) :
    Keeps State.Sound (getServerVersion reply serverVersion) := by
  have hend : ∀ version : Str, Keeps State.Sound (do destroy .temporary; return version) := fun _ =>
    .bind (keeps_destroy _) fun _ => .pure _
  refine .bind (keeps_constructFrom _ reply) fun _ => ?_
  intro s a s' hs heq
  obtain ⟨o, t, hobject, hrest⟩ := bind_eq_some.mp heq
  obtain ⟨ho, rfl⟩ := object_eq_some.mp hobject
  by_cases hok : o.status_ = .PGRES_TUPLES_OK
  · rw [if_pos hok] at hrest
    have hr : o.res_.isSome := by
      rw [Option.isSome_iff_ne_none]
      intro hnone
      have hstatus := hs.status _ o ho
      rw [hnone, hok] at hstatus
      cases hstatus
    have hread : Keeps (State.Has .temporary o) (PQgetvalue o.res_ 0 0) :=
      .bind (keeps_readResult hr) fun _ => .pure _
    obtain ⟨version, t', hversion, hdestroy⟩ := bind_eq_some.mp hrest
    exact hend version t' a s' (hread t version t' ⟨hs, ho⟩ hversion).1 hdestroy
  · rw [if_neg hok] at hrest
    exact Keeps.bind (.pure _) hend t a s' hs hrest

theorem keeps_perform (op : Operation) : Keeps State.Sound (perform op) := by
  cases op with
  | construct n => exact keeps_construct _
  | constructFrom n reply => exact keeps_constructFrom _ reply
  | moveAssign n m => exact keeps_moveAssign _ _
  | reset n => exact keeps_reset _
  | destroy n => exact keeps_destroy _
  | newDatabase d => exact keeps_construct _
  | deleteDatabase d => exact keeps_destroy _
  | performRealQuery d reply => exact .bind (keeps_performRealQuery d reply) fun _ => .pure _
  | processQueryOutput d => exact keeps_processQueryOutput d
  | cleanupResult d => exact keeps_reset _
  | getAffectedRows d => exact .bind (keeps_getAffectedRows d) fun _ => .pure _
  | getErrorString d PQresStatus psql_errstring =>
    exact .bind (keeps_getErrorString d PQresStatus psql_errstring) fun _ => .pure _
  | getServerVersion reply serverVersion =>
    exact .bind (keeps_getServerVersion reply serverVersion) fun _ => .pure _

theorem run_sound {ops : List Operation} {s : State} (h : run ops = some s) : s.Sound := by
  obtain ⟨⟨u, t⟩, hrun, rfl⟩ := Option.map_eq_some_iff.mp h
  exact Keeps.forM keeps_perform ops State.empty u t sound_empty hrun

end keeps

/-! ### Operations on objects that exist -/

/-- An object that the operation makes is new, and one that it uses exists. -/
def Operation.Ready (s : State) : Operation → Prop
  | .construct n | .constructFrom n _ => s.objects (.object n) = none
  | .moveAssign n m => (s.objects (.object n)).isSome ∧ (s.objects (.object m)).isSome
  | .reset n | .destroy n => (s.objects (.object n)).isSome
  | .newDatabase d => s.objects (.result_ d) = none
  | .deleteDatabase d | .performRealQuery d _ | .processQueryOutput d | .cleanupResult d
  | .getAffectedRows d | .getErrorString d _ _ => (s.objects (.result_ d)).isSome
  | .getServerVersion _ _ => True

/-- A function that is done in every state and leaves the objects as they are. -/
def Total {α : Type} (m : Action α) : Prop :=
  ∀ s, ∃ a s', m s = some (a, s') ∧ s'.objects = s.objects

section total
variable {α β : Type}

theorem Total.pure (a : α) : Total (pure a) := fun s => ⟨a, s, rfl, rfl⟩

theorem Total.bind {m : Action α} {f : α → Action β} (hm : Total m) (hf : ∀ a, Total (f a)) :
    Total (m >>= f) := by
  intro s
  obtain ⟨a, t, hma, ht⟩ := hm s
  obtain ⟨b, s', hfa, hs'⟩ := hf a t
  exact ⟨b, s', bind_eq_some.mpr ⟨a, t, hma, hfa⟩, hs'.trans ht⟩

theorem Total.forM {f : α → Action Unit} (hf : ∀ a, Total (f a)) (l : List α) : Total (l.forM f) := by
  induction l with
  | nil => exact .pure ()
  | cons a l ih => exact .bind (hf a) fun _ => ih

theorem total_read {γ : Type} (r : Option Nat) (f : PGresult → γ) :
    Total (do return f (← readResult r)) :=
  .bind (fun _ => ⟨_, _, rfl, rfl⟩) fun _ => .pure _

theorem total_appendQueryResult (d : Nat) (text : Str) : Total (appendQueryResult d text) :=
  fun _ => ⟨_, _, rfl, rfl⟩

theorem total_object {x : Address} {f : PgResult → Action β} (hf : ∀ o, Total (f o)) {s : State}
    (hx : (s.objects x).isSome) :
    ∃ b s', (object x >>= f) s = some (b, s') ∧ s'.objects = s.objects := by
  obtain ⟨o, ho⟩ := Option.isSome_iff_exists.mp hx
  obtain ⟨b, s', hfo, hs'⟩ := hf o s
  exact ⟨b, s', bind_eq_some.mpr ⟨o, s, object_eq_some.mpr ⟨ho, rfl⟩, hfo⟩, hs'⟩

variable {d : Nat} {s : State}

theorem total_processQueryOutput (hd : (s.objects (.result_ d)).isSome) :
    ∃ u s', processQueryOutput d s = some (u, s') ∧ s'.objects = s.objects := by
  refine total_object (fun o => ?_) hd
  split_ifs
  · refine .bind (fun _ => ⟨_, _, rfl, rfl⟩) fun _ => ?_
    refine .bind (total_read _ _) fun rows => ?_
    refine .bind (total_read _ _) fun columns => ?_
    refine .forM (fun row => ?_) _
    refine .bind (.forM (fun col => ?_) _) fun _ => total_appendQueryResult d _
    exact .bind (total_read _ _) fun strres => total_appendQueryResult d _
  · exact .pure ()

theorem total_getAffectedRows (hd : (s.objects (.result_ d)).isSome) :
    ∃ rows s', getAffectedRows d s = some (rows, s') ∧ s'.objects = s.objects := by
  refine total_object (fun o => ?_) hd
  split_ifs
  · refine .bind (total_read _ _) fun affected_rows => ?_
    split_ifs <;> exact .pure _
  · exact .pure _

theorem total_getErrorString (PQresStatus : ExecStatusType → Str) (psql_errstring : Str)
    (hd : (s.objects (.result_ d)).isSome) :
    ∃ text s', getErrorString d PQresStatus psql_errstring s = some (text, s') ∧
      s'.objects = s.objects := by
  refine total_object (fun o => ?_) hd
  split_ifs <;> exact .pure _

@[simp] theorem objects_released (s : State) (x : Address) (o : PgResult) (left : Option PgResult) :
    (s.released x o left).objects = Function.update s.objects x left := rfl

@[simp] theorem objects_moved (s : State) (x y : Address) (o o' : PgResult) :
    (s.moved x y o o').objects =
      Function.update (Function.update s.objects x (some o')) y (some {}) := rfl

theorem objects_acquired (s : State) (x : Address) (reply : Option PGresult) :
    ∃ o, (s.acquired x reply).objects = Function.update s.objects x (some o) := by
  cases reply with
  | none => exact ⟨_, rfl⟩
  | some result => exact ⟨_, rfl⟩

theorem performRealQuery_ready (reply : Option PGresult) (htemporary : s.objects .temporary = none)
    (hd : (s.objects (.result_ d)).isSome) :
    ∃ ok s', performRealQuery d reply s = some (ok, s') ∧ s'.objects .temporary = none := by
  have hne : Address.result_ d ≠ .temporary := Address.noConfusion
  obtain ⟨o, ho⟩ := Option.isSome_iff_exists.mp hd
  obtain ⟨o', hobjects⟩ := objects_acquired s .temporary reply
  let t := s.acquired .temporary reply
  have ht : t.objects (.result_ d) = some o := by
    rw [hobjects, Function.update_of_ne hne]
    exact ho
  have ht' : t.objects .temporary = some o' := by rw [hobjects, Function.update_self]
  let u := t.moved (.result_ d) .temporary o o'
  have hmove : moveAssign (.result_ d) .temporary t = some ((), u) :=
    moveAssign_eq_some.mpr ⟨o, o', ht, ht', (if_neg hne).symm⟩
  have hu : u.objects .temporary = some {} := by simp [u]
  let v := u.released .temporary {} none
  have hv : v.objects (.result_ d) = some o' := by simp [v, u]
  refine ⟨decide (o'.status_ = .PGRES_TUPLES_OK ∨ o'.status_ = .PGRES_COMMAND_OK), v, ?_, by simp [v]⟩
  refine bind_eq_some.mpr ⟨(), t, constructFrom_eq_some.mpr ⟨htemporary, rfl⟩, ?_⟩
  refine bind_eq_some.mpr ⟨(), u, hmove, ?_⟩
  refine bind_eq_some.mpr ⟨(), v, destroy_eq_some.mpr ⟨{}, hu, rfl⟩, ?_⟩
  exact bind_eq_some.mpr ⟨o', v, object_eq_some.mpr ⟨hv, rfl⟩, rfl⟩

theorem getServerVersion_ready (reply : Option PGresult) (serverVersion : Int)
    (htemporary : s.objects .temporary = none) :
    ∃ version s', getServerVersion reply serverVersion s = some (version, s') ∧
      s'.objects .temporary = none := by
  obtain ⟨o, hobjects⟩ := objects_acquired s .temporary reply
  have ho : (s.acquired .temporary reply).objects .temporary = some o := by
    rw [hobjects, Function.update_self]
  have hread : ∀ version : Action Str, Total version → ∃ text s',
      (version >>= fun text => do destroy .temporary; return text)
        (s.acquired .temporary reply) = some (text, s') ∧ s'.objects .temporary = none := by
    intro version hversion
    obtain ⟨text, t, hrun, ht⟩ := hversion (s.acquired .temporary reply)
    refine ⟨text, t.released .temporary o none, ?_, by simp⟩
    refine bind_eq_some.mpr ⟨text, t, hrun, ?_⟩
    refine bind_eq_some.mpr ⟨(), _, destroy_eq_some.mpr ⟨o, ?_, rfl⟩, rfl⟩
    rw [ht]
    exact ho
  obtain ⟨text, s', hrest, hs'⟩ : ∃ text s', ((if o.status_ = .PGRES_TUPLES_OK then
      PQgetvalue o.res_ 0 0 else pure ("PostgreSQL Server ".toList ++ to_string serverVersion)) >>=
        fun text => do destroy .temporary; return text)
        (s.acquired .temporary reply) = some (text, s') ∧ s'.objects .temporary = none := by
    refine hread _ ?_
    split_ifs
    · exact total_read _ _
    · exact .pure _
  refine ⟨text, s', ?_, hs'⟩
  refine bind_eq_some.mpr ⟨(), _, constructFrom_eq_some.mpr ⟨htemporary, rfl⟩, ?_⟩
  refine bind_eq_some.mpr ⟨o, _, object_eq_some.mpr ⟨ho, rfl⟩, ?_⟩
  rw [← hrest]
  split_ifs <;> rfl

theorem construct_ready {x : Address} (hx : x ≠ .temporary) (hnone : s.objects x = none)
    (htemporary : s.objects .temporary = none) :
    ∃ s', construct x s = some ((), s') ∧ s'.objects .temporary = none :=
  ⟨_, construct_eq_some.mpr ⟨hnone, rfl⟩, by simp [hx.symm, htemporary]⟩

theorem reset_ready {x : Address} (hx : x ≠ .temporary) (hsome : (s.objects x).isSome)
    (htemporary : s.objects .temporary = none) :
    ∃ s', reset x s = some ((), s') ∧ s'.objects .temporary = none := by
  obtain ⟨o, ho⟩ := Option.isSome_iff_exists.mp hsome
  exact ⟨_, reset_eq_some.mpr ⟨o, ho, rfl⟩, by simp [hx.symm, htemporary]⟩

theorem destroy_ready {x : Address} (hx : x ≠ .temporary) (hsome : (s.objects x).isSome)
    (htemporary : s.objects .temporary = none) :
    ∃ s', destroy x s = some ((), s') ∧ s'.objects .temporary = none := by
  obtain ⟨o, ho⟩ := Option.isSome_iff_exists.mp hsome
  exact ⟨_, destroy_eq_some.mpr ⟨o, ho, rfl⟩, by simp [hx.symm, htemporary]⟩

/-- An operation whose objects exist is done, and between two operations there is no temporary. -/
theorem perform_ready {op : Operation} (hready : op.Ready s) (htemporary : s.objects .temporary = none) :
    ∃ s', perform op s = some ((), s') ∧ s'.objects .temporary = none := by
  have hdiscard : ∀ {γ : Type} {m : Action γ}, (∃ a s', m s = some (a, s') ∧
      s'.objects .temporary = none) →
      ∃ s', (do let _ ← m : Action Unit) s = some ((), s') ∧ s'.objects .temporary = none := by
    rintro γ m ⟨a, s', hm, hs'⟩
    exact ⟨s', bind_eq_some.mpr ⟨a, s', hm, rfl⟩, hs'⟩
  cases op with
  | construct n => exact construct_ready Address.noConfusion hready htemporary
  | constructFrom n reply =>
    obtain ⟨o, hobjects⟩ := objects_acquired s (.object n) reply
    exact ⟨_, constructFrom_eq_some.mpr ⟨hready, rfl⟩, by simp [hobjects, htemporary]⟩
  | moveAssign n m =>
    obtain ⟨o, ho⟩ := Option.isSome_iff_exists.mp hready.1
    obtain ⟨o', ho'⟩ := Option.isSome_iff_exists.mp hready.2
    refine ⟨_, moveAssign_eq_some.mpr ⟨o, o', ho, ho', rfl⟩, ?_⟩
    split_ifs
    · exact htemporary
    · simp [htemporary]
  | reset n => exact reset_ready Address.noConfusion hready htemporary
  | destroy n => exact destroy_ready Address.noConfusion hready htemporary
  | newDatabase d => exact construct_ready Address.noConfusion hready htemporary
  | deleteDatabase d => exact destroy_ready Address.noConfusion hready htemporary
  | performRealQuery d reply => exact hdiscard (performRealQuery_ready reply htemporary hready)
  | processQueryOutput d =>
    obtain ⟨u, s', hrun, hs'⟩ := total_processQueryOutput hready
    exact ⟨s', hrun, by rw [hs', htemporary]⟩
  | cleanupResult d => exact reset_ready Address.noConfusion hready htemporary
  | getAffectedRows d =>
    obtain ⟨rows, s', hrun, hs'⟩ := total_getAffectedRows hready
    exact hdiscard ⟨rows, s', hrun, by rw [hs', htemporary]⟩
  | getErrorString d PQresStatus psql_errstring =>
    obtain ⟨text, s', hrun, hs'⟩ := total_getErrorString PQresStatus psql_errstring hready
    exact hdiscard ⟨text, s', hrun, by rw [hs', htemporary]⟩
  | getServerVersion reply serverVersion =>
    exact hdiscard (getServerVersion_ready reply serverVersion htemporary)

theorem ready_of_perform {op : Operation} {s' : State} (h : perform op s = some ((), s')) :
    op.Ready s := by
  have hobject : ∀ {γ : Type} {x : Address} {f : PgResult → Action γ} {a : γ} {t : State},
      (object x >>= f) s = some (a, t) → (s.objects x).isSome := by
    intro γ x f a t hrun
    obtain ⟨o, u, ho, -⟩ := bind_eq_some.mp hrun
    rw [(object_eq_some.mp ho).1]
    rfl
  cases op with
  | construct n => exact (construct_eq_some.mp h).1
  | constructFrom n reply => exact (constructFrom_eq_some.mp h).1
  | moveAssign n m =>
    obtain ⟨o, o', ho, ho', -⟩ := moveAssign_eq_some.mp h
    exact ⟨by rw [ho]; rfl, by rw [ho']; rfl⟩
  | reset n => exact hobject h
  | destroy n =>
    obtain ⟨o, ho, -⟩ := destroy_eq_some.mp h
    exact Option.isSome_iff_exists.mpr ⟨o, ho⟩
  | newDatabase d => exact (construct_eq_some.mp h).1
  | deleteDatabase d =>
    obtain ⟨o, ho, -⟩ := destroy_eq_some.mp h
    exact Option.isSome_iff_exists.mpr ⟨o, ho⟩
  | performRealQuery d reply =>
    obtain ⟨_, _, hrun, -⟩ := bind_eq_some.mp h
    obtain ⟨_, t, hconstruct, hrun⟩ := bind_eq_some.mp hrun
    obtain ⟨_, _, hmove, -⟩ := bind_eq_some.mp hrun
    obtain ⟨o, o', ho, -, -⟩ := moveAssign_eq_some.mp hmove
    obtain ⟨o'', hobjects⟩ := objects_acquired s .temporary reply
    rw [(constructFrom_eq_some.mp hconstruct).2, hobjects,
      Function.update_of_ne Address.noConfusion] at ho
    exact Option.isSome_iff_exists.mpr ⟨o, ho⟩
  | processQueryOutput d => exact hobject h
  | cleanupResult d => exact hobject h
  | getAffectedRows d =>
    obtain ⟨_, _, hrun, -⟩ := bind_eq_some.mp h
    exact hobject hrun
  | getErrorString d PQresStatus psql_errstring =>
    obtain ⟨_, _, hrun, -⟩ := bind_eq_some.mp h
    exact hobject hrun
  | getServerVersion reply serverVersion => exact trivial

end total

section runs
variable {ops : List Operation} {s : State}

theorem run_temporary (h : run ops = some s) : s.objects .temporary = none := by
  have hkeeps : ∀ op, Keeps (fun s => s.objects .temporary = none) (perform op) := by
    intro op s u s' hs hrun
    obtain ⟨t, hready, ht⟩ := perform_ready (ready_of_perform hrun) hs
    rw [hrun] at hready
    rwa [(Prod.mk.inj (Option.some.inj hready)).2]
  obtain ⟨⟨u, t⟩, hrun, rfl⟩ := Option.map_eq_some_iff.mp h
  exact Keeps.forM hkeeps ops State.empty u t rfl hrun

/-- A run goes on with exactly the operations whose objects exist. -/
theorem run_concat_isSome (h : run ops = some s) (op : Operation) :
    (run (ops ++ [op])).isSome ↔ op.Ready s := by
  obtain ⟨⟨u, t⟩, hrun, rfl⟩ := Option.map_eq_some_iff.mp h
  have hconcat : (ops ++ [op]).forM perform State.empty = perform op t := by
    have hbind : (ops.forM perform >>= fun _ => perform op) State.empty = perform op t := by
      show (ops.forM perform State.empty).bind (fun r => perform op r.2) = _
      rw [hrun]
      rfl
    simpa using hbind
  rw [run, hconcat, Option.isSome_map]
  constructor
  · intro hsome
    obtain ⟨⟨v, s'⟩, hs'⟩ := Option.isSome_iff_exists.mp hsome
    exact ready_of_perform hs'
  · intro hready
    obtain ⟨s', hs', -⟩ := perform_ready hready (run_temporary h)
    rw [hs']
    rfl

end runs

/-! ### Each result is cleared once -/

theorem count_clear (log : List Event) (p : Nat) :
    log.count (.clear p) = (log.filterMap Event.cleared).count p := by
  induction log with
  | nil => rfl
  | cons e log ih =>
    cases e with
    | clear r => simp [Event.cleared, List.count_cons, ih]
    | read r => rw [List.count_cons_of_ne Event.noConfusion, List.filterMap_cons_none rfl, ih]

/-- Whatever the operations and their order: no two objects own one result, a result that is owned has
not been cleared, none is cleared twice, and with all objects gone each has been cleared. What is read
has not been cleared, and every object has the status of what it owns. -/
theorem result_cleared_once (ops : List Operation) (s : State) (h : run ops = some s) :
    (∀ x y o o' p, s.objects x = some o → s.objects y = some o' → o.res_ = some p → o'.res_ = some p →
      x = y) ∧
    (∀ x o p, s.objects x = some o → o.res_ = some p →
      p < s.results.length ∧ s.log.count (.clear p) = 0) ∧
    (∀ p, s.log.count (.clear p) ≤ 1) ∧
    ((∀ x, s.objects x = none) → ∀ p < s.results.length, s.log.count (.clear p) = 1) ∧
    (∀ before r after, s.log = before ++ .read r :: after → ∃ p, r = some p ∧ .clear p ∉ before) ∧
    (∀ x o, s.objects x = some o → match o.res_ with
      | none => o.status_ = .PGRES_EMPTY_QUERY
      | some p => (s.results[p]?).map PGresult.status = some o.status_) := by
  have hsound := run_sound h
  have hholds : ∀ x o p, s.objects x = some o → o.res_ = some p → s.ledger.holds x = some p := by
    intro x o p ho hp
    show (s.objects x).bind PgResult.res_ = some p
    rw [ho]
    exact hp
  refine ⟨fun x y o o' p ho ho' hp hp' => ?_, fun x o p ho hp => ?_, fun p => ?_,
    fun hnone p hp => ?_, hsound.reads, fun x o ho => ?_⟩
  · exact hsound.ledger.unique x y p (hholds x o p ho hp) (hholds y o' p ho' hp')
  · rw [count_clear]
    exact hsound.ledger.held x p (hholds x o p ho hp)
  · rw [count_clear]
    exact hsound.ledger.count_le_one p
  · rw [count_clear]
    refine hsound.ledger.unheld p hp fun x hx => ?_
    have hx' : (s.objects x).bind PgResult.res_ = some p := hx
    rw [hnone x] at hx'
    cases hx'
  · have hstatus := hsound.status x o ho
    cases hr : o.res_ with
    | none => rwa [hr] at hstatus
    | some p =>
      have hp := (hsound.not_cleared ho hr).1
      rw [hstatus, hr]
      simp [State.statusOf, List.getElem?_eq_getElem hp]

theorem result_cleared_once_two_queries :
    ∃ s, run [.newDatabase 0, .performRealQuery 0 (some ⟨.PGRES_TUPLES_OK, 1, [[['1']]], []⟩),
        .processQueryOutput 0, .performRealQuery 0 (some ⟨.PGRES_COMMAND_OK, 0, [], ['3']⟩),
        .cleanupResult 0, .deleteDatabase 0] = some s ∧
      s.log = [.read (some 0), .read (some 0), .read (some 0), .read (some 0), .read (some 1),
        .clear 0, .clear 1] ∧ ∀ p, s.log.count (.clear p) ≤ 1 := by
  obtain ⟨s, hrun, hlog⟩ := Option.map_eq_some_iff.mp (by decide +kernel : (run [.newDatabase 0,
    .performRealQuery 0 (some ⟨.PGRES_TUPLES_OK, 1, [[['1']]], []⟩), .processQueryOutput 0,
    .performRealQuery 0 (some ⟨.PGRES_COMMAND_OK, 0, [], ['3']⟩), .cleanupResult 0,
    .deleteDatabase 0]).map State.log = some [.read (some 0), .read (some 0), .read (some 0),
      .read (some 0), .read (some 1), .clear 0, .clear 1])
  exact ⟨s, hrun, hlog, (result_cleared_once _ s hrun).2.2.1⟩

end PQuery.Pgsql

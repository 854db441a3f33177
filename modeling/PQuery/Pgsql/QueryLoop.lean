import PQuery.DbWorker.Loop
import PQuery.Pgsql.Result

/-!
# The query loop over a PostgreSQL database

A pass of the loop of `workerThread` with the calls of `PgsqlDatabase` where the source has them. It does
what the loop over an abstract database does, answered from the result of its own query only (`own`): a
pass begins and ends without a result, and what is read in between is the result of its query
(`results_stay_in_their_pass`).
-/

namespace PQuery.DbWorker

/-- The operations one after the other, the first with number `c`; whether all of them are made. -/
def runOps (failsAt : Option Nat) : List Op → Nat → Loop → Loop × Bool
  | [], _, l => (l, true)
  | op :: ops, c, l => if failsAt = some c then (l, false) else runOps failsAt ops (c + 1) (l.apply op)

section
variable {w : Worker} {a : Answer} {l : Loop} {failsAt : Option Nat}

theorem runOps_append (ops ops' : List Op) (c : Nat) (l : Loop) :
    runOps failsAt (ops ++ ops') c l = match runOps failsAt ops c l with
      | (l', true) => runOps failsAt ops' (c + ops.length) l'
      | r => r := by
  induction ops generalizing c l with
  | nil => rfl
  | cons op ops ih =>
    rw [List.cons_append, runOps, runOps]
    by_cases hc : failsAt = some c
    · rw [if_pos hc, if_pos hc]
    · rw [if_neg hc, if_neg hc, ih, List.length_cons, Nat.add_right_comm, Nat.add_assoc c]

theorem runOps_none (ops : List Op) (c : Nat) (l : Loop) :
    runOps none ops c l = (ops.foldl Loop.apply l, true) := by
  induction ops generalizing c l with
  | nil => rfl
  | cons op ops ih =>
    rw [runOps, if_neg (by simp), ih]
    rfl

theorem runOps_some {k c : Nat} (hc : c ≤ k) (ops : List Op) (l : Loop) :
    runOps (some k) ops c l = ((ops.take (k - c)).foldl Loop.apply l, decide (c + ops.length ≤ k)) := by
  induction ops generalizing c l with
  | nil => simp [runOps, hc]
  | cons op ops ih =>
    rw [runOps]
    by_cases hk : k = c
    · subst hk
      simp
    · have hlt : c + 1 ≤ k := by omega
      rw [if_neg (by simpa using hk), ih hlt, show k - c = k - (c + 1) + 1 by omega, List.take_succ_cons,
        List.foldl_cons, List.length_cons, show c + (ops.length + 1) = c + 1 + ops.length by omega]

theorem le_of_made {k : Nat} {ops : List Op} {l' : Loop} (h : runOps (some k) ops 0 l = (l', true)) :
    ops.length ≤ k := by
  rw [runOps_some (Nat.zero_le k)] at h
  simpa using congrArg Prod.snd h

theorem iteration_of_failures (hquery : a.queryThrows = false)
    (hfailures : maxConFailures ≤ (l.perform w a).db.consecutive_failures) :
    iteration w a l = (l.perform w a, some .aborted) := by
  unfold iteration
  rw [if_neg (by simp [hquery])]
  simp only [if_pos hfailures]

theorem iteration_eq_runOps (hquery : a.queryThrows = false)
    (hfailures : ¬ maxConFailures ≤ (l.perform w a).db.consecutive_failures) :
    iteration w a l = match runOps a.failsAt (bodyOps w (queryNumber w a l) a) 0 (l.perform w a) with
      | (l', true) => ({ l' with i := (l'.i + 1) % 2 ^ 32 }, none)
      | (l', false) => (l', some .threw) := by
  unfold iteration madeOps
  rw [if_neg (by simp [hquery])]
  simp only [if_neg hfailures]
  cases hk : a.failsAt with
  | none => simp only [runOps_none, Nat.lt_irrefl, if_false]
  | some k =>
    rw [runOps_some (Nat.zero_le k)]
    simp only [Nat.sub_zero, Nat.zero_add, List.length_take]
    by_cases hlt : (bodyOps w (queryNumber w a l) a).length ≤ k
    · rw [if_neg (by omega), decide_eq_true hlt]
    · rw [if_pos (by omega), decide_eq_false hlt]

end

end PQuery.DbWorker

namespace PQuery.Pgsql

open DbWorker

/-! ### A pass -/

/-- What libpq answers in a pass. -/
structure Reply where
  result : Option PGresult
  PQresStatus : ExecStatusType → Str
  psql_errstring : Str

/-- An operation of a pass, with the calls that it takes its text from; none where one of them throws. -/
abbrev Part := Action (Option Op)

def getWarningsCount : Nat := 0

section
variable (d : Nat)

/-- `Database::performQuery`, but for its counters. -/
def performQuery (reply : Option PGresult) : Action Bool := do
  clearQueryResult d
  performRealQuery d reply

def getQueryResult : Action Str := fun s => some (s.queryResult d, s)

/-- The operations one after the other, the first with number `c`; whether all of them are made. -/
def runParts (failsAt : Option Nat) : List Part → Nat → Loop → Action (Loop × Bool)
  | [], _, l => return (l, true)
  | part :: parts, c, l => do
    match ← part with
    | none => return (l, false)
    | some op => if failsAt = some c then return (l, false) else runParts failsAt parts (c + 1) (l.apply op)

def write (text : Str) : Part := return some (.threadLog text)

variable (w : Worker) (a : Answer) (reply : Reply)

def errorParts : List Part :=
  if a.success then [write "#NOERROR".toList]
  else [write "#ERROR ".toList, do
    let text ← getErrorString d reply.PQresStatus reply.psql_errstring
    return some (.threadLog text)]

/-- The statistics of a query up to `getAffectedRows`. -/
def statisticsParts : List Part :=
  errorParts d a reply ++ ["#WARNINGS: ".toList, to_string getWarningsCount, "#CHANGED: ".toList].map write

def affectedRowsPart : Part := do
  let rows ← getAffectedRows d
  return rows.map fun rows => .threadLog (to_string rows.toNat)

/-- What the record of a query ends with. -/
def endTexts (query_number : Nat) : List Str :=
  let p := w.params
  (if p.log_query_duration then ["#Duration: ".toList, a.queryDurationMs.text, " ms".toList] else []) ++
    (if p.log_query_numbers then ["#".toList, numberText query_number] else []) ++ ["\n".toList]

/-- The writes of a pass to the thread log. -/
def threadParts (query_number : Nat) : List Part :=
  let p := w.params
  if logsThread p then
    (queryTexts w query_number a).map write ++
      (if p.log_query_statistics then statisticsParts d a reply ++ [affectedRowsPart d] else []) ++
      (endTexts w a query_number).map write
  else []

/-- One pass of the query loop; `performQuery` does not throw here. -/
def pass (l : Loop) : Action (Loop × Option Exit) := do
  let query_number := queryNumber w a l
  let success ← performQuery d reply.result
  let a := { a with success := success }
  let l := l.perform w a
  if maxConFailures ≤ l.db.consecutive_failures then return (l, some .aborted)
  else
    let parts := threadParts d w a reply query_number
    match ← runParts a.failsAt parts 0 l with
    | (l, false) => return (l, some .threw)
    | (l, true) =>
      if a.failsAt = some parts.length then return (l, some .threw)
      else
        processQueryOutput d
        let strToLog ← getQueryResult d
        let texts := outputTexts w query_number { a with queryResult := strToLog }
        let outputParts := texts.map fun text => return some (.outputLog text)
        match ← runParts a.failsAt outputParts (parts.length + 1) l with
        | (l, false) => return (l, some .threw)
        | (l, true) =>
          if a.failsAt = some (parts.length + 1 + texts.length) then return (l, some .threw)
          else
            cleanupResult d
            return ({ l with i := (l.i + 1) % 2 ^ 32 }, none)

variable (answers : Nat → Answer) (replies : Nat → Reply)

/-- The loop after `n` passes, or as it was left before. -/
def runConnected : Nat → Action (Loop × Option Exit)
  | 0 => return (.initial, none)
  | n + 1 => do
    match ← runConnected n with
    | (l, none) =>
      if l.i < w.params.queries_per_thread then pass d w (answers n) (replies n) l
      else return (l, some .finished)
    | r => return r

/-- The loop, and around it the object of the thread, which is destroyed however the thread ends. -/
def queryLoop (n : Nat) : Action (Loop × Option Exit) := do
  construct (.result_ d)
  let r ← runConnected d w answers replies n
  destroy (.result_ d)
  return r

end

/-! ### What a reply says -/

section
variable (w : Worker) (a : Answer) (reply : Reply)

def Reply.success : Bool :=
  reply.result.any fun result => decide (result.status = .PGRES_TUPLES_OK ∨ result.status = .PGRES_COMMAND_OK)

/-- None where it is no number of rows. -/
def Reply.affectedRows : Option (BitVec 64) :=
  match reply.result with
  | some result => if result.cmdTuples = [] then some 0 else (stoll result.cmdTuples).map (BitVec.ofInt 64)
  | none => some 0

/-- The message, or its first line with the status of the result before it. -/
def Reply.errorString : Str :=
  let text := if reply.psql_errstring.take 5 = "ERROR".toList then reply.psql_errstring.drop 5
    else reply.psql_errstring
  if '\n' ∉ text then text
  else (reply.result.map fun result => reply.PQresStatus result.status).getD [] ++ text.takeWhile (· ≠ '\n')

def fieldText (strres : Str) : Str := if strres ≠ [] then strres ++ [' '] else "#EMPTY# ".toList

/-- The rows, a line each. -/
def PGresult.text (result : PGresult) : Str :=
  (List.range result.values.length).flatMap fun row =>
    ((List.range result.columns).flatMap fun col =>
      fieldText ((result.values.getD row []).getD col [])) ++ ['\n']

def Reply.output : Str := (reply.result.map PGresult.text).getD []

/-- How many writes to the thread log come before the number of affected rows. -/
def affectedRowsAt : Nat :=
  let p := w.params
  (if p.log_all_queries || (p.log_succeeded_queries && a.success) || (p.log_failed_queries && !a.success) then 1
    else 0) + (if a.success then 1 else 2) + 3

/-- The operation at which the pass throws, `getAffectedRows` being one that may. -/
def thrownAt : Option Nat :=
  if w.params.log_query_statistics ∧ reply.affectedRows = none then
    some (min (a.failsAt.getD (affectedRowsAt w a)) (affectedRowsAt w a))
  else a.failsAt

/-- The answer of a pass about its own query, `a` being what the rest of the outside answers. -/
def own : Answer :=
  let a := { a with
    queryThrows := false
    success := reply.success
    errorString := reply.errorString
    warningsCount := 0
    affectedRows := (reply.affectedRows.getD 0).toNat
    queryResult := reply.output }
  { a with failsAt := thrownAt w a reply }

end

/-! ### What a function does in a pass -/

/-- From a state with `P` the function is done with the result `a`, and then `Q` holds. -/
def Does {α : Type} (P : State → Prop) (m : Action α) (a : α) (Q : State → Prop) : Prop :=
  ∀ s, P s → ∃ s', m s = some (a, s') ∧ Q s'

section does
variable {α β : Type} {P Q R : State → Prop} {a : α} {b : β}

theorem Does.pure (a : α) : Does P (pure a) a P := fun s hs => ⟨s, rfl, hs⟩

theorem Does.bind {m : Action α} {f : α → Action β} (hm : Does P m a Q) (hf : Does Q (f a) b R) :
    Does P (m >>= f) b R := by
  intro s hs
  obtain ⟨t, hma, ht⟩ := hm s hs
  obtain ⟨s', hfa, hs'⟩ := hf t ht
  exact ⟨s', bind_eq_some.mpr ⟨a, t, hma, hfa⟩, hs'⟩

theorem Does.weaken {m : Action α} (hm : Does P m a Q) (hQ : ∀ s, Q s → R s) : Does P m a R := by
  intro s hs
  obtain ⟨s', hma, hs'⟩ := hm s hs
  exact ⟨s', hma, hQ s' hs'⟩

theorem Does.object {x : Address} {o : PgResult} (h : ∀ s, P s → s.objects x = some o) :
    Does P (object x) o P :=
  fun s hs => ⟨s, object_eq_some.mpr ⟨h s hs, rfl⟩, hs⟩

end does

/-- The object that holds a reply of `PQexec` called in `s`. -/
def held (s : State) : Option PGresult → PgResult
  | none => {}
  | some result => ⟨some s.results.length, result.status⟩

/-- In the pass that has begun in `s`, what has been read is the result of its query. -/
structure During (d : Nat) (s : State) (reply : Option PGresult) (text : Str) (t : State) : Prop where
  temporary : t.objects .temporary = none
  result_ : t.objects (.result_ d) = some (held s reply)
  results : t.results = s.results ++ reply.toList
  log : ∃ n, t.log = s.log ++ reply.toList.flatMap fun _ => List.replicate n (.read (some s.results.length))
  queryResult : t.queryResult d = text

/-- The pass that has begun in `s` has left no result. -/
structure Cleared (d : Nat) (s : State) (reply : Option PGresult) (t : State) : Prop where
  temporary : t.objects .temporary = none
  result_ : t.objects (.result_ d) = some {}
  results : t.results = s.results ++ reply.toList
  log : ∃ n, t.log = s.log ++ reply.toList.flatMap fun _ =>
    List.replicate n (.read (some s.results.length)) ++ [.clear s.results.length]

section pass
variable {d : Nat} {s t : State} {reply : Reply} {result : PGresult} {text : Str}

theorem acquired_eq (s : State) (x : Address) (reply : Option PGresult) :
    s.acquired x reply = { s with
      objects := Function.update s.objects x (some (held s reply))
      results := s.results ++ reply.toList
      log := s.log ++ reply.toList.flatMap fun _ => List.replicate 1 (.read (some s.results.length)) } := by
  cases reply with
  | none => simp [State.acquired, held]
  | some result => simp [State.acquired, held]

/-- The temporary of `performRealQuery` leaves its result in `result_`, which was empty. -/
theorem does_performQuery (htemporary : s.objects .temporary = none) (hd : s.objects (.result_ d) = some {}) :
    Does (· = s) (performQuery d reply.result) reply.success (During d s reply.result []) := by
  rintro s rfl
  have hne : Address.result_ d ≠ .temporary := Address.noConfusion
  let cleared : State := { s with queryResult := Function.update s.queryResult d [] }
  let o := held s reply.result
  let made := cleared.acquired .temporary reply.result
  have hmade : made.objects = Function.update s.objects .temporary (some o) :=
    congrArg State.objects (acquired_eq cleared .temporary reply.result)
  let moved := made.moved (.result_ d) .temporary {} o
  have hmove : moveAssign (.result_ d) .temporary made = some ((), moved) := by
    refine moveAssign_eq_some.mpr ⟨{}, o, ?_, ?_, (if_neg hne).symm⟩
    · rw [hmade, Function.update_of_ne hne, hd]
    · rw [hmade, Function.update_self]
  let t := moved.released .temporary {} none
  have ht : t.objects (.result_ d) = some o := by simp [t, moved]
  have hsuccess : decide (o.status_ = .PGRES_TUPLES_OK ∨ o.status_ = .PGRES_COMMAND_OK) = reply.success := by
    cases hreply : reply.result <;> simp [o, held, hreply, Reply.success]
  refine ⟨t, ?_, by simp [t], ht, ?_, ⟨1, ?_⟩, ?_⟩
  · refine bind_eq_some.mpr ⟨(), cleared, rfl, ?_⟩
    refine bind_eq_some.mpr ⟨(), made, constructFrom_eq_some.mpr ⟨htemporary, rfl⟩, ?_⟩
    refine bind_eq_some.mpr ⟨(), moved, hmove, ?_⟩
    refine bind_eq_some.mpr ⟨(), t, destroy_eq_some.mpr ⟨{}, by simp [moved], rfl⟩, ?_⟩
    exact bind_eq_some.mpr ⟨o, t, object_eq_some.mpr ⟨ht, rfl⟩, by rw [← hsuccess]; rfl⟩
  · show made.results = _
    simp only [made, acquired_eq]
    rfl
  · simp only [t, moved, made, acquired_eq, State.released, State.moved, Option.toList_none, List.map_nil,
      List.append_nil]
    rfl
  · show made.queryResult d = []
    simp only [made, acquired_eq]
    exact Function.update_self ..

/-! ### What is read -/

theorem During.does_read {γ : Type} (f : PGresult → γ) :
    Does (During d s (some result) text) (do return f (← readResult (some s.results.length))) (f result)
      (During d s (some result) text) := by
  intro t ht
  have hresult : t.results[s.results.length]? = some result := by simp [ht.results]
  obtain ⟨n, hn⟩ := ht.log
  let t' : State := { t with log := t.log ++ [.read (some s.results.length)] }
  refine ⟨t', ?_, ht.temporary, ht.result_, ht.results, ⟨n + 1, ?_⟩, ht.queryResult⟩
  · refine bind_eq_some.mpr ⟨result, t', ?_, rfl⟩
    simp [readResult, hresult, t']
  · show t.log ++ _ = _
    rw [hn, Option.toList_some, List.flatMap_singleton, List.flatMap_singleton, List.replicate_succ',
      List.append_assoc]

theorem During.does_append (more : Str) :
    Does (During d s (some result) text) (appendQueryResult d more) ()
      (During d s (some result) (text ++ more)) := by
  intro t ht
  refine ⟨_, rfl, ht.temporary, ht.result_, ht.results, ht.log, ?_⟩
  show Function.update t.queryResult d (t.queryResult d ++ more) d = _
  rw [Function.update_self, ht.queryResult]

theorem During.does_forM {γ : Type} {f : γ → Action Unit} {g : γ → Str}
    (hf : ∀ c text, Does (During d s (some result) text) (f c) () (During d s (some result) (text ++ g c)))
    (l : List γ) (text : Str) :
    Does (During d s (some result) text) (l.forM f) () (During d s (some result) (text ++ l.flatMap g)) := by
  induction l generalizing text with
  | nil =>
    rw [List.flatMap_nil, List.append_nil]
    exact .pure ()
  | cons c l ih =>
    rw [List.flatMap_cons, ← List.append_assoc]
    exact .bind (hf c text) (ih _)

theorem does_processQueryOutput :
    Does (During d s reply.result []) (processQueryOutput d) () (During d s reply.result reply.output) := by
  refine .bind (.object fun t ht => ht.result_) ?_
  cases hreply : reply.result with
  | none =>
    rw [if_neg (by simp [held])]
    simp only [Reply.output, hreply]
    exact .pure ()
  | some result =>
    rw [if_pos (by simp [held])]
    simp only [Reply.output, hreply, Option.map_some, Option.getD_some, held]
    refine .bind (Q := During d s (some result) []) (a := ()) ?_ ?_
    · intro t ht
      refine ⟨_, rfl, ht.temporary, ht.result_, ht.results, ht.log, ?_⟩
      exact Function.update_self ..
    · refine .bind (During.does_read _) (.bind (During.does_read _) ?_)
      refine During.does_forM (fun row text => ?_) _ []
      rw [← List.append_assoc]
      refine .bind (During.does_forM (fun col text => ?_) _ text) (During.does_append _)
      exact .bind (During.does_read fun result => (result.values.getD row []).getD col [])
        (During.does_append _)

theorem does_getAffectedRows :
    Does (During d s reply.result text) (getAffectedRows d) reply.affectedRows
      (During d s reply.result text) := by
  refine .bind (.object fun t ht => ht.result_) ?_
  cases hreply : reply.result with
  | none =>
    rw [if_neg (by simp [held])]
    simp only [Reply.affectedRows, hreply]
    exact .pure _
  | some result =>
    rw [if_pos (by simp [held])]
    simp only [Reply.affectedRows, hreply]
    refine .bind (During.does_read PGresult.cmdTuples) ?_
    split <;> exact .pure _

theorem does_getErrorString :
    Does (During d s reply.result text) (getErrorString d reply.PQresStatus reply.psql_errstring)
      reply.errorString (During d s reply.result text) := by
  unfold getErrorString Reply.errorString
  generalize (if reply.psql_errstring.take 5 = "ERROR".toList then reply.psql_errstring.drop 5
    else reply.psql_errstring) = message
  refine .bind (.object fun t ht => ht.result_) ?_
  by_cases hline : '\n' ∉ message
  · simp only [if_pos hline]
    exact .pure _
  · simp only [if_neg hline]
    cases reply.result <;> exact .pure _

theorem does_getQueryResult :
    Does (During d s reply.result text) (getQueryResult d) text (During d s reply.result text) :=
  fun t ht => ⟨t, by rw [getQueryResult, ht.queryResult], ht⟩

theorem does_cleanupResult :
    Does (During d s reply.result text) (cleanupResult d) () (Cleared d s reply.result) := by
  intro t ht
  obtain ⟨n, hn⟩ := ht.log
  refine ⟨_, reset_eq_some.mpr ⟨_, ht.result_, rfl⟩, ?_, ?_, ht.results, n, ?_⟩
  · rw [objects_released, Function.update_of_ne Address.noConfusion, ht.temporary]
  · rw [objects_released, Function.update_self]
  · show t.log ++ _ = _
    rw [hn]
    cases hreply : reply.result <;> simp [held]

end pass

/-! ### The parts of a pass -/

/-- The parts do the operations, up to the one that throws, with `failsAt'` in the place of `failsAt`. -/
inductive Makes (P : State → Prop) (failsAt failsAt' : Option Nat) : Nat → List Part → List Op → Prop
  | nil (c : Nat) : Makes P failsAt failsAt' c [] []
  | cons {c : Nat} {part : Part} {op : Op} {parts : List Part} {ops : List Op} (hpart : Does P part (some op) P)
      (hfails : failsAt = some c ↔ failsAt' = some c) (hrest : Makes P failsAt failsAt' (c + 1) parts ops) :
      Makes P failsAt failsAt' c (part :: parts) (op :: ops)
  | throws {c k : Nat} {part : Part} (parts : List Part) (op : Op) (ops : List Op) (hpart : Does P part none P)
      (hfails : failsAt' = some k) (hk : k ≤ c) : Makes P failsAt failsAt' c (part :: parts) (op :: ops)

/-- The parts do one operation each. -/
abbrev OneEach (P : State → Prop) : List Part → List Op → Prop :=
  List.Forall₂ fun part op => Does P part (some op) P

section parts
variable {P : State → Prop} {failsAt failsAt' : Option Nat} {parts parts' : List Part} {ops ops' : List Op}
  {c : Nat}

theorem Makes.does (h : Makes P failsAt failsAt' c parts ops) (hc : ∀ k, failsAt' = some k → c ≤ k) (l : Loop) :
    Does P (runParts failsAt parts c l) (runOps failsAt' ops c l) P := by
  induction h generalizing l with
  | nil c => exact .pure _
  | @cons c part op parts ops hpart hfails hrest ih =>
    rw [runParts, runOps]
    refine .bind hpart ?_
    by_cases hthrown : failsAt' = some c
    · rw [if_pos hthrown]
      simp only [if_pos (hfails.mpr hthrown)]
      exact .pure _
    · rw [if_neg hthrown]
      simp only [if_neg fun h => hthrown (hfails.mp h)]
      refine ih (fun k hk => ?_) _
      have hle := hc k hk
      have hne : k ≠ c := fun h => hthrown (h ▸ hk)
      omega
  | @throws c k part parts op ops hpart hfails hk =>
    obtain rfl := Nat.le_antisymm hk (hc k hfails)
    rw [runParts, runOps, if_pos hfails]
    exact .bind hpart (.pure _)

theorem Makes.append (h : OneEach P parts ops)
    (hagree : ∀ k, c ≤ k → k < c + ops.length → (failsAt = some k ↔ failsAt' = some k))
    (hrest : Makes P failsAt failsAt' (c + ops.length) parts' ops') :
    Makes P failsAt failsAt' c (parts ++ parts') (ops ++ ops') := by
  induction h generalizing c with
  | nil => exact hrest
  | cons hpart _ ih =>
    rw [List.length_cons] at hagree hrest
    refine .cons hpart (hagree c (Nat.le_refl c) (by omega)) (ih (fun k hk hlt => ?_) ?_)
    · exact hagree k (by omega) (by omega)
    · rwa [Nat.add_right_comm, Nat.add_assoc]

theorem makes_oneEach (h : OneEach P parts ops) (failsAt : Option Nat) (c : Nat) :
    Makes P failsAt failsAt c parts ops := by
  have hnil : Makes P failsAt failsAt (c + ops.length) [] [] := .nil _
  have hmakes := Makes.append h (fun k _ _ => Iff.rfl) hnil
  rwa [List.append_nil, List.append_nil] at hmakes

theorem oneEach_map (op : Str → Op) (texts : List Str) :
    OneEach P (texts.map fun text => return some (op text)) (texts.map op) := by
  induction texts with
  | nil => exact .nil
  | cons text texts ih => exact .cons (.pure _) ih

end parts

/-! ### A pass of the loop -/

section refines
variable {w : Worker} {d : Nat} {s : State} {a b : Answer} {reply : Reply} {l : Loop} {query_number : Nat}

/-- The statistics of a query up to the number of affected rows. -/
def statisticsTexts (a : Answer) : List Str :=
  (if a.success then ["#NOERROR".toList] else ["#ERROR ".toList, a.errorString]) ++
    ["#WARNINGS: ".toList, to_string a.warningsCount, "#CHANGED: ".toList]

theorem threadTexts_eq (w : Worker) (query_number : Nat) (a : Answer) : threadTexts w query_number a =
    if logsThread w.params then
      queryTexts w query_number a ++
        (if w.params.log_query_statistics then statisticsTexts a ++ [to_string a.affectedRows] else []) ++
        endTexts w a query_number
    else [] := by
  unfold threadTexts annotationTexts endTexts statisticsTexts
  split
  · split <;> simp only [List.append_assoc, List.cons_append, List.nil_append]
  · rfl

theorem affectedRowsAt_eq (w : Worker) (a : Answer) (query_number : Nat) :
    affectedRowsAt w a = (queryTexts w query_number a ++ statisticsTexts a).length := by
  simp only [affectedRowsAt, queryTexts, statisticsTexts, List.length_append, apply_ite List.length,
    List.length_cons, List.length_nil, ← Nat.add_assoc]

theorem length_threadParts (w : Worker) (d : Nat) (reply : Reply) (query_number : Nat)
    (h : b.success = a.success) :
    (threadParts d w a reply query_number).length = (threadTexts w query_number b).length := by
  cases b
  obtain rfl := h
  simp only [threadParts, threadTexts_eq, statisticsParts, errorParts, queryTexts, statisticsTexts, endTexts,
    List.length_append, List.length_map, apply_ite (@List.length Part), apply_ite (@List.length Str),
    List.length_cons, List.length_nil]

theorem oneEach_statisticsParts (w : Worker) (d : Nat) (s : State) (a : Answer) (reply : Reply) :
    OneEach (During d s reply.result []) (statisticsParts d { a with success := reply.success } reply)
      ((statisticsTexts (own w a reply)).map .threadLog) := by
  rw [statisticsTexts, List.map_append]
  refine List.rel_append ?_ (oneEach_map .threadLog _)
  show OneEach _ (errorParts d { a with success := reply.success } reply)
    ((if reply.success then ["#NOERROR".toList] else ["#ERROR ".toList, reply.errorString]).map .threadLog)
  unfold errorParts
  cases reply.success with
  | true => exact oneEach_map .threadLog ["#NOERROR".toList]
  | false => exact .cons (.pure _) (.cons (.bind does_getErrorString (.pure _)) .nil)

theorem failsAt_own (w : Worker) (a : Answer) (reply : Reply) : (own w a reply).failsAt =
    if w.params.log_query_statistics ∧ reply.affectedRows = none then
      some (min (a.failsAt.getD (affectedRowsAt w (own w a reply))) (affectedRowsAt w (own w a reply)))
    else a.failsAt := rfl

theorem failsAt_agrees {k : Nat} (hk : k < affectedRowsAt w (own w a reply)) :
    a.failsAt = some k ↔ (own w a reply).failsAt = some k := by
  rw [failsAt_own]
  by_cases hthrows : w.params.log_query_statistics ∧ reply.affectedRows = none
  · rw [if_pos hthrows]
    cases a.failsAt with
    | none => simp [hk.ne']
    | some j =>
      simp only [Option.getD_some, Option.some.injEq]
      omega
  · rw [if_neg hthrows]

theorem makes_threadParts (w : Worker) (d : Nat) (s : State) (a : Answer) (reply : Reply) (query_number : Nat) :
    Makes (During d s reply.result []) a.failsAt (own w a reply).failsAt 0
      (threadParts d w { a with success := reply.success } reply query_number)
      ((threadTexts w query_number (own w a reply)).map .threadLog) := by
  have hqueries : OneEach (During d s reply.result [])
      ((queryTexts w query_number { a with success := reply.success }).map write)
      ((queryTexts w query_number (own w a reply)).map .threadLog) := oneEach_map .threadLog _
  have hend : OneEach (During d s reply.result [])
      ((endTexts w { a with success := reply.success } query_number).map write)
      ((endTexts w (own w a reply) query_number).map .threadLog) := oneEach_map .threadLog _
  have hat := affectedRowsAt_eq w (own w a reply) query_number
  have hfails := failsAt_own w a reply
  rw [threadTexts_eq]
  unfold threadParts
  by_cases hlogs : logsThread w.params
  · rw [if_pos hlogs, if_pos hlogs]
    by_cases hstatistics : w.params.log_query_statistics
    · have hbefore := List.rel_append hqueries (oneEach_statisticsParts w d s a reply)
      have hpart : Does (During d s reply.result []) (affectedRowsPart d)
          (reply.affectedRows.map fun rows => .threadLog (to_string rows.toNat)) (During d s reply.result []) :=
        .bind does_getAffectedRows (.pure _)
      rw [if_pos hstatistics, if_pos hstatistics, ← List.append_assoc, ← List.append_assoc, ← List.append_cons,
        ← List.append_cons, List.map_append, List.map_append, List.map_cons]
      refine Makes.append hbefore (fun k _ hk => failsAt_agrees ?_) ?_
      · rw [hat]
        simpa using hk
      · cases hrows : reply.affectedRows with
        | none =>
          rw [hrows] at hpart
          refine .throws _ _ _ hpart (hfails.trans (if_pos ⟨hstatistics, hrows⟩)) ?_
          simp [hat]
        | some rows =>
          have hsame : (own w a reply).failsAt = a.failsAt := hfails.trans (if_neg (by simp [hrows]))
          have hnumber : (own w a reply).affectedRows = rows.toNat := by simp [own, hrows]
          rw [hrows] at hpart
          rw [hsame, hnumber]
          exact .cons hpart Iff.rfl (makes_oneEach hend _ _)
    · rw [if_neg hstatistics, if_neg hstatistics, List.append_nil, List.append_nil, List.map_append, hfails,
        if_neg fun h => hstatistics h.1]
      exact makes_oneEach (List.rel_append hqueries hend) _ _
  · rw [if_neg hlogs, if_neg hlogs]
    exact .nil 0

theorem failsAt_of_made (h : (runOps (own w a reply).failsAt
    ((threadTexts w query_number (own w a reply)).map .threadLog) 0 l).2 = true) :
    (own w a reply).failsAt = a.failsAt := by
  have hfails := failsAt_own w a reply
  have hat := affectedRowsAt_eq w (own w a reply) query_number
  by_cases hthrows : w.params.log_query_statistics ∧ reply.affectedRows = none
  · exfalso
    rw [if_pos hthrows] at hfails
    rw [hfails, runOps_some (Nat.zero_le _)] at h
    have hlogs : logsThread w.params := by simp [logsThread, hthrows.1]
    have hle := of_decide_eq_true h
    rw [threadTexts_eq, if_pos hlogs, if_pos hthrows.1] at hle
    simp only [List.length_map, List.length_append, List.length_singleton] at hle hat
    omega
  · rw [hfails, if_neg hthrows]

/-- What a pass that has begun in `s` leaves. -/
def Left (d : Nat) (s : State) (reply : Option PGresult) : Option Exit → State → Prop
  | none => Cleared d s reply
  | some _ => fun t => ∃ text, During d s reply text t

theorem bodyOps_eq (w : Worker) (query_number : Nat) (a : Answer) : bodyOps w query_number a =
    (threadTexts w query_number a).map .threadLog ++
      .processQueryOutput :: ((outputTexts w query_number a).map .outputLog ++ [.cleanupResult]) := by
  simp [bodyOps]

/-- A pass is one of the loop that is answered about its own query. -/
theorem does_pass (w : Worker) (a : Answer) (reply : Reply) (l : Loop)
    (htemporary : s.objects .temporary = none) (hd : s.objects (.result_ d) = some {}) :
    Does (· = s) (pass d w a reply l) (iteration w (own w a reply) l)
      (Left d s reply.result (iteration w (own w a reply) l).2) := by
  have hperform : l.perform w { a with success := reply.success } = l.perform w (own w a reply) := rfl
  have hnumber : queryNumber w (own w a reply) l = queryNumber w a l := rfl
  have hquery : (own w a reply).queryThrows = false := rfl
  unfold pass
  refine .bind (does_performQuery htemporary hd) ?_
  simp only [hperform]
  by_cases hfailures : maxConFailures ≤ ((l.perform w (own w a reply)).db.consecutive_failures)
  · rw [iteration_of_failures hquery hfailures]
    simp only [if_pos hfailures]
    exact (Does.pure _).weaken fun t ht => ⟨_, ht⟩
  · rw [iteration_eq_runOps hquery hfailures, hnumber, bodyOps_eq, runOps_append]
    simp only [if_neg hfailures]
    -- the record of the query
    have hthread := (makes_threadParts w d s a reply (queryNumber w a l)).does (fun k _ => Nat.zero_le k)
      (l.perform w (own w a reply))
    refine .bind hthread ?_
    rcases hrun : runOps (own w a reply).failsAt
      ((threadTexts w (queryNumber w a l) (own w a reply)).map .threadLog) 0 (l.perform w (own w a reply))
      with ⟨l₁, _ | _⟩
    · exact (Does.pure _).weaken fun t ht => ⟨_, ht⟩
    · have hfails := failsAt_of_made (congrArg Prod.snd hrun)
      rw [hfails] at hrun ⊢
      have hlength : (threadParts d w { a with success := reply.success } reply (queryNumber w a l)).length =
          (threadTexts w (queryNumber w a l) (own w a reply)).length := length_threadParts w d reply _ rfl
      simp only [hlength, runOps, List.length_map, Nat.zero_add]
      generalize threadTexts w (queryNumber w a l) (own w a reply) = thread at hrun ⊢
      by_cases hprocess : a.failsAt = some thread.length
      · simp only [if_pos hprocess]
        exact (Does.pure _).weaken fun t ht => ⟨_, ht⟩
      · simp only [if_neg hprocess]
        refine .bind does_processQueryOutput (.bind does_getQueryResult ?_)
        have hbegun : ∀ k, a.failsAt = some k → thread.length + 1 ≤ k := by
          intro k hk
          rw [hk] at hrun hprocess
          have hle := le_of_made hrun
          simp only [List.length_map, Option.some.injEq] at hle hprocess
          omega
        -- the output of the query
        have houtput : outputTexts w (queryNumber w a l)
            { a with success := reply.success, queryResult := reply.output } =
            outputTexts w (queryNumber w a l) (own w a reply) := rfl
        simp only [houtput]
        generalize outputTexts w (queryNumber w a l) (own w a reply) = output
        rw [show l₁.apply .processQueryOutput = l₁ from rfl, runOps_append, List.length_map]
        refine .bind ((makes_oneEach (oneEach_map .outputLog output) _ _).does hbegun l₁) ?_
        rcases runOps a.failsAt (output.map .outputLog) (thread.length + 1) l₁ with ⟨l₂, _ | _⟩
        · exact (Does.pure _).weaken fun t ht => ⟨_, ht⟩
        · simp only [runOps]
          by_cases hcleanup : a.failsAt = some (thread.length + 1 + output.length)
          · rw [if_pos hcleanup, if_pos hcleanup]
            exact (Does.pure _).weaken fun t ht => ⟨_, ht⟩
          · rw [if_neg hcleanup, if_neg hcleanup]
            exact .bind does_cleanupResult (.pure _)

end refines

/-! ### The loop -/

/-- The results of the first queries. -/
def resultsOf (replies : Nat → Reply) (performed : Nat) : List PGresult :=
  (List.range performed).filterMap fun k => (replies k).result

/-- Each result is read some times and then cleared, one after the other. -/
def InTurn (first made : Nat) (log : List Event) : Prop :=
  ∃ reads : Nat → Nat, log = (List.range' first made).flatMap fun p =>
    List.replicate (reads p) (.read (some p)) ++ [.clear p]

theorem InTurn.step {first made : Nat} {log : List Event} (h : InTurn first made log) (reply : Option PGresult)
    (n : Nat) : InTurn first (made + reply.toList.length) (log ++ reply.toList.flatMap fun _ =>
      List.replicate n (.read (some (first + made))) ++ [.clear (first + made)]) := by
  cases reply with
  | none => simpa using h
  | some result =>
    obtain ⟨reads, rfl⟩ := h
    refine ⟨Function.update reads (first + made) n, ?_⟩
    rw [Option.toList_some, List.length_singleton, List.range'_concat, List.flatMap_append]
    congr 1
    · refine List.flatMap_congr fun p hp => ?_
      rw [Function.update_of_ne (by have := List.mem_range'_1.mp hp; omega)]
    · simp

/-- Before the first pass in `s`, and after each: what is still held is cleared when the object is
destroyed. -/
structure Used (d : Nat) (s : State) (replies : Nat → Reply) (r : Loop × Option Exit) (t : State) : Prop where
  temporary : t.objects .temporary = none
  results : t.results = s.results ++ resultsOf replies r.1.performed.length
  turn : ∃ o log, t.objects (.result_ d) = some o ∧ (r.2 = none → o = {}) ∧
    t.log ++ o.res_.toList.map .clear = s.log ++ log ∧
      InTurn s.results.length (resultsOf replies r.1.performed.length).length log

section run
variable {w : Worker} {d : Nat} {answers : Nat → Answer} {replies : Nat → Reply} {s t u : State}

theorem performed_iteration {a : Answer} (hquery : a.queryThrows = false) (l : Loop) :
    (iteration w a l).1.performed.length = l.performed.length + 1 := by
  have hperform : (l.perform w a).performed.length = l.performed.length + 1 := by simp [Loop.perform]
  rcases iteration_cases (w := w) (a := a) (l := l) with ⟨hthrows, _⟩ | ⟨_, _, hr⟩ | ⟨_, _, _, hr⟩ |
    ⟨_, _, _, hr⟩
  · rw [hquery] at hthrows
    cases hthrows
  · rw [hr, hperform]
  · rw [hr, (foldl_apply _ _).2.2, hperform]
  · rw [hr, ← hperform]
    exact congrArg List.length (foldl_apply _ _).2.2

/-- A pass leaves its own result to be cleared, or none. -/
theorem Left.turn {reply : Option PGresult} {exit : Option Exit} (h : Left d t reply exit u) :
    u.objects .temporary = none ∧ u.results = t.results ++ reply.toList ∧
      ∃ o n, u.objects (.result_ d) = some o ∧ (exit = none → o = {}) ∧ u.log ++ o.res_.toList.map .clear =
        t.log ++ reply.toList.flatMap fun _ =>
          List.replicate n (.read (some t.results.length)) ++ [.clear t.results.length] := by
  cases exit with
  | none =>
    obtain ⟨htemporary, hresult, hresults, n, hlog⟩ := h
    exact ⟨htemporary, hresults, {}, n, hresult, fun _ => rfl, by simp [hlog]⟩
  | some exit =>
    obtain ⟨text, htemporary, hresult, hresults, ⟨n, hlog⟩, -⟩ := h
    refine ⟨htemporary, hresults, _, n, hresult, fun h => absurd h (Option.some_ne_none _), ?_⟩
    rw [hlog]
    cases reply <;> simp [held]

theorem resultsOf_succ (replies : Nat → Reply) (n : Nat) :
    resultsOf replies (n + 1) = resultsOf replies n ++ (replies n).result.toList := by
  rw [resultsOf, List.range_succ, List.filterMap_append]
  cases hreply : (replies n).result <;> simp [hreply, resultsOf]

theorem Used.pass {l : Loop} {r : Loop × Option Exit} (h : Used d s replies (l, none) t)
    (hleft : Left d t (replies l.performed.length).result r.2 u)
    (hperformed : r.1.performed.length = l.performed.length + 1) : Used d s replies r u := by
  obtain ⟨-, hresults, o, log, -, ho, hlog, hturn⟩ := h
  obtain rfl := ho rfl
  obtain ⟨htemporary, hmore, o, n, hresult, hempty, hnext⟩ := hleft.turn
  have hlength : t.results.length = s.results.length + (resultsOf replies l.performed.length).length := by
    rw [hresults, List.length_append]
  have hstep := hturn.step (replies l.performed.length).result n
  rw [← List.length_append, ← resultsOf_succ, ← hperformed, ← hlength] at hstep
  refine ⟨htemporary, ?_, o, _, hresult, hempty, ?_, hstep⟩
  · rw [hmore, hresults, hperformed, resultsOf_succ, List.append_assoc]
  · rw [hnext, show t.log = s.log ++ log by simpa using hlog, List.append_assoc]

theorem does_runConnected (w : Worker) (answers : Nat → Answer) (replies : Nat → Reply)
    (htemporary : s.objects .temporary = none) (hd : s.objects (.result_ d) = some {}) (n : Nat) :
    Does (· = s) (runConnected d w answers replies n) (runLoop w (fun k => own w (answers k) (replies k)) n)
      (Used d s replies (runLoop w (fun k => own w (answers k) (replies k)) n)) := by
  induction n with
  | zero =>
    rintro s rfl
    exact ⟨s, rfl, htemporary, by simp [resultsOf, runLoop, Loop.initial], {}, [], hd, fun _ => rfl, by simp,
      fun _ => 0, by simp [resultsOf, runLoop, Loop.initial]⟩
  | succ n ih =>
    rw [runConnected, runLoop]
    refine .bind ih ?_
    rcases hrun : runLoop w (fun k => own w (answers k) (replies k)) n with ⟨l, _ | exit⟩
    · have hlength := (atHead_of_runLoop hrun).length_performed
      simp only [loopStep]
      by_cases hi : l.i < w.params.queries_per_thread
      · simp only [if_pos hi]
        intro t ht
        obtain ⟨o, _, hresult, ho, -⟩ := ht.turn
        rw [ho rfl] at hresult
        obtain ⟨u, hpass, hleft⟩ := does_pass w (answers n) (replies n) l ht.temporary hresult t rfl
        exact ⟨u, hpass, ht.pass (by rwa [hlength]) (performed_iteration rfl l)⟩
      · simp only [if_neg hi]
        refine (Does.pure _).weaken fun t ht => ⟨ht.temporary, ht.results, ?_⟩
        obtain ⟨o, log, hresult, ho, hlog, hturn⟩ := ht.turn
        exact ⟨o, log, hresult, fun h => absurd h (Option.some_ne_none _), hlog, hturn⟩
    · exact .pure _

end run

/-- The query loop over a PostgreSQL database is the loop whose every pass is answered from the result of its
own query. The results are those of the queries that were made; each of them is read and then cleared before
the next one is, whatever throws and wherever the loop is left. -/
theorem results_stay_in_their_pass (d : Nat) (w : Worker) (answers : Nat → Answer) (replies : Nat → Reply)
    (n : Nat) (s : State) (htemporary : s.objects .temporary = none) (hd : s.objects (.result_ d) = none) :
    let run := runLoop w (fun k => own w (answers k) (replies k)) n
    ∃ (s' : State) (reads : Nat → Nat), queryLoop d w answers replies n s = some (run, s') ∧
      s'.results = s.results ++ resultsOf replies run.1.performed.length ∧
      s'.log = s.log ++ (List.range' s.results.length (resultsOf replies run.1.performed.length).length).flatMap
        fun p => List.replicate (reads p) (.read (some p)) ++ [.clear p] := by
  intro run
  let made : State := { s with objects := Function.update s.objects (.result_ d) (some {}) }
  have hmade : construct (.result_ d) s = some ((), made) := construct_eq_some.mpr ⟨hd, rfl⟩
  have htemporary' : made.objects .temporary = none := by
    simp only [made, Function.update_of_ne (Address.noConfusion : Address.temporary ≠ .result_ d), htemporary]
  obtain ⟨t, hrun, -, hresults, o, log, ho, -, hlog, reads, rfl⟩ :=
    does_runConnected w answers replies htemporary'
      (Function.update_self (Address.result_ d) (some {}) s.objects) n made rfl
  refine ⟨t.released (.result_ d) o none, reads, ?_, hresults, hlog⟩
  refine bind_eq_some.mpr ⟨(), made, hmade, bind_eq_some.mpr ⟨run, t, hrun, ?_⟩⟩
  exact bind_eq_some.mpr ⟨(), _, destroy_eq_some.mpr ⟨o, ho, rfl⟩, rfl⟩

/-- A worker that logs the statistics and the output of its two queries. -/
def lostQueries : Worker :=
  { params := { threads := 1, queries_per_thread := 2, log_query_statistics := true, log_client_output := true }
    queryList := ["SELECT 1".toList, "SELECT 2".toList] }

/-- The connection is lost after the first query. -/
def lostReplies : Nat → Reply
  | 0 =>
    ⟨some { status := .PGRES_TUPLES_OK, columns := 2, values := [[['1'], []]], cmdTuples := ['1'] },
      fun _ => [], []⟩
  | _ => ⟨none, fun _ => [], "server closed the connection\n".toList⟩

theorem results_stay_in_their_pass_lost :
    let run := runLoop lostQueries (fun k => own lostQueries .quiet (lostReplies k)) 3
    run.1.outputLog.flatten = "1 #EMPTY# \n\n".toList ∧
      run.1.threadLog.flatten =
        "#NOERROR#WARNINGS: 0#CHANGED: 1\n#ERROR server closed the connection#WARNINGS: 0#CHANGED: 0\n".toList ∧
      ∃ (s' : State) (reads : Nat → Nat),
        queryLoop 0 lostQueries (fun _ => .quiet) lostReplies 3 .empty = some (run, s') ∧
        s'.results = State.empty.results ++ resultsOf lostReplies run.1.performed.length ∧
        s'.log = State.empty.log ++ (List.range' State.empty.results.length
          (resultsOf lostReplies run.1.performed.length).length).flatMap
            fun p => List.replicate (reads p) (.read (some p)) ++ [.clear p] := by
  refine ⟨by decide +kernel, by decide +kernel, ?_⟩
  exact results_stay_in_their_pass 0 lostQueries (fun _ => .quiet) lostReplies 3 .empty rfl rfl

end PQuery.Pgsql

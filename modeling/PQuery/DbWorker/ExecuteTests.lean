import PQuery.DbWorker.Moves
import PQuery.DbWorker.Replay

/-!
# What a worker executes

`DbWorker::executeTests` up to its threads: the list of queries is cleared, the connection is tested,
the infile is checked and parsed, and the parameters are adjusted. Without `shuffle` this leaves one
thread, which goes through the list: what it has performed is always the beginning of the list
(`Sequential`), and it performs all of it unless its last queries all failed. An exception before the
threads are started is left out; it ends `executeTests` without a thread. So is what a failed write
leaves of the log of the worker, whose stream fails at every later write: here each write succeeds or
fails by itself.
-/

namespace PQuery.DbWorker

open Config SqlFile

/-! ### Loading -/

inductive InfileParser
  | SqlFileParser (dollarQuoting : Bool)
  | MyGenLogParser
  | MyBinLogParser

/-- `createInfileParser` of the worker that `spawnWorker` creates for the type of the database. -/
def createInfileParser (mParams : workerParams) : Option InfileParser :=
  match mParams.dbtype, mParams.infiletype with
  | .eMYSQL, .eSQL => some (.SqlFileParser false)
  | .eMYSQL, .eGENLOG => some .MyGenLogParser
  | .eMYSQL, .eBINLOG => some .MyBinLogParser
  | dbtype, .eSQL => some (.SqlFileParser (dbtype == .ePGSQL))
  | _, _ => none

/-- The size of a file that can be opened. -/
def getInfileSize (infile : Option Str) : Nat := (infile.map List.length).getD 0

def validateInfileSize (mParams : workerParams) (infile : Option Str) : Bool :=
  let file_size := getInfileSize infile
  if file_size = 0 then false
  else if mParams.query_list_maxsize < file_size then false
  else true

def InfileParser.loadQueriesFromFile (queryList : List Str) (infile : Option Str) :
    InfileParser → Option (List Str)
  | SqlFileParser dollarQuoting => infile.map (SqlFile.loadQueriesFromFile dollarQuoting queryList)
  | MyGenLogParser => none
  | MyBinLogParser => none

def loadQueryList (mParams : workerParams) (infile : Option Str) (queryList : List Str) :
    Option (List Str) :=
  match createInfileParser mParams with
  | none => none
  | some wInfileParser =>
    if validateInfileSize mParams infile then wInfileParser.loadQueriesFromFile queryList infile
    else none

/-- What `executeTests` gives its threads; `queryList` is the list of an earlier call. -/
def prepare (wParams : workerParams) (testConnection : Bool) (infile : Option Str)
    (queryList : Option (List Str)) : Option Worker :=
  let queryList := (queryList.map fun _ => []).getD []
  if !testConnection then none
  else
    match loadQueryList wParams infile queryList with
    | none => none
    | some queryList =>
      some { params := adjustRuntimeParams wParams queryList, queryList := queryList }

/-- `spawnWorkerThreads`, the threads having taken these steps. -/
def spawnWorkerThreads (w : Worker) (schedule : List (Nat × Action)) :
    Option (Interleaving.Config Shared Thread) :=
  Interleaving.run (Thread.step w) (initial w.params.threads) schedule

instance (t : Thread) : Decidable t.Joined := inferInstanceAs (Decidable (_ ∨ _))

/-- `executeTests` of a new worker, the threads having taken these steps: what it returns and what it
has written to the log of the worker since the connection was tested (the test of a PostgreSQL worker
leaves records of the client library there). Nothing where the schedule is not one of the threads, or
not all of them have come to their end, so that a `join` still waits. -/
def executeTests (percentage : Nat → Nat → Str) (wParams : workerParams) (testConnection : Bool)
    (infile : Option Str) (schedule : List (Nat × Action)) : Option (Bool × List Str) :=
  match prepare wParams testConnection infile none with
  | none => some (false, [])
  | some w =>
    match spawnWorkerThreads w schedule with
    | none => none
    | some c =>
      if ∀ t ∈ c.locals, t.Joined then
        some (!c.shared.thread_failed, adjustTexts wParams w.queryList ++ c.shared.workerLog ++
          [writeFinalReport percentage c.shared.totals ++ "\n".toList])
      else none

/-! ### The list and the parameters -/

section
variable {p : workerParams} {testConnection : Bool} {file : Str} {previous : Option (List Str)}
  {w : Worker}

theorem loadQueries_eq_some {wInfileParser : InfileParser} {queryList : List Str}
    (hparser : createInfileParser p = some wInfileParser)
    (h : wInfileParser.loadQueriesFromFile [] (some file) = some queryList) :
    queryList = SqlFile.loadQueriesFromFile (p.dbtype == .ePGSQL) [] file := by
  unfold createInfileParser at hparser
  split at hparser
  case h_1 hdbtype _ =>
    cases hparser
    rw [hdbtype]
    exact (Option.some.inj h).symm
  case h_4 =>
    cases hparser
    exact (Option.some.inj h).symm
  all_goals
    cases hparser
  all_goals
    cases h

theorem validateInfileSize_le (h : validateInfileSize p (some file) = true) :
    file.length ≤ p.query_list_maxsize := by
  by_contra hlt
  rw [Nat.not_le] at hlt
  simp [validateInfileSize, getInfileSize, hlt] at h

theorem prepare_eq_some (h : prepare p testConnection (some file) previous = some w) :
    w.queryList = SqlFile.loadQueriesFromFile (p.dbtype == .ePGSQL) [] file ∧
      w.params = adjustRuntimeParams p w.queryList ∧ file.length ≤ p.query_list_maxsize := by
  have hcleared : (previous.map fun _ => ([] : List Str)).getD [] = [] := by
    cases previous <;> rfl
  unfold prepare loadQueryList at h
  rw [hcleared] at h
  cases testConnection with
  | false => cases h
  | true =>
    cases hparser : createInfileParser p with
    | none =>
      rw [hparser] at h
      cases h
    | some wInfileParser =>
      rw [hparser] at h
      cases hsize : validateInfileSize p (some file) with
      | false =>
        rw [hsize] at h
        cases h
      | true =>
        rw [hsize] at h
        cases hload : wInfileParser.loadQueriesFromFile [] (some file) with
        | none =>
          simp [hload] at h
        | some queryList =>
          simp only [hload] at h
          cases h
          exact ⟨loadQueries_eq_some hparser hload, rfl, validateInfileSize_le hsize⟩

end

/-! ### Going through the list -/

/-- The queries performed are those at the beginning of the list, and only the last of them can have
completed a series of too many failures. -/
structure Loop.InOrder (w : Worker) (l : Loop) : Prop where
  numbers : l.performed.map Prod.fst = List.range l.performed.length
  bound : l.performed.length ≤ w.queryList.length
  low : ∀ m < l.performed.length, failing (l.outcomes.take m) < maxConFailures

/-- The loop is about to take the next query. -/
structure Loop.Proceeds (l : Loop) : Prop where
  counter : l.i = l.performed.length
  low : failing l.outcomes < maxConFailures

/-- The loop has come to the end of the list, or its last queries all failed. -/
def Loop.Through (w : Worker) (l : Loop) : Prop :=
  l.performed.length = w.queryList.length ∨ maxConFailures ≤ failing l.outcomes

/-- The parameters of a run that is not shuffled. -/
structure Replaying (w : Worker) : Prop where
  shuffle : w.params.shuffle = false
  queries_per_thread : w.params.queries_per_thread = w.queryList.length
  length : w.queryList.length < 2 ^ 32

section
variable {w : Worker} {a : Answer} {l l' : Loop}

theorem Loop.InOrder.of_eq (h : l.InOrder w) (hperformed : l'.performed = l.performed) :
    l'.InOrder w := by
  obtain ⟨hnumbers, hbound, hlow⟩ := h
  refine ⟨?_, ?_, ?_⟩
  · rwa [hperformed]
  · rwa [hperformed]
  · rwa [Loop.outcomes, hperformed]

theorem length_outcomes (l : Loop) : l.outcomes.length = l.performed.length := List.length_map _

theorem length_perform : (l.perform w a).performed.length = l.performed.length + 1 := by
  simp [Loop.perform]

theorem Loop.InOrder.perform (hw : Replaying w) (h : l.InOrder w) (hnext : l.Proceeds)
    (hi : l.i < w.params.queries_per_thread) : (l.perform w a).InOrder w := by
  obtain ⟨hnumbers, _, hlow⟩ := h
  obtain ⟨hcounter, hfailing⟩ := hnext
  rw [hw.queries_per_thread, hcounter] at hi
  refine ⟨?_, ?_, fun m hm => ?_⟩
  · have hnumber : queryNumber w a l = l.performed.length := by
      rw [queryNumber, if_neg (by simp [hw.shuffle]), hcounter]
    rw [length_perform, List.range_succ, ← hnumbers]
    simp [Loop.perform, hnumber]
  · rw [length_perform]
    exact hi
  · rw [length_perform] at hm
    rw [outcomes_perform, List.take_append_of_le_length (by rw [length_outcomes]; omega)]
    by_cases hlast : m = l.performed.length
    · rwa [hlast, ← length_outcomes, List.take_length]
    · exact hlow m (by omega)

theorem consecutive_perform (hcounted : l.Counted) (hnext : l.Proceeds) :
    (l.perform w a).db.consecutive_failures = failing (l.perform w a).outcomes := by
  rw [hcounted.perform.consecutive]
  refine Nat.mod_eq_of_lt ?_
  have hlow := hnext.low
  unfold maxConFailures at hlow
  rw [outcomes_perform, failing_concat]
  split
  · decide
  · omega

/-- What one step of the loop keeps. -/
theorem loopStep_inOrder (hw : Replaying w) (hcounted : l.Counted) (h : l.InOrder w)
    (hnext : l.Proceeds) {exit : Option Exit} (hstep : loopStep w a l = (l', exit)) :
    l'.InOrder w ∧ (exit = none → l'.Proceeds) ∧
      ∀ e, exit = some e → e ≠ .threw → l'.Through w := by
  unfold loopStep at hstep
  by_cases hi : l.i < w.params.queries_per_thread
  · rw [if_pos hi] at hstep
    have hperform : (l.perform w a).InOrder w := h.perform hw hnext hi
    have hconsecutive := @consecutive_perform w a l hcounted hnext
    rcases iteration_cases (w := w) (a := a) (l := l) with ⟨_, hr⟩ | ⟨_, habort, hr⟩ |
      ⟨_, _, _, hr⟩ | ⟨_, hlow, _, hr⟩
    · rw [hr] at hstep
      cases hstep
      exact ⟨h, fun hnone => (by cases hnone), fun e he hthrew => absurd (Option.some.inj he).symm hthrew⟩
    · rw [hr] at hstep
      cases hstep
      exact ⟨hperform, fun hnone => (by cases hnone), fun _ _ _ => .inr (hconsecutive ▸ habort)⟩
    · rw [hr] at hstep
      cases hstep
      refine ⟨hperform.of_eq (foldl_apply _ _).2.2, fun hnone => (by cases hnone), fun e he hthrew => ?_⟩
      exact absurd (Option.some.inj he).symm hthrew
    · rw [hr] at hstep
      cases hstep
      have hsame : (l.completed w a).performed = (l.perform w a).performed := (foldl_apply _ _).2.2
      refine ⟨hperform.of_eq hsame, fun _ => ⟨?_, ?_⟩, fun e he => (by cases he)⟩
      · have hlength := hw.length
        have hbound := hperform.bound
        rw [hsame]
        rw [length_perform] at hbound ⊢
        show (l.i + 1) % 2 ^ 32 = _
        rw [hnext.counter, Nat.mod_eq_of_lt (by omega)]
      · rw [Loop.outcomes, hsame]
        exact hconsecutive ▸ hlow
  · rw [if_neg hi] at hstep
    cases hstep
    refine ⟨h, fun hnone => (by cases hnone), fun _ _ _ => .inl ?_⟩
    rw [hw.queries_per_thread, hnext.counter] at hi
    have hbound := h.bound
    omega

end

/-! ### The thread -/

/-- The thread of a run that is not shuffled. -/
structure Thread.Sequential (w : Worker) (t : Thread) : Prop where
  inOrder : t.loop.InOrder w
  proceeds : (∀ ops, t.phase ≠ .leaving ops) → t.threw = false → t.loop.Proceeds
  through : ∀ ops, t.phase = .leaving ops → t.connected = some true → t.loop.Through w

section
variable {w : Worker} {s s' : Shared} {t t' : Thread} {a : Action}

theorem inOrder_initial (w : Worker) : Loop.initial.InOrder w :=
  ⟨rfl, Nat.zero_le _, fun m hm => absurd hm (by simp [Loop.initial])⟩

theorem proceeds_initial : Loop.initial.Proceeds := ⟨rfl, by decide⟩

theorem sequential_initial (w : Worker) (number : Nat) : (Thread.initial number).Sequential w :=
  ⟨inOrder_initial w, fun _ _ => proceeds_initial, fun ops h => by cases h⟩

theorem Loop.Through.of_eq {l l' : Loop} (h : l.Through w) (hperformed : l'.performed = l.performed) :
    l'.Through w := by
  unfold Loop.Through Loop.outcomes at h ⊢
  rwa [hperformed]

theorem not_leaving {phase : Phase} (h : t.phase = phase) (hphase : ∀ ops, phase ≠ .leaving ops) :
    ∀ ops, t.phase ≠ .leaving ops := by
  rw [h]
  exact hphase

theorem Thread.Sequential.step (hw : Replaying w) (hvalid : t.Valid) (h : t.Sequential w)
    (hstep : t.step w a s = some (s', t')) : t'.Sequential w := by
  obtain ⟨hinOrder, hproceeds, hthrough⟩ := h
  obtain ⟨hthrew, hmove⟩ := move_of_step hstep
  have hphase := hvalid.phase
  cases hmove with
  | emptyList b hstarting _ =>
    rw [hstarting] at hphase
    refine ⟨hinOrder, fun hops _ => absurd rfl (hops _), fun ops _ hconnected => ?_⟩
    rw [hphase.2] at hconnected
    cases hconnected
  | created hstarting =>
    exact ⟨hinOrder, fun _ _ => hproceeds (not_leaving hstarting (by simp)) hthrew,
      fun ops hops => by cases hops⟩
  | connected errorString hconnecting =>
    exact ⟨hinOrder, fun _ _ => hproceeds (not_leaving hconnecting (by simp)) hthrew,
      fun ops hops => by cases hops⟩
  | refused errorString hconnecting =>
    exact ⟨hinOrder, fun hops _ => absurd rfl (hops _), fun ops _ hconnected => by cases hconnected⟩
  | passed answer l hlooping hr =>
    have hnext := hproceeds (not_leaving hlooping (by simp)) hthrew
    obtain ⟨hinOrder', hproceeds', _⟩ := loopStep_inOrder hw hvalid.counted hinOrder hnext hr
    refine ⟨hinOrder', fun _ _ => hproceeds' rfl, fun ops hops => ?_⟩
    exact absurd hops (not_leaving hlooping (by simp) ops)
  | left answer l exit hlooping hexit hr =>
    have hnext := hproceeds (not_leaving hlooping (by simp)) hthrew
    obtain ⟨hinOrder', _, hthrough'⟩ := loopStep_inOrder hw hvalid.counted hinOrder hnext hr
    exact ⟨hinOrder', fun hops _ => absurd rfl (hops _), fun _ _ _ => hthrough' exit rfl hexit⟩
  | operated b op ops hleaving _ =>
    have hsame : (t.loop.apply op).performed = t.loop.performed := (foldl_apply [op] t.loop).2.2
    exact ⟨hinOrder.of_eq hsame, fun hops _ => absurd rfl (hops _),
      fun _ _ hconnected => (hthrough _ hleaving hconnected).of_eq hsame⟩
  | startThrew hstarting =>
    exact ⟨hinOrder, fun _ hfalse => (by cases hfalse), hthrough⟩
  | connectThrew hconnecting =>
    exact ⟨hinOrder, fun _ hfalse => (by cases hfalse), hthrough⟩
  | loopThrew answer l hlooping hr =>
    have hnext := hproceeds (not_leaving hlooping (by simp)) hthrew
    obtain ⟨hinOrder', _, _⟩ := loopStep_inOrder hw hvalid.counted hinOrder hnext hr
    exact ⟨hinOrder', fun _ hfalse => (by cases hfalse),
      fun ops hops => absurd hops (not_leaving hlooping (by simp) ops)⟩
  | operationThrew op ops hleaving _ =>
    exact ⟨hinOrder, fun _ hfalse => (by cases hfalse), hthrough⟩

/-- A run without `shuffle` is that of one thread. -/
theorem sequential_run (hw : Replaying w) (hthreads : w.params.threads = 1)
    {schedule : List (Nat × Action)} {c : Interleaving.Config Shared Thread}
    (h : spawnWorkerThreads w schedule = some c) : ∃ t, c.locals = [t] ∧ t.Sequential w := by
  let I (c : Interleaving.Config Shared Thread) : Prop :=
    ∃ t, c.locals = [t] ∧ t.Valid ∧ t.Sequential w
  have hinitial : I (initial w.params.threads) := by
    refine ⟨Thread.initial 0, ?_, valid_initial 0, sequential_initial w 0⟩
    rw [hthreads]
    rfl
  have hkeep : ∀ c e c', I c → Interleaving.next (Thread.step w) c e = some c' → I c' := by
    rintro c ⟨k, a⟩ c' ⟨t, hlocals, hvalid, hsequential⟩ hnext
    obtain ⟨t', s', t'', ht', hstep, rfl⟩ := Interleaving.next_eq_some.mp hnext
    rw [hlocals] at ht'
    cases k with
    | zero =>
      obtain rfl := Option.some.inj ht'
      refine ⟨t'', ?_, hvalid.step hstep, hsequential.step hw hvalid hstep⟩
      show c.locals.set 0 t'' = [t'']
      rw [hlocals]
      rfl
    | succ k => cases ht'
  obtain ⟨t, hlocals, _, hsequential⟩ := Interleaving.run_invariant hkeep hinitial h
  exact ⟨t, hlocals, hsequential⟩

end

/-! ### Replaying -/

theorem map_range_getD {xs : List Str} {n : Nat} (h : n ≤ xs.length) :
    (List.range n).map (fun k => xs.getD k []) = xs.take n := by
  refine List.ext_getElem (by simp [h]) fun k hk hk' => ?_
  rw [List.length_map, List.length_range] at hk
  simp [Nat.lt_of_lt_of_le hk h]

theorem Loop.InOrder.performedQueries {w : Worker} {l : Loop} (h : l.InOrder w) :
    performedQueries w l = w.queryList.take l.performed.length := by
  rw [← map_range_getD h.bound, ← h.numbers, List.map_map]
  rfl

end PQuery.DbWorker

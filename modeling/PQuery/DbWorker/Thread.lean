import Mathlib.Data.List.DropRight
import PQuery.Config.WorkerConfig
import PQuery.Library.Interleaving

/-!
# Worker threads

`DbWorker::workerThread` over an abstract `Database`. What the server, the random generator and the
file system answer in one pass of the query loop is an `Answer`; a pass is taken as one step, since
it only touches what the thread owns. What a thread does on its way out of the function is a list of
operations, each atomic, because the totals and the worker's log belong to all threads. A thread
that throws keeps its phase and takes no further step. The shared logger is the one that
`WorkerPool::spawnWorker` sets, so it is never null.
-/

namespace PQuery.DbWorker

open Config

/-- `MAX_CON_FAILURES` -/
def maxConFailures : Nat := 250

/-- The counters of `Database`: two of type `uint64_t` and one of type `uint16_t`. -/
structure Database where
  failed_queries : Nat
  performed_queries : Nat
  consecutive_failures : Nat
deriving DecidableEq, Repr

def Database.initial : Database :=
  { failed_queries := 0, performed_queries := 0, consecutive_failures := 0 }

/-- `Database::performQuery` once `performRealQuery` has returned `success`. -/
def Database.performQuery (db : Database) (success : Bool) : Database :=
  let db :=
    if success then { db with consecutive_failures := 0 }
    else { db with
      failed_queries := (db.failed_queries + 1) % 2 ^ 64
      consecutive_failures := (db.consecutive_failures + 1) % 2 ^ 16 }
  { db with performed_queries := (db.performed_queries + 1) % 2 ^ 64 }

/-- What a stream writes of a `double`. -/
structure DoubleText where
  text : Str
  isNumeral : ∀ c ∈ text, isalnum c ∨ c = '.' ∨ c = '+' ∨ c = '-'

/-- What the outside answers in one pass of the query loop. `drawn` is the value of `dis(gen)`;
`queryThrows` says that `performRealQuery` throws, and `failsAt` which of the operations after the
query does. -/
structure Answer where
  drawn : Nat
  queryThrows : Bool
  success : Bool
  errorString : Str
  warningsCount : Nat
  affectedRows : Nat
  queryDurationMs : DoubleText
  queryResult : Str
  failsAt : Option Nat

/-- The three totals that the threads share. -/
inductive Total
  | performed_queries_total
  | failed_queries_total
  | failed_connections_total
deriving DecidableEq, Repr

/-- The operations of a thread, but for the query itself. A log operation is one call of the
logger: it takes the lock, writes one text and throws if the write fails. -/
inductive Op
  | threadLog (text : Str)
  | outputLog (text : Str)
  | workerLog (text : Str)
  | processQueryOutput
  | cleanupResult
  | endDbThread
  | add (total : Total)
deriving DecidableEq, Repr

/-- Adding to an atomic counter never throws. -/
def Op.mayThrow : Op → Bool
  | .add _ => false
  | _ => true

/-- What all the threads of a worker are given. -/
structure Worker where
  params : workerParams
  queryList : List Str

/-- `adjustRuntimeParams`: a run that is not shuffled is one thread that goes through the list. -/
def adjustRuntimeParams (mParams : workerParams) (queryList : List Str) : workerParams :=
  if mParams.shuffle then mParams
  else { mParams with threads := 1, queries_per_thread := queryList.length }

/-- What it writes to the log of the worker. -/
def adjustTexts (mParams : workerParams) (queryList : List Str) : List Str :=
  if mParams.shuffle then []
  else
    ["-> Setting # of threads to 1 for log replaying due to \"shuffle = False\"\n".toList,
      "-> Setting queries per thread to ".toList, to_string queryList.length,
      " due to \"shuffle = False\" (the size of query list)\n".toList]

/-- Whether `threadLogger` is created. -/
def logsThread (p : workerParams) : Bool :=
  p.log_failed_queries || p.log_all_queries || p.log_succeeded_queries || p.log_query_duration ||
    p.log_query_statistics || p.log_query_numbers

section ops
variable (w : Worker) (query_number : Nat) (a : Answer)

def Worker.query : Str := w.queryList.getD query_number []

/-- The text of `query_number + 1` in 32 bits. -/
def numberText : Str := to_string ((query_number + 1) % 2 ^ 32 : Nat)

/-- The query itself, where the configuration asks for it. -/
def queryTexts : List Str :=
  let p := w.params
  if p.log_all_queries || (p.log_succeeded_queries && a.success) ||
      (p.log_failed_queries && !a.success) then [w.query query_number] else []

/-- What follows the query in its record of the thread log. -/
def annotationTexts : List Str :=
  let p := w.params
  (if p.log_query_statistics then
    (if a.success then ["#NOERROR".toList] else ["#ERROR ".toList, a.errorString]) ++
      ["#WARNINGS: ".toList, to_string a.warningsCount, "#CHANGED: ".toList,
        to_string a.affectedRows]
    else []) ++
  (if p.log_query_duration then ["#Duration: ".toList, a.queryDurationMs.text, " ms".toList]
    else []) ++
  (if p.log_query_numbers then ["#".toList, numberText query_number] else [])

/-- The writes of one pass to the thread log. -/
def threadTexts : List Str :=
  if logsThread w.params then
    queryTexts w query_number a ++ annotationTexts w query_number a ++ ["\n".toList]
  else []

/-- The writes of one pass to the client output log. -/
def outputTexts : List Str :=
  if !a.queryResult.isEmpty && w.params.log_client_output then
    [a.queryResult] ++
      (if w.params.log_query_numbers then ["#".toList, numberText query_number] else []) ++
      ["\n".toList]
  else []

/-- The operations of one pass after the query and the check of the consecutive failures. -/
def bodyOps : List Op :=
  (threadTexts w query_number a).map .threadLog ++ [.processQueryOutput] ++
    (outputTexts w query_number a).map .outputLog ++ [.cleanupResult]

end ops

/-- The operations that `calculateQueries` makes. -/
def calculateQueries : List Op := [.add .performed_queries_total, .add .failed_queries_total]

/-- What a thread does before it returns because the query list is empty. -/
def emptyListOps (number : Nat) : List Op :=
  [.workerLog ("=> Thread #".toList ++ to_string number ++
    " is exiting abnormally, query list is empty\n".toList)]

/-- What a thread does before it returns because it cannot connect. -/
def refusedOps (p : workerParams) (number : Nat) (errorString : Str) : List Op :=
  let message := "=> Unable to connect! Database error ".toList ++ errorString ++ "\n".toList
  [if logsThread p then .threadLog message else .workerLog message,
    .workerLog "==> Thread #".toList, .workerLog (to_string number),
    .workerLog " is exiting abnormally, unable to init database".toList, .workerLog "\n".toList,
    .add .failed_connections_total]

/-- What a thread does before it returns because of its consecutive failures. -/
def abortedOps (p : workerParams) (max_con_fail_count : Nat) : List Op :=
  let failmsg := "=> Last ".toList ++ to_string max_con_fail_count ++
    " consecutive queries all failed. Likely crash/assert, ".toList ++
    "user privileges drop, or similar. Ending run.".toList
  (if logsThread p then [.threadLog failmsg, .threadLog "\n".toList]
    else [.workerLog (failmsg ++ "\n".toList)]) ++ calculateQueries

/-- What a thread does after its query loop. -/
def finishedOps : List Op := calculateQueries ++ [.endDbThread]

/-- The variables of the query loop. `performed` is the history of the calls of `performQuery` that
returned, each with the number of its query and what it returned; `threadLog` and `outputLog` are
the writes to the thread's own files. -/
structure Loop where
  i : Nat
  db : Database
  performed : List (Nat × Bool)
  threadLog : List Str
  outputLog : List Str
deriving DecidableEq, Repr

def Loop.initial : Loop :=
  { i := 0, db := .initial, performed := [], threadLog := [], outputLog := [] }

/-- What an operation does to the files of the thread. -/
def Loop.apply (l : Loop) : Op → Loop
  | .threadLog text => { l with threadLog := l.threadLog ++ [text] }
  | .outputLog text => { l with outputLog := l.outputLog ++ [text] }
  | _ => l

/-- How the query loop is left. -/
inductive Exit
  | finished
  | aborted
  | threw
deriving DecidableEq, Repr

/-- The query number that a pass takes. -/
def queryNumber (w : Worker) (a : Answer) (l : Loop) : Nat :=
  if w.params.shuffle then a.drawn % 2 ^ 32 else l.i

/-- The variables once `performQuery` has returned. -/
def Loop.perform (w : Worker) (a : Answer) (l : Loop) : Loop :=
  { l with
    db := l.db.performQuery a.success
    performed := l.performed ++ [(queryNumber w a l, a.success)] }

/-- The operations of a pass that are made: all, or those before the one that throws. -/
def madeOps (w : Worker) (a : Answer) (l : Loop) : List Op :=
  match a.failsAt with
  | none => bodyOps w (queryNumber w a l) a
  | some k => (bodyOps w (queryNumber w a l) a).take k

/-- One pass of the query loop. -/
def iteration (w : Worker) (a : Answer) (l : Loop) : Loop × Option Exit :=
  if a.queryThrows then (l, some .threw)
  else
    let l' := l.perform w a
    if maxConFailures ≤ l'.db.consecutive_failures then (l', some .aborted)
    else
      let l' := (madeOps w a l).foldl Loop.apply l'
      if (madeOps w a l).length < (bodyOps w (queryNumber w a l) a).length then (l', some .threw)
      else ({ l' with i := (l'.i + 1) % 2 ^ 32 }, none)

/-- The check of the loop's condition and, where it holds, one pass. -/
def loopStep (w : Worker) (a : Answer) (l : Loop) : Loop × Option Exit :=
  if l.i < w.params.queries_per_thread then iteration w a l else (l, some .finished)

/-- Where a thread is in `workerThread`. -/
inductive Phase
  | starting
  | connecting
  | looping
  | leaving (ops : List Op)
deriving DecidableEq, Repr

/-- A thread. `connected` is what `connect` has returned. -/
structure Thread where
  number : Nat
  phase : Phase
  threw : Bool
  connected : Option Bool
  loop : Loop
deriving DecidableEq, Repr

def Thread.initial (number : Nat) : Thread :=
  { number := number, phase := .starting, threw := false, connected := none, loop := .initial }

/-- What the threads of a worker share. -/
structure Shared where
  totals : Total → Nat
  thread_failed : Bool
  workerLog : List Str

def Shared.initial : Shared := { totals := fun _ => 0, thread_failed := false, workerLog := [] }

/-- What is added to a total. -/
def Database.share (db : Database) : Total → Nat
  | .performed_queries_total => db.performed_queries
  | .failed_queries_total => db.failed_queries
  | .failed_connections_total => 1

/-- What an operation does to the shared variables, each total of type `uint64_t`. -/
def Shared.apply (db : Database) (s : Shared) : Op → Shared
  | .workerLog text => { s with workerLog := s.workerLog ++ [text] }
  | .add total =>
    { s with totals := fun t => if t = total then (s.totals t + db.share t) % 2 ^ 64 else s.totals t }
  | _ => s

/-- What the outside decides in one step of a thread: whether the loggers and the database instance
are created, what `connect` returns, with the error text (nothing where it throws), the answers of
one pass, whether an operation succeeds. -/
inductive Action
  | start (succeeds : Bool)
  | connect (result : Option (Bool × Str))
  | iterate (a : Answer)
  | operate (succeeds : Bool)

/-- The `catch` clause. -/
def Thread.caught (s : Shared) (t : Thread) : Shared × Thread :=
  ({ s with thread_failed := true }, { t with threw := true })

/-- What a thread does next when it leaves its loop. -/
def leavingOps (w : Worker) (l : Loop) : Exit → List Op
  | .aborted => abortedOps w.params l.db.consecutive_failures
  | _ => finishedOps

/-- The thread after one pass. -/
def Thread.afterLoop (w : Worker) (s : Shared) (t : Thread) : Loop × Option Exit → Shared × Thread
  | (l, none) => (s, { t with loop := l })
  | (l, some .threw) => { t with loop := l }.caught s
  | (l, some exit) => (s, { t with loop := l, phase := .leaving (leavingOps w l exit) })

/-- One step of a thread. -/
def Thread.step (w : Worker) (a : Action) (s : Shared) (t : Thread) : Option (Shared × Thread) :=
  if t.threw then none
  else
    match t.phase, a with
    | .starting, .start succeeds =>
      if w.queryList.isEmpty then some (s, { t with phase := .leaving (emptyListOps t.number) })
      else if succeeds then some (s, { t with phase := .connecting })
      else some (t.caught s)
    | .connecting, .connect none => some (t.caught s)
    | .connecting, .connect (some (true, _)) =>
      some (s, { t with phase := .looping, connected := some true })
    | .connecting, .connect (some (false, errorString)) =>
      some (s, { t with
        phase := .leaving (refusedOps w.params t.number errorString), connected := some false })
    | .looping, .iterate a => some (t.afterLoop w s (loopStep w a t.loop))
    | .leaving (op :: ops), .operate succeeds =>
      if succeeds || !op.mayThrow then
        some (s.apply t.loop.db op, { t with phase := .leaving ops, loop := t.loop.apply op })
      else some (t.caught s)
    | _, _ => none

/-- The thread has returned, so `join` returns. -/
def Thread.Joined (t : Thread) : Prop := t.threw = true ∨ t.phase = .leaving []

/-- The threads of a worker before their first step. -/
def initial (threads : Nat) : Interleaving.Config Shared Thread :=
  { shared := .initial, locals := (List.range threads).map Thread.initial }

/-- The text that `writeFinalReport` logs. The percentage is what a stream writes of the `double`
with two decimals. -/
def writeFinalReport (percentage : Nat → Nat → Str) (totals : Total → Nat) : Str :=
  let performed := totals .performed_queries_total
  let failed := totals .failed_queries_total
  let connections := totals .failed_connections_total
  "-> WORKER SUMMARY: ".toList ++ to_string failed ++ "/".toList ++ to_string performed ++
    " queries failed, (".toList ++
    (if performed = 0 then "N/A".toList else percentage performed failed) ++
    "% were successful)".toList ++
    (if 0 < connections then
      "; ".toList ++ to_string connections ++ " thread(s) failed to connect".toList
    else [])

end PQuery.DbWorker

import PQuery.Library.Fork
import PQuery.Pool.Verdict

/-!
# The program of a process

`main`, `PQuery::run` and `WorkerPool::runAll` as the program that the master and, from their `fork`
on, its children go through. Logging can throw, and so can `executeTests`; an exception ends in the
handler of `main`. What a process calls is answered by its surroundings: `executeTests` runs the
section of a worker, and `waitForWorkers` is answered by the replies of `waitpid` that make the
polling loop return. What `showVersion` prints is left out.
-/

namespace PQuery.Process

open Config Fork Pool

inductive Call
  | cerr (text : Str)
  | setLogFilePath (filePath : Str)
  | initLogFile (filePath : Str)
  | flushLog
  | addSeparation (what : Char) (lenght : Nat)
  | addRecordToLog (message : Str)
  | now
  | executeTests (Params : workerParams)
  | waitForWorkers (activeWorkers : List workerProc)
deriving DecidableEq

/-- The text of an exception, where it is a `std::exception`. -/
abbrev Thrown := Option Str

def Answer : Call → Type
  | .cerr _ => Unit
  | .setLogFilePath _ => Unit
  | .initLogFile _ => Bool
  | .flushLog => Except Thrown Unit
  | .addSeparation _ _ => Unit
  | .addRecordToLog _ => Except Thrown Unit
  | .now => Nat
  | .executeTests _ => Except Thrown Bool
  | .waitForWorkers activeWorkers => Except Thrown
      { replies : List (Reply WaitAnswer) //
        (Pool.waitForWorkers replies (supervise activeWorkers)).2.isSome }

/-- The surroundings of a process; an error of `fork` is its `strerror`. -/
abbrev system : Interface := { Call := Call, Answer := Answer, Error := Str }

/-- A piece of the program, which may throw. -/
abbrev Action := ExceptT Thrown (Prog system)

def cerr (text : Str) : Action Unit := ExceptT.lift (Prog.perform (I := system) (.cerr text))

def setLogFilePath (filePath : Str) : Action Unit :=
  ExceptT.lift (Prog.perform (I := system) (.setLogFilePath filePath))

def initLogFile (filePath : Str) : Action Bool := ExceptT.lift (Prog.perform (I := system) (.initLogFile filePath))

def flushLog : Action Unit := ExceptT.mk (Prog.perform (I := system) .flushLog)

def addSeparation (what : Char) (lenght : Nat) : Action Unit :=
  ExceptT.lift (Prog.perform (I := system) (.addSeparation what lenght))

def addRecordToLog (message : Str) : Action Unit := ExceptT.mk (Prog.perform (I := system) (.addRecordToLog message))

def now : Action Nat := ExceptT.lift (Prog.perform (I := system) .now)

def executeTests (Params : workerParams) : Action Bool := ExceptT.mk (Prog.perform (I := system) (.executeTests Params))

def fork : Action (Forked Str) := ExceptT.lift Prog.forking

/-- The verdict of the polling loop. -/
def waitForWorkers (activeWorkers : List workerProc) : Action Bool := do
  let replies ← ExceptT.mk (Prog.perform (I := system) (.waitForWorkers activeWorkers))
  return (Pool.waitForWorkers replies.1 (supervise activeWorkers)).2.get replies.2

/-! ### The pool -/

section
variable (build : Build) (masterLogDir : Str)

def reinitChildLog (name : Str) : Action Unit := do
  let _ ← initLogFile (masterLogDir ++ '/' :: name ++ "_worker.log".toList)

def infiletype_str : eINFILETYPE → Str
  | .eSQL => "SQL".toList
  | .eGENLOG => "General Log".toList
  | .eBINLOG => "Binary Log".toList
  | .eUNKNOWN => "UNKNOWN TYPE".toList

/-- The records of `logWorkerDetails`, which has none for `log_succeeded_queries`. -/
def workerDetails (Params : workerParams) : List Str :=
  let flag (b : Bool) := to_string (if b then 1 else 0)
  [ "## Config name: ".toList ++ Params.myName,
    "## DB type: ".toList ++ dbtype_str Params.dbtype,
    "## DB name: ".toList ++ Params.database,
    "## DB address: ".toList ++ Params.address,
    "## DB username: ".toList ++ Params.username,
    "## DB password: ".toList ++ if Params.password = [] then "<empty>".toList else "<redacted>".toList,
    "## DB socket: ".toList ++ Params.socket,
    "## DB port: ".toList ++ to_string Params.port,
    "## PQuery threads: ".toList ++ to_string Params.threads,
    "## PQuery queries per thread: ".toList ++ to_string Params.queries_per_thread,
    "## PQuery verbosity: ".toList ++ flag Params.verbose,
    "## PQuery shuffle: ".toList ++ flag Params.shuffle,
    "## PQuery infile: ".toList ++ Params.infile,
    "## PQuery infile type: ".toList ++ infiletype_str Params.infiletype,
    "## PQuery maxsize for query list: ".toList ++ to_string Params.query_list_maxsize,
    "## PQuery log directory: ".toList ++ Params.logdir,
    "## PQuery log all queries: ".toList ++ flag Params.log_all_queries,
    "## PQuery log failed queries: ".toList ++ flag Params.log_failed_queries,
    "## PQuery log query statistics: ".toList ++ flag Params.log_query_statistics,
    "## PQuery log query duration: ".toList ++ flag Params.log_query_duration,
    "## PQuery log client output: ".toList ++ flag Params.log_client_output,
    "## PQuery log query numbers: ".toList ++ flag Params.log_query_numbers ]

def logWorkerDetails (Params : workerParams) : Action Unit := do
  addSeparation '#' 40
  (workerDetails Params).forM addRecordToLog
  addSeparation '#' 40

/-- The clock is read only for a worker with a timeout. -/
def startTime (Params : workerParams) : Action Nat :=
  if 0 < Params.timeout_secs then now else pure 0

/-- What `spawnWorker` does in the parent. -/
def enlist (Params : workerParams) (childPID : Nat) (activeWorkers : List workerProc) :
    Action (List workerProc × eRETCODE) := do
  addRecordToLog ("-> Waiting for created worker ".toList ++ to_string childPID)
  let now ← startTime Params
  return (activeWorkers ++ [forkedProc Params childPID now], .eMASTER)

/-- What `spawnWorker` does in the child, before it has a `DbWorker`. -/
def enterChild (Params : workerParams) : Action Unit := do
  reinitChildLog masterLogDir Params.myName
  if Params.verbose then logWorkerDetails Params

/-- What `spawnWorker` does in the child. -/
def work (Params : workerParams) : Action eRETCODE := do
  enterChild masterLogDir Params
  match checkDbType build Params.dbtype with
  | .error _ =>
    cerr ("=> Unable to create worker of unsupported type ".toList ++ dbtype_str Params.dbtype)
    addRecordToLog ("=> PQuery is not compiled with ".toList ++ dbtype_str Params.dbtype)
    return .eERROR
  | .ok _ =>
    let success ← executeTests Params
    return if success then .eCHILD else .eERROR

/-- The workers that are listed then, and how the process is to go on. -/
def spawnWorker (Params : workerParams) (activeWorkers : List workerProc) :
    Action (List workerProc × eRETCODE) := do
  flushLog
  match ← fork with
  | .error strerror =>
    addRecordToLog ("=> Cannot fork() child process: ".toList ++ strerror)
    return (activeWorkers, .eERROR)
  | .parent childPID => enlist Params childPID activeWorkers
  | .child =>
    let wrc ← work build masterLogDir Params
    return (activeWorkers, wrc)

def runAll (activeWorkers : List workerProc) : List workerParams → Action Bool
  | [] => waitForWorkers activeWorkers
  | wParams :: params => do
    addRecordToLog ("-> Running worker for ".toList ++ wParams.myName)
    let (activeWorkers, wrc) ← spawnWorker build masterLogDir wParams activeWorkers
    match wrc with
    | .eERROR => return false
    | .eCHILD => return true
    | _ => runAll activeWorkers params

end

/-! ### The program -/

inductive ExitStatus
  | EXIT_SUCCESS
  | EXIT_FAILURE
deriving DecidableEq, Repr

/-- The end of `PQuery::run`. -/
def runPool (build : Build) (masterLogDir : Str) (validParams : List workerParams) :
    Action ExitStatus := do
  let result ← runAll build masterLogDir [] validParams
  return if result then .EXIT_SUCCESS else .EXIT_FAILURE

/-- The handlers of `main`. -/
def fatal (thrown : Thrown) : Prog system ExitStatus := do
  let _ ← Prog.perform (I := system) (.cerr (match thrown with
    | some what => "=> Fatal error: ".toList ++ what
    | none => "=> Fatal error: unknown exception".toList))
  return .EXIT_FAILURE

/-- `main` around `PQuery::run`. -/
def main (run : Action ExitStatus) : Prog system ExitStatus := Prog.catching run fatal .ret

end PQuery.Process

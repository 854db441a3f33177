import PQuery.Config.IniReader

/-!
# Worker parameters from the configuration

`WorkerConfig::setupWorkerParams` reads the parameters of one section and checks them in the order
of the source; an error is the message that `reportConfigError` writes. `buildAllWorkerParams` does
so for every section that is to run. Which drivers the program is compiled with is a parameter.
-/

namespace PQuery.Config

structure workerParams where
  myName : Str := []
  database : Str := []
  dbtype : eDBTYPE := .eNONE
  address : Str := []
  socket : Str := []
  username : Str := []
  password : Str := []
  infile : Str := []
  infiletype : eINFILETYPE := .eUNKNOWN
  logdir : Str := []
  port : Nat := 0
  threads : Nat := 0
  queries_per_thread : Nat := 0
  query_list_maxsize : Nat := 0
  verbose : Bool := false
  log_all_queries : Bool := false
  log_failed_queries : Bool := false
  log_succeeded_queries : Bool := false
  log_query_statistics : Bool := false
  log_query_duration : Bool := false
  log_client_output : Bool := false
  log_query_numbers : Bool := false
  shuffle : Bool := false
  timeout_secs : Nat := 0
  connect_timeout_secs : Nat := 60
deriving DecidableEq

/-- The drivers that are compiled in. -/
structure Build where
  HAVE_MYSQL : Bool
  HAVE_PGSQL : Bool

def dbtype_str : eDBTYPE → Str
  | .eMYSQL => "MySQL".toList
  | .ePGSQL => "PostgreSQL".toList
  | .eNONE => "UNKNOWN".toList

/-- The message of a configuration error. -/
def configError (secName msg : Str) : Str :=
  "=> Config error in section [".toList ++ secName ++ "]: ".toList ++ msg

/-- The value, where it is in the range of the option. -/
def checkIntRange (name : Str) (value min max : Int) : Except Str Int :=
  if value < min ∨ max < value then
    .error (name ++ " = ".toList ++ to_string value ++ " out of range [".toList ++ to_string min ++
      "..".toList ++ to_string max ++ "]".toList)
  else .ok value

/-- The value of an integer option in its range, cast to an unsigned field of `bits` bits. The
message of an exception is what `e.what()` gives. -/
def integerOption (reader : INIReader) (secName name : Str) (default_value min max : Int)
    (bits : Nat) : Except Str Nat := do
  let value ← (reader.GetInteger secName name default_value).mapError cString
  let value ← checkIntRange name value min max
  return (value % 2 ^ bits).toNat

def uint32Max : Int := 2 ^ 32 - 1

/-- Whether the type names a driver that is compiled in. -/
def checkDbType (build : Build) (dbtype : eDBTYPE) : Except Str Unit :=
  if dbtype = .eNONE then .error "invalid or missing dbtype".toList
  else if dbtype = .eMYSQL ∧ ¬ build.HAVE_MYSQL ∨ dbtype = .ePGSQL ∧ ¬ build.HAVE_PGSQL then
    .error ("pquery is not compiled with support for ".toList ++ dbtype_str dbtype)
  else .ok ()

def readPort (reader : INIReader) (secName : Str) : eDBTYPE → Except Str Nat
  | .eMYSQL => integerOption reader secName "port".toList 3306 1 65535 16
  | .ePGSQL => integerOption reader secName "port".toList 5432 1 65535 16
  | .eNONE => .ok 0

def checkInfileType (dbtype : eDBTYPE) : eINFILETYPE → Except Str Unit
  | .eSQL => .ok ()
  | .eUNKNOWN => .error "invalid infiletype value".toList
  | _ =>
    if dbtype = .ePGSQL then
      .error ("infiletype GENLOG/BINLOG refers to MySQL log formats and is not ".toList ++
        "applicable to PostgreSQL; use infiletype = SQL".toList)
    else
      .error ("infiletype GENLOG/BINLOG is not implemented yet, only SQL is ".toList ++
        "supported".toList)

/-- The parameters of a section, or what is wrong with them. -/
def readWorkerParams (build : Build) (reader : INIReader) (secName : Str) :
    Except Str workerParams := do
  let option name default_value := reader.Get secName name default_value
  let flag name := reader.GetBoolean secName name false
  let integer name default_value min max bits :=
    integerOption reader secName name default_value min max bits
  let dbtype := reader.getDbType secName "dbtype".toList .eMYSQL
  checkDbType build dbtype
  let port ← readPort reader secName dbtype
  let threads ← integer "threads".toList 10 1 65535 16
  let queries_per_thread ← integer "queries-per-thread".toList 10000 0 int64Max 64
  let query_list_maxsize ← integer "query-list-maxsize".toList 1073741824 0 int64Max 64
  let timeout_secs ← integer "timeout".toList 0 0 uint32Max 32
  let connect_timeout_secs ← integer "connect-timeout".toList 60 0 uint32Max 32
  let infiletype := reader.getInfileType secName "infiletype".toList .eSQL
  checkInfileType dbtype infiletype
  return {
    myName := secName
    address := option "address".toList "localhost".toList
    username := option "user".toList "test".toList
    password := option "password".toList []
    socket := option "socket".toList "/var/run/mysqld/mysql.sock".toList
    database := option "database".toList "test".toList
    dbtype := dbtype
    port := port
    threads := threads
    queries_per_thread := queries_per_thread
    query_list_maxsize := query_list_maxsize
    timeout_secs := timeout_secs
    connect_timeout_secs := connect_timeout_secs
    verbose := flag "verbose".toList
    shuffle := flag "shuffle".toList
    infile := option "infile".toList "pquery.sql".toList
    infiletype := infiletype
    logdir := option "logdir".toList "/tmp".toList
    log_all_queries := flag "log-all-queries".toList
    log_succeeded_queries := flag "log-succeded-queries".toList
    log_failed_queries := flag "log-failed-queries".toList
    log_query_statistics := flag "log-query-statistics".toList
    log_query_duration := flag "log-query-duration".toList
    log_client_output := flag "log-client-output".toList
    log_query_numbers := flag "log-query-numbers".toList }

def setupWorkerParams (build : Build) (reader : INIReader) (secName : Str) :
    Except Str workerParams :=
  (readWorkerParams build reader secName).mapError (configError secName)

/-- The parameters of the sections that run, or the errors of those that are rejected. -/
def buildAllWorkerParams (build : Build) (reader : INIReader) :
    Except (List Str) (List workerParams) :=
  let run := reader.sections.filter fun secName =>
    secName.map tolower ≠ "master".toList && reader.GetBoolean secName "run".toList false
  let results := run.map (setupWorkerParams build reader)
  let errors := results.filterMap fun r => match r with
    | .error e => some e
    | .ok _ => none
  if errors ≠ [] then .error errors
  else .ok (results.filterMap fun r => match r with
    | .ok p => some p
    | .error _ => none)

end PQuery.Config

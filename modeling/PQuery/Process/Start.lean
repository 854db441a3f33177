import PQuery.Config.Semantics
import PQuery.Process.Program

/-!
# From the configuration to the pool

`PQuery::run` before `WorkerPool::runAll`: the configuration is read, the log is opened, and every
section that is to run is checked; the pool is reached only with all of them accepted. The checks go
on after a rejected section (`checkSection`), and what they leave is a fold over the headers
(`safe_buildAllWorkerParams`).
-/

namespace PQuery.Process

open Config Fork ListScan

structure CliOptions where
  configFilePath : Str
  logFilePath : Str

/-- What the program is compiled as: the version in the name of its log, and the records that
`logVersionInfo` makes. -/
structure Version where
  PQMAJVERSION : Str
  records : List Str

section
variable (build : Build) (version : Version) (options : CliOptions) (configReader : INIReader)

def initConfig : Action Bool := do
  let parseerr := configReader.error
  if parseerr < 0 then
    cerr ("Can't load config from file \"".toList ++ options.configFilePath ++ "\"".toList)
    return false
  else if parseerr > 0 then
    cerr "Config parse error!".toList
    cerr ("File: ".toList ++ options.configFilePath)
    cerr ("Line: ".toList ++ to_string parseerr)
    return false
  else return true

/-- The path of `-L` goes before that of the configuration. -/
def initLogger : Action Bool := do
  if options.logFilePath ≠ [] then setLogFilePath options.logFilePath
  let master_logdir := configReader.Get "master".toList "logdir".toList "/tmp".toList
  let master_logfile := configReader.Get "master".toList "logfile".toList
    ("pquery".toList ++ version.PQMAJVERSION ++ "-master.log".toList)
  let masterLogFile := master_logdir ++ '/' :: master_logfile
  initLogFile masterLogFile

def logVersionInfo : Action Unit := version.records.forM addRecordToLog

def prepareToRun : Action Bool := do
  if ← initConfig options configReader then
    if ← initLogger version options configReader then
      logVersionInfo version
      return true
    else return false
  else return false

def reportConfigError (fullMsg : Str) : Action Unit := do
  addRecordToLog fullMsg
  cerr fullMsg

/-- One round of the loop over the sections: the parameters so far, and whether none was rejected. -/
def checkSection (r : List workerParams × Bool) (secName : Str) :
    Action (List workerParams × Bool) := do
  if secName.map tolower = "master".toList then return r
  else
    addRecordToLog ("-> Checking ".toList ++ secName ++ " params...".toList)
    if configReader.GetBoolean secName "run".toList false then
      match setupWorkerParams build configReader secName with
      | .error fullMsg =>
        reportConfigError fullMsg
        return (r.1, false)
      | .ok wParams => return (r.1 ++ [wParams], r.2)
    else return r

/-- What is in `out`, and the result. -/
def buildAllWorkerParams : Action (List workerParams × Bool) := do
  let (out, configOk) ← configReader.sections.foldlM (checkSection build configReader) ([], true)
  if configOk then return (out, true)
  else
    let msg := "=> Config validation failed, no workers started".toList
    addRecordToLog msg
    cerr msg
    return (out, false)

end

/-- `PQuery::run`, on the content of the configuration file if it can be opened. -/
def run (build : Build) (version : Version) (options : CliOptions) (file : Option Str) :
    Action ExitStatus := do
  let configReader := INIReader.open file
  if ← prepareToRun version options configReader then
    let masterLogDir := configReader.Get "master".toList "logdir".toList "/tmp".toList
    let (validParams, configOk) ← buildAllWorkerParams build configReader
    if configOk then runPool build masterLogDir validParams
    else return .EXIT_FAILURE
  else return .EXIT_FAILURE

/-! ### Sections that run -/

def runs (reader : INIReader) (secName : Str) : Bool :=
  secName.map tolower ≠ "master".toList && reader.GetBoolean secName "run".toList false

/-- The headers of the sections that are to run, in order. -/
def running (reader : INIReader) : List Str := reader.sections.filter (runs reader)

/-- A malformed line, or a section that is to run and is rejected. -/
def Rejected (build : Build) (file : Str) : Prop :=
  (∃ line ∈ lines '\n' file, Classified line .malformed) ∨
    ∃ secName ∈ running (INIReader.open (some file)), ∃ message,
      setupWorkerParams build (INIReader.open (some file)) secName = .error message

/-- The calls before the pool. -/
def Starting : Call → Prop
  | .cerr _ => True
  | .setLogFilePath _ => True
  | .initLogFile _ => True
  | .addRecordToLog _ => True
  | _ => False

/-- Calls among which are all messages and records. -/
def Reports (P : Call → Prop) : Prop := (∀ text, P (.cerr text)) ∧ ∀ message, P (.addRecordToLog message)

theorem reports_starting : Reports Starting := ⟨fun _ => trivial, fun _ => trivial⟩

section
variable {build : Build} {reader : INIReader} {P : Call → Prop}

theorem safe_addRecordToLog {message : Str} (h : P (.addRecordToLog message)) :
    Safe P (fun _ => True) (addRecordToLog message) :=
  .call h fun _ => .ret fun _ _ => trivial

theorem safe_cerr {text : Str} (h : P (.cerr text)) :
    Safe P (fun _ => True) (cerr text) :=
  safe_call (I := system) (c := .cerr text) h

theorem safe_initLogger (version : Version) (options : CliOptions) (reader : INIReader) :
    Safe Starting (fun _ => True) (initLogger version options reader) := by
  unfold initLogger
  by_cases hpath : options.logFilePath ≠ []
  · simp only [if_pos hpath]
    exact (safe_call (I := system) (c := .setLogFilePath _) trivial).bind fun _ _ =>
      safe_call (I := system) (c := .initLogFile _) trivial
  · simp only [if_neg hpath]
    exact safe_call (I := system) (c := .initLogFile _) trivial

theorem safe_reportConfigError (hP : Reports P) (fullMsg : Str) :
    Safe P (fun _ => True) (reportConfigError fullMsg) :=
  (safe_addRecordToLog (hP.2 _)).bind fun _ _ => safe_cerr (hP.1 _)

theorem safe_logVersionInfo (hP : Reports P) (version : Version) :
    Safe P (fun _ => True) (logVersionInfo version) := by
  unfold logVersionInfo
  induction version.records with
  | nil => exact .pure trivial
  | cons record records ih => exact (safe_addRecordToLog (hP.2 _)).bind fun _ _ => ih

/-! ### The checks of the sections -/

/-- What a round makes of the parameters so far. -/
def checked (build : Build) (reader : INIReader) (r : List workerParams × Bool) (secName : Str) :
    List workerParams × Bool :=
  if runs reader secName then
    match setupWorkerParams build reader secName with
    | .error _ => (r.1, false)
    | .ok wParams => (r.1 ++ [wParams], r.2)
  else r

theorem safe_checkSection (hP : Reports P) (r : List workerParams × Bool) (secName : Str) :
    Safe P (· = checked build reader r secName) (checkSection build reader r secName) := by
  unfold checkSection checked runs
  by_cases hmaster : secName.map tolower = "master".toList
  · simp only [hmaster, if_true, ne_eq, not_true_eq_false, decide_false, Bool.false_and,
      Bool.false_eq_true, if_false]
    exact .pure rfl
  · simp only [hmaster, if_false, ne_eq, not_false_eq_true, decide_true, Bool.true_and]
    refine (safe_addRecordToLog (hP.2 _)).bind fun _ _ => ?_
    cases hrun : reader.GetBoolean secName "run".toList false with
    | false => exact .pure rfl
    | true =>
      cases hsetup : setupWorkerParams build reader secName with
      | error fullMsg => exact (safe_reportConfigError hP fullMsg).bind fun _ _ => .pure rfl
      | ok wParams => exact .pure rfl

theorem foldl_checked (secNames : List Str) (r : List workerParams × Bool) :
    secNames.foldl (checked build reader) r =
      (r.1 ++ ((secNames.filter (runs reader)).map (setupWorkerParams build reader)).filterMap Except.toOption,
        r.2 && ((secNames.filter (runs reader)).map (setupWorkerParams build reader)).all Except.isOk) := by
  induction secNames generalizing r with
  | nil => simp
  | cons secName secNames ih =>
    rw [List.foldl_cons, ih, checked]
    cases hruns : runs reader secName with
    | false => simp [hruns]
    | true =>
      cases hsetup : setupWorkerParams build reader secName with
      | error fullMsg =>
        simp [hruns, hsetup, List.filterMap_cons, Except.toOption, Except.isOk, Except.toBool]
      | ok wParams => simp [hruns, hsetup, Except.toOption, Except.isOk, Except.toBool]

theorem safe_buildAllWorkerParams (hP : Reports P) (build : Build) (reader : INIReader) :
    Safe P (· = reader.sections.foldl (checked build reader) ([], true))
      (buildAllWorkerParams build reader) := by
  refine (Safe.foldlM (safe_checkSection hP) reader.sections ([], true)).bind fun r hr => ?_
  obtain ⟨out, configOk⟩ := r
  rw [← hr]
  cases configOk with
  | true => exact .pure rfl
  | false =>
    exact (safe_addRecordToLog (hP.2 _)).bind fun _ _ => (safe_cerr (hP.1 _)).bind fun _ _ => .pure rfl

theorem exists_params {secNames : List Str}
    (h : ∀ secName ∈ secNames, ∀ message, setupWorkerParams build reader secName ≠ .error message) :
    ∃ params, List.Forall₂ (fun secName p => setupWorkerParams build reader secName = .ok p)
      secNames params := by
  induction secNames with
  | nil => exact ⟨[], .nil⟩
  | cons secName secNames ih =>
    obtain ⟨hsecName, hsecNames⟩ := List.forall_mem_cons.mp h
    obtain ⟨params, hparams⟩ := ih hsecNames
    cases hsetup : setupWorkerParams build reader secName with
    | error message => exact absurd hsetup (hsecName message)
    | ok wParams => exact ⟨wParams :: params, .cons hsetup hparams⟩

theorem map_setupWorkerParams {secNames : List Str} {params : List workerParams}
    (h : List.Forall₂ (fun secName p => setupWorkerParams build reader secName = .ok p) secNames params) :
    secNames.map (setupWorkerParams build reader) = params.map .ok := by
  induction h with
  | nil => rfl
  | cons hp _ ih => rw [List.map_cons, hp, ih, List.map_cons]

theorem accepted_params {params : List workerParams}
    (h : List.Forall₂ (fun secName p => setupWorkerParams build reader secName = .ok p)
      (running reader) params) :
    reader.sections.foldl (checked build reader) ([], true) = (params, true) := by
  have hok : params.filterMap (Except.toOption ∘ (Except.ok : workerParams → Except Str workerParams)) =
      params := List.filterMap_some
  have hall : params.all (Except.isOk ∘ (Except.ok : workerParams → Except Str workerParams)) = true :=
    List.all_eq_true.mpr fun _ _ => rfl
  rw [foldl_checked, ← running, map_setupWorkerParams h, List.filterMap_map, List.all_map, hok, hall]
  rfl

theorem rejected_params {secName message : Str} (hrun : secName ∈ running reader)
    (hsetup : setupWorkerParams build reader secName = .error message) :
    (reader.sections.foldl (checked build reader) ([], true)).2 = false := by
  rw [foldl_checked, ← running, Bool.true_and, List.all_eq_false]
  refine ⟨_, List.mem_map_of_mem hrun, ?_⟩
  simp [hsetup, Except.isOk, Except.toBool]

/-! ### The start of a rejected configuration -/

theorem safe_initConfig (hP : ∀ text, P (.cerr text)) (options : CliOptions) (reader : INIReader) :
    Safe P (fun b => b = true → reader.error = 0) (initConfig options reader) := by
  unfold initConfig
  by_cases hneg : reader.error < 0
  · simp only [if_pos hneg]
    exact (safe_cerr (hP _)).bind fun _ _ => .pure fun h => by cases h
  · by_cases hpos : reader.error > 0
    · simp only [if_neg hneg, if_pos hpos]
      exact (safe_cerr (hP _)).bind fun _ _ => (safe_cerr (hP _)).bind fun _ _ => (safe_cerr (hP _)).bind fun _ _ =>
        .pure fun h => by cases h
    · simp only [if_neg hneg, if_neg hpos]
      exact .pure fun _ => by omega

theorem safe_prepareToRun (version : Version) (options : CliOptions) (reader : INIReader) :
    Safe Starting (fun b => b = true → reader.error = 0) (prepareToRun version options reader) := by
  unfold prepareToRun
  refine (safe_initConfig (fun _ => trivial) options reader).bind fun read hread => ?_
  cases read with
  | false => exact .pure fun h => by cases h
  | true =>
    refine (safe_initLogger version options reader).bind fun opened _ => ?_
    cases opened with
    | false => exact .pure fun h => by cases h
    | true => exact (safe_logVersionInfo reports_starting version).bind fun _ _ => .pure fun _ => hread rfl

theorem error_of_malformed {file : Str} (h : ∃ line ∈ lines '\n' file, Classified line .malformed) :
    (INIReader.open (some file)).error ≠ 0 := by
  obtain ⟨line, hline, hkind⟩ := h
  have hmem : .malformed ∈ (lines '\n' file).map classify :=
    List.mem_map.mpr ⟨line, hline, classified_iff.mp hkind⟩
  rw [(reads_open file).error, firstMalformed, if_pos hmem]
  omega

theorem ends_fatal (thrown : Thrown) : Ends Starting (· = .EXIT_FAILURE) (fatal thrown) :=
  .call trivial fun _ => .ret rfl

theorem ends_rejected {file : Str} (version : Version) (options : CliOptions)
    (h : Rejected build file) :
    Ends Starting (· = .EXIT_FAILURE) (main (run build version options (some file))) := by
  refine Safe.catching (Q := (· = .EXIT_FAILURE)) ?_ ends_fatal fun status hstatus => .ret hstatus
  unfold run
  refine (safe_prepareToRun version options _).bind fun prepared hprepared => ?_
  cases prepared with
  | false => exact .pure rfl
  | true =>
    refine (safe_buildAllWorkerParams reports_starting build _).bind fun r hr => ?_
    obtain ⟨validParams, configOk⟩ := r
    cases configOk with
    | false => exact .pure rfl
    | true =>
      rcases h with hmalformed | ⟨secName, hrun, message, hsetup⟩
      · exact absurd (hprepared rfl) (error_of_malformed hmalformed)
      · have hfalse := rejected_params hrun hsetup
        rw [← hr] at hfalse
        cases hfalse

end

/-! ### What the parameters of a section depend on -/

theorem setupWorkerParams_congr (build : Build) {reader reader' : INIReader} {secName : Str}
    (h : ∀ name default_value, reader.Get secName name default_value =
      reader'.Get secName name default_value) :
    setupWorkerParams build reader secName = setupWorkerParams build reader' secName := by
  have hport : ∀ dbtype, readPort reader secName dbtype = readPort reader' secName dbtype := by
    intro dbtype
    cases dbtype <;> simp only [readPort, integerOption, INIReader.GetInteger, h]
  simp only [setupWorkerParams, readWorkerParams, integerOption, INIReader.GetInteger,
    INIReader.getDbType, INIReader.getInfileType, INIReader.GetBoolean, hport, h]

/-- The assignments under the headers of one name, in the order of the file. -/
def ownAssignments (file secName : Str) : List (Str × Str) :=
  (assignments (some []) ((lines '\n' file).map classify)).filterMap fun x =>
    if x.1.1 = some secName then some (x.1.2, x.2) else none

theorem get_own (file secName name default_value : Str) :
    (INIReader.open (some file)).Get secName name default_value =
      ((ownAssignments file secName).reverse.lookup name).getD default_value := by
  have hlookup : ∀ xs : List ((Option Str × Str) × Str), xs.lookup (some secName, name) =
      (xs.filterMap fun x => if x.1.1 = some secName then some (x.1.2, x.2) else none).lookup name := by
    intro xs
    induction xs with
    | nil => rfl
    | cons x xs ih =>
      obtain ⟨⟨above, key⟩, value⟩ := x
      by_cases habove : above = some secName
      · have hkey : ((some secName, name) == (above, key)) = (name == key) := by
          rw [Bool.eq_iff_iff, beq_iff_eq, beq_iff_eq, Prod.mk.injEq]
          simp [habove]
        rw [List.lookup_cons, hkey, ih, List.filterMap_cons, if_pos habove, List.lookup_cons]
      · rw [List.lookup_cons, key_beq_false habove, ih, List.filterMap_cons, if_neg habove]
  rw [(reads_open file).get, lastValue, hlookup, List.filterMap_reverse]
  rfl

theorem buildAllWorkerParams_eq {build : Build} {reader : INIReader} {params : List workerParams}
    (h : List.Forall₂ (fun secName p => setupWorkerParams build reader secName = .ok p)
      (running reader) params) : Config.buildAllWorkerParams build reader = .ok params := by
  have hrunning : (reader.sections.filter fun secName =>
      secName.map tolower ≠ "master".toList && reader.GetBoolean secName "run".toList false) =
        running reader := rfl
  unfold Config.buildAllWorkerParams
  simp only [hrunning, map_setupWorkerParams h, List.filterMap_map, Function.comp_def,
    List.filterMap_none, List.filterMap_some]
  rfl

/-- Parameters that are built are those of the sections that run, whether logged or not. -/
theorem params_of_build {build : Build} {reader : INIReader} {params : List workerParams}
    (h : Config.buildAllWorkerParams build reader = .ok params) :
    reader.sections.foldl (checked build reader) ([], true) = (params, true) ∧
      List.Forall₂ (fun secName p => setupWorkerParams build reader secName = .ok p)
        (running reader) params := by
  have hok : ∀ secName ∈ running reader, ∀ message,
      setupWorkerParams build reader secName ≠ .error message := by
    intro secName hrun message hsetup
    simp only [Config.buildAllWorkerParams] at h
    split_ifs at h with herrors
    have hnone := List.filterMap_eq_nil_iff.mp (not_not.mp herrors) _ (List.mem_map_of_mem hrun)
    rw [hsetup] at hnone
    cases hnone
  obtain ⟨params', hparams⟩ := exists_params hok
  obtain rfl : params' = params := Except.ok.inj ((buildAllWorkerParams_eq hparams).symm.trans h)
  exact ⟨accepted_params hparams, hparams⟩

theorem runs_run {build : Build} {version : Version} {options : CliOptions} {file : Str}
    {params : List workerParams} {t : Tree system ExitStatus}
    (hbuild : Config.buildAllWorkerParams build (INIReader.open (some file)) = .ok params)
    (h : Runs (main (run build version options (some file))) t) :
    ∃ before t', t = .graft before t' ∧ (∀ e ∈ before, Starting e.1) ∧
      (t'.children = [] ∨ Runs (main (runPool build
        ((INIReader.open (some file)).Get "master".toList "logdir".toList "/tmp".toList) params)) t') := by
  have hfatal : ∀ {thrown t}, Runs (fatal thrown) t → t.children = [] := by
    intro thrown t h
    exact Tree.children_eq_nil ((ends_fatal thrown).runs h).1
  unfold main run at h
  rw [Prog.catching_bind] at h
  obtain ⟨before, t', rfl, hbefore, rfl | ⟨thrown, h⟩ | ⟨prepared, -, h⟩⟩ :=
    runs_catching_safe (safe_prepareToRun version options _) h
  · exact ⟨before, _, rfl, hbefore, .inl rfl⟩
  · exact ⟨before, t', rfl, hbefore, .inl (hfatal h)⟩
  cases prepared with
  | false =>
    rcases runs_ret h with rfl | rfl
    · exact ⟨before, _, rfl, hbefore, .inl rfl⟩
    · exact ⟨before, _, rfl, hbefore, .inl rfl⟩
  | true =>
    simp only [if_true] at h
    rw [Prog.catching_bind] at h
    obtain ⟨before', t', rfl, hbefore', rfl | ⟨thrown, h⟩ | ⟨r, hr, h⟩⟩ :=
      runs_catching_safe (safe_buildAllWorkerParams reports_starting build _) h
    · refine ⟨before ++ before', _, (Tree.graft_append _ _ _).symm, ?_, .inl rfl⟩
      exact List.forall_mem_append.mpr ⟨hbefore, hbefore'⟩
    · refine ⟨before ++ before', _, (Tree.graft_append _ _ _).symm, ?_, .inl (hfatal h)⟩
      exact List.forall_mem_append.mpr ⟨hbefore, hbefore'⟩
    · rw [(params_of_build hbuild).1] at hr
      rw [hr] at h
      refine ⟨before ++ before', _, (Tree.graft_append _ _ _).symm, ?_, .inr h⟩
      exact List.forall_mem_append.mpr ⟨hbefore, hbefore'⟩

/-- **All or nothing.** A rejected configuration leads to no `fork` and no call of the pool in any
run. Otherwise `buildAllWorkerParams` succeeds, and its output is what `setupWorkerParams` gives for
the sections that are to run, in the order of their headers. The parameters of a section depend only
on the assignments under the headers of its name, in their order. -/
theorem start_all_or_nothing (build : Build) (version : Version) (options : CliOptions) (file : Str) :
    (Rejected build file → ∀ t, Runs (main (run build version options (some file))) t →
      t.forks = 0 ∧ (∀ e ∈ t.calls, Starting e.1) ∧
        ∀ status, t.result = some status → status = .EXIT_FAILURE) ∧
    (¬ Rejected build file → ∃ params,
      List.Forall₂ (fun secName p => setupWorkerParams build (INIReader.open (some file)) secName = .ok p)
        (running (INIReader.open (some file))) params ∧
      Config.buildAllWorkerParams build (INIReader.open (some file)) = .ok params ∧
      ∀ t r, Runs (buildAllWorkerParams build (INIReader.open (some file))).run t →
        t.result = some (.ok r) → r = (params, true)) ∧
    ∀ file' secName, ownAssignments file secName = ownAssignments file' secName →
      setupWorkerParams build (INIReader.open (some file)) secName =
        setupWorkerParams build (INIReader.open (some file')) secName := by
  refine ⟨fun hrejected t ht => (ends_rejected version options hrejected).runs ht,
    fun haccepted => ?_, fun file' secName hown => ?_⟩
  · have hok : ∀ secName ∈ running (INIReader.open (some file)), ∀ message,
        setupWorkerParams build (INIReader.open (some file)) secName ≠ .error message :=
      fun secName hrun message hsetup => haccepted (.inr ⟨secName, hrun, message, hsetup⟩)
    obtain ⟨params, hparams⟩ := exists_params hok
    refine ⟨params, hparams, buildAllWorkerParams_eq hparams, fun t r ht hresult => ?_⟩
    have hr := ((safe_buildAllWorkerParams reports_starting build _).runs ht).2.2 _ hresult r rfl
    exact hr.trans (accepted_params hparams)
  · refine setupWorkerParams_congr build fun name default_value => ?_
    rw [get_own, get_own, hown]

/-- Two sections of one name in either order: the later one counts. -/
theorem setupWorkerParams_order :
    setupWorkerParams ⟨true, true⟩ (INIReader.open (some
        ("[w]\nrun = yes\nthreads = 1\n".toList ++ "[w]\nthreads = 2\n".toList))) "w".toList ≠
      setupWorkerParams ⟨true, true⟩ (INIReader.open (some
        ("[w]\nthreads = 2\n".toList ++ "[w]\nrun = yes\nthreads = 1\n".toList))) "w".toList := by
  decide +kernel

end PQuery.Process

import PQuery.Library.Output
import PQuery.Process.Logs
import PQuery.Process.MasterSection

/-!
# The log of the master

A `Logger` has a stream and the path of `-L` until a file is opened with it. `fork` copies it, with what
is in the buffer of the stream. What a process makes of the files in a run is read off its tree
(`Logs`). At every `fork` of the master the buffer is empty and the path is used up, so a child has
nothing of the master's to write and opens the log of its worker (`Works.inherits`): in the log of the
master there is a beginning of the records of the master, whatever the children do meanwhile
(`masterLog_once`).
-/

namespace PQuery.Process

open Config Fork Output Pool

structure Logger where
  logFile : OutStream Str Char
  pendingLogFilePath : Str

namespace Logger

/-- A new logger. -/
def new : Logger := ⟨⟨none, [], true⟩, []⟩

/-- The path that `initLogFile` opens. -/
def targetPath (l : Logger) (filePath : Str) : Str :=
  if l.pendingLogFilePath ≠ [] then l.pendingLogFilePath else filePath

/-- The logger after `initLogFile` where it returns `true`, with the path that it has opened. -/
def opened (path : Str) : Logger := ⟨⟨some path, [], true⟩, []⟩

/-- The logger after `initLogFile` where it returns `false`. -/
def unopened : Logger := ⟨⟨none, [], false⟩, []⟩

end Logger

/-! ### The calls -/

def recordText (message : Str) : Str := message ++ "\n".toList

def separation (what : Char) (lenght : Nat) : Str := List.replicate (lenght - 1) what ++ "\n".toList

/-- The records of `waitForWorkers`. -/
def polled (activeWorkers : List workerProc) (replies : List (Reply WaitAnswer)) : List Str :=
  (Pool.waitForWorkers replies (supervise activeWorkers)).1.log.map recordText

/-- What `executeTests` makes of the log of the worker, with any records, and of the files of its
threads. -/
inductive Executes (Params : workerParams) :
    OutStream Str Char → List Str → List (FileOp Str Char) → OutStream Str Char → Prop
  | done (s : OutStream Str Char) : Executes Params s [] [] s
  | own {s s' s'' : OutStream Str Char} {record : Str} {records : List Str}
      {ops ops' : List (FileOp Str Char)} (h : Moves s record ops s')
      (hrest : Executes Params s' records ops' s'') :
      Executes Params s (record :: records) (ops ++ ops') s''
  | thread {s s' : OutStream Str Char} {op : FileOp Str Char} {records : List Str}
      {ops : List (FileOp Str Char)} (h : ThreadsOpen Params op.path)
      (hrest : Executes Params s records ops s') : Executes Params s records (op :: ops) s'

/-- What a call makes of the logger: the records that are added and the operations on the files. A
stream that is closed writes what is in its buffer, or fails to. -/
inductive Logged (l : Logger) :
    (c : Call) → Answer c → List Str → List (FileOp Str Char) → Logger → Prop
  | cerr (text : Str) (answer : Unit) : Logged l (.cerr text) answer [] [] l
  | now (time : Nat) : Logged l .now time [] [] l
  | setLogFilePath (filePath : Str) (answer : Unit) :
      Logged l (.setLogFilePath filePath) answer [] [] { l with pendingLogFilePath := filePath }
  -- `close` leaves the stream closed also where it fails, so the second `is_open` is never true
  | opened {filePath : Str} {ops : List (FileOp Str Char)} {s : OutStream Str Char}
      (hclose : Moves l.logFile [] ops s) :
      Logged l (.initLogFile filePath) true [] (ops ++ [.trunc (l.targetPath filePath)])
        (.opened (l.targetPath filePath))
  | unopened {filePath : Str} {ops : List (FileOp Str Char)} {s : OutStream Str Char}
      (hclose : Moves l.logFile [] ops s) :
      Logged l (.initLogFile filePath) false [] ops .unopened
  | notOpen (hfile : l.logFile.file = none) : Logged l .flushLog (.ok ()) [] [] l
  | flushed {ops : List (FileOp Str Char)} {s : OutStream Str Char} (hfile : l.logFile.file ≠ none)
      (hflush : Moves l.logFile [] ops s) (hbuffer : s.buffer = []) (hgood : s.good = true) :
      Logged l .flushLog (.ok ()) [] ops { l with logFile := s }
  | unflushed {thrown : Thrown} {ops : List (FileOp Str Char)} {s : OutStream Str Char}
      (hfile : l.logFile.file ≠ none) (hflush : Moves l.logFile [] ops s) (hfail : s.good = false) :
      Logged l .flushLog (.error thrown) [] ops { l with logFile := s }
  | separated {what : Char} {lenght : Nat} {answer : Unit} {ops : List (FileOp Str Char)}
      {s : OutStream Str Char} (h : Moves l.logFile (separation what lenght) ops s) :
      Logged l (.addSeparation what lenght) answer [separation what lenght] ops { l with logFile := s }
  | added {message : Str} {ops : List (FileOp Str Char)} {s : OutStream Str Char}
      (h : Moves l.logFile (recordText message) ops s) (hgood : s.good = true) :
      Logged l (.addRecordToLog message) (.ok ()) [recordText message] ops { l with logFile := s }
  | notAdded {message : Str} {thrown : Thrown} {ops : List (FileOp Str Char)} {s : OutStream Str Char}
      (h : Moves l.logFile (recordText message) ops s) (hfail : s.good = false) :
      Logged l (.addRecordToLog message) (.error thrown) [recordText message] ops { l with logFile := s }
  | executed {Params : workerParams} {outcome : Except Thrown Bool} {records : List Str}
      {ops : List (FileOp Str Char)} {s : OutStream Str Char}
      (h : Executes Params l.logFile records ops s) :
      Logged l (.executeTests Params) outcome records ops { l with logFile := s }
  | waited {activeWorkers : List workerProc}
      {replies : { replies : List (Reply WaitAnswer) //
        (Pool.waitForWorkers replies (supervise activeWorkers)).2.isSome }}
      {ops : List (FileOp Str Char)} {s : OutStream Str Char}
      (h : Moves l.logFile (polled activeWorkers replies.1).flatten ops s) :
      Logged l (.waitForWorkers activeWorkers) (.ok replies) (polled activeWorkers replies.1) ops
        { l with logFile := s }
  | interrupted {activeWorkers : List workerProc} {thrown : Thrown} {replies : List (Reply WaitAnswer)}
      {records : List Str} {ops : List (FileOp Str Char)} {s : OutStream Str Char}
      (hrecords : records <+: polled activeWorkers replies) (h : Moves l.logFile records.flatten ops s) :
      Logged l (.waitForWorkers activeWorkers) (.error thrown) records ops { l with logFile := s }

/-! ### Runs -/

/-- What the process of the tree makes of its logger, and each of its descendants of the copy that it
has at its `fork`: the records of the process and its operations on the files, and for each descendant
the copy and the operations. A process that ends closes its log. -/
inductive Logs {α : Type} : Logger → Tree system α → List Str → List (FileOp Str Char) →
    List (Logger × List (FileOp Str Char)) → Prop
  | stopped (l : Logger) : Logs l .stopped [] [] []
  | ended {l : Logger} {a : α} {ops : List (FileOp Str Char)} {s : OutStream Str Char}
      (hclose : Moves l.logFile [] ops s) : Logs l (.ended a) [] ops []
  | called {l l' : Logger} {c : Call} {answer : Answer c} {rest : Tree system α}
      {records records' : List Str} {ops ops' : List (FileOp Str Char)}
      {children : List (Logger × List (FileOp Str Char))} (h : Logged l c answer records ops l')
      (hrest : Logs l' rest records' ops' children) :
      Logs l (.called c answer rest) (records ++ records') (ops ++ ops') children
  | forkFailed {l : Logger} {e : Str} {rest : Tree system α} {records : List Str}
      {ops : List (FileOp Str Char)} {children : List (Logger × List (FileOp Str Char))}
      (hrest : Logs l rest records ops children) : Logs l (.forkFailed e rest) records ops children
  | forked {l : Logger} {pid : Nat} {child rest : Tree system α} {records records' : List Str}
      {ops ops' : List (FileOp Str Char)} {children children' : List (Logger × List (FileOp Str Char))}
      (hchild : Logs l child records' ops' children') (hrest : Logs l rest records ops children) :
      Logs l (.forked pid child rest) records ops ((l, ops') :: (children' ++ children))

/-- The path of `-L`, or that of the configuration. -/
def masterPath (version : Version) (options : CliOptions) (configReader : INIReader) : Str :=
  if options.logFilePath ≠ [] then options.logFilePath else masterLogFile version configReader

/-- A child begins with nothing but the open log of the master, and then keeps to the files of its
worker. -/
def Inherits (masterLogDir path : Str) (Params : workerParams)
    (child : Logger × List (FileOp Str Char)) : Prop :=
  child.1 = .opened path ∧ ∀ op ∈ child.2, Opens masterLogDir Params op.path

theorem logs_stopped {l : Logger} {records : List Str} {ops : List (FileOp Str Char)}
    {children : List (Logger × List (FileOp Str Char))} {α : Type}
    (h : Logs l (.stopped : Tree system α) records ops children) :
    records = [] ∧ ops = [] ∧ children = [] := by
  cases h
  exact ⟨rfl, rfl, rfl⟩

/-! ### The child -/

section
variable {masterLogDir path : Str} {Params : workerParams} {params : List workerParams} {l l' : Logger}
  {records : List Str} {ops : List (FileOp Str Char)} {children : List (Logger × List (FileOp Str Char))}

theorem moves_opens {s s' : OutStream Str Char} {text : Str} (h : Moves s text ops s')
    (hfile : ∀ f, s.file = some f → Opens masterLogDir Params f) :
    ∀ op ∈ ops, Opens masterLogDir Params op.path := by
  intro op hop
  obtain ⟨f, piece, hf, rfl, -⟩ := h.writes op hop
  exact hfile f hf

theorem Executes.opens {s s' : OutStream Str Char} (h : Executes Params s records ops s')
    (hfile : ∀ f, s.file = some f → Opens masterLogDir Params f) :
    s'.file = s.file ∧ ∀ op ∈ ops, Opens masterLogDir Params op.path := by
  induction h with
  | done s => exact ⟨rfl, by simp⟩
  | own h _ ih =>
    obtain ⟨hsame, hops⟩ := ih (by rwa [h.file])
    exact ⟨hsame.trans h.file, List.forall_mem_append.mpr ⟨moves_opens h hfile, hops⟩⟩
  | thread hthread _ ih =>
    obtain ⟨hsame, hops⟩ := ih hfile
    exact ⟨hsame, List.forall_mem_cons.mpr ⟨.inr hthread, hops⟩⟩

/-- The logger of a child that has opened the log of its worker, or failed to. -/
def Own (masterLogDir : Str) (Params : workerParams) (l : Logger) : Prop :=
  l.pendingLogFilePath = [] ∧ ∀ f, l.logFile.file = some f → Opens masterLogDir Params f

theorem targetPath_of_nil (h : l.pendingLogFilePath = []) (filePath : Str) :
    l.targetPath filePath = filePath := by
  rw [Logger.targetPath, if_neg (not_not.mpr h)]

theorem own_opened (h : Opens masterLogDir Params path) : Own masterLogDir Params (.opened path) :=
  ⟨rfl, fun _ hf => Option.some.inj hf ▸ h⟩

theorem own_unopened : Own masterLogDir Params .unopened := ⟨rfl, by simp [Logger.unopened]⟩

theorem Own.logged {c : Call} {answer : Answer c} (hl : Own masterLogDir Params l)
    (hc : OwnCall masterLogDir Params c) (h : Logged l c answer records ops l') :
    Own masterLogDir Params l' ∧ ∀ op ∈ ops, Opens masterLogDir Params op.path := by
  have hmoves : ∀ {text : Str} {s : OutStream Str Char}, Moves l.logFile text ops s →
      Own masterLogDir Params { l with logFile := s } ∧ ∀ op ∈ ops, Opens masterLogDir Params op.path :=
    fun h => ⟨⟨hl.1, by rw [h.file]; exact hl.2⟩, moves_opens h hl.2⟩
  cases h with
  | cerr text answer => exact ⟨hl, by simp⟩
  | now time => exact ⟨hl, by simp⟩
  | setLogFilePath filePath answer => exact hc.elim
  | @opened filePath _ _ hclose =>
    have hpath : Opens masterLogDir Params (l.targetPath filePath) := by
      rw [targetPath_of_nil hl.1]
      exact .inl hc
    refine ⟨own_opened hpath, List.forall_mem_append.mpr ⟨moves_opens hclose hl.2, ?_⟩⟩
    rintro op (_ | ⟨_, ⟨⟩⟩)
    exact hpath
  | unopened hclose => exact ⟨own_unopened, moves_opens hclose hl.2⟩
  | notOpen hfile => exact ⟨hl, by simp⟩
  | flushed hfile hflush hbuffer hgood => exact hmoves hflush
  | unflushed hfile hflush hfail => exact hmoves hflush
  | separated h => exact hmoves h
  | added h hgood => exact hmoves h
  | notAdded h hfail => exact hmoves h
  | executed h =>
    obtain rfl : _ = Params := hc
    obtain ⟨hsame, hops⟩ := h.opens hl.2
    exact ⟨⟨hl.1, by rw [hsame]; exact hl.2⟩, hops⟩
  | waited h => exact hmoves h
  | interrupted hrecords h => exact hmoves h

theorem Own.logs {t : Tree system ExitStatus} (hl : Own masterLogDir Params l)
    (hcalls : ∀ e ∈ t.calls, OwnCall masterLogDir Params e.1) (hchildless : t.children = [])
    (h : Logs l t records ops children) :
    children = [] ∧ ∀ op ∈ ops, Opens masterLogDir Params op.path := by
  induction h with
  | stopped l => exact ⟨rfl, by simp⟩
  | ended hclose => exact ⟨rfl, moves_opens hclose hl.2⟩
  | called hlogged _ ih =>
    obtain ⟨hc, hcalls⟩ := List.forall_mem_cons.mp hcalls
    obtain ⟨hl', hops⟩ := hl.logged hc hlogged
    obtain ⟨hnone, hrest⟩ := ih hl' hcalls hchildless
    exact ⟨hnone, List.forall_mem_append.mpr ⟨hops, hrest⟩⟩
  | forkFailed _ ih => exact ih hl hcalls hchildless
  | forked _ _ _ _ => cases hchildless

theorem Works.first {build : Build} {t : Tree system ExitStatus} (h : Works build masterLogDir Params t) :
    t = .stopped ∨ ∃ answer rest,
      t = .called (.initLogFile (workerLog masterLogDir Params.myName)) answer rest := by
  obtain ⟨next, -, -, h⟩ := h
  unfold work enterChild reinitChildLog at h
  simp only [Prog.catching_bind] at h
  cases h with
  | stopped => exact .inl rfl
  | call answer h => exact .inr ⟨answer, _, rfl⟩

theorem Works.inherits {build : Build} {t : Tree system ExitStatus}
    (h : Works build masterLogDir Params t) (hlogs : Logs (.opened path) t records ops children) :
    children = [] ∧ Inherits masterLogDir path Params (.opened path, ops) := by
  have hcalls := h.calls
  have hchildless := h.child.childless
  rcases h.first with rfl | ⟨answer, rest, rfl⟩
  · obtain ⟨-, rfl, rfl⟩ := logs_stopped hlogs
    exact ⟨rfl, rfl, by simp⟩
  · cases hlogs with
    | called hlogged hrest =>
      cases hlogged with
      | opened hclose =>
        obtain rfl := hclose.nothing rfl
        have hpath : Opens masterLogDir Params (workerLog masterLogDir Params.myName) := .inl rfl
        obtain ⟨hnone, hops⟩ := (own_opened hpath).logs (fun e he => hcalls e (List.mem_cons_of_mem _ he))
          hchildless hrest
        exact ⟨hnone, rfl, List.forall_mem_cons.mpr ⟨hpath, hops⟩⟩
      | unopened hclose =>
        obtain rfl := hclose.nothing rfl
        obtain ⟨hnone, hops⟩ := own_unopened.logs (fun e he => hcalls e (List.mem_cons_of_mem _ he))
          hchildless hrest
        exact ⟨hnone, rfl, hops⟩

/-! ### The master -/

theorem Logged.plain {c : Call} {answer : Answer c} (h : Logged l c answer records ops l') (hc : Plain c) :
    Moves l.logFile records.flatten ops l'.logFile ∧ l'.pendingLogFilePath = l.pendingLogFilePath := by
  cases h with
  | cerr text answer => exact ⟨.done _, rfl⟩
  | now time => exact ⟨.done _, rfl⟩
  | setLogFilePath filePath answer => exact hc.elim
  | opened hclose => exact hc.elim
  | unopened hclose => exact hc.elim
  | notOpen hfile => exact ⟨.done _, rfl⟩
  | flushed hfile hflush hbuffer hgood => exact ⟨hflush, rfl⟩
  | unflushed hfile hflush hfail => exact ⟨hflush, rfl⟩
  | separated h => exact ⟨by simpa using h, rfl⟩
  | added h hgood => exact ⟨by simpa using h, rfl⟩
  | notAdded h hfail => exact ⟨by simpa using h, rfl⟩
  | executed h => exact hc.elim
  | waited h => exact ⟨h, rfl⟩
  | interrupted hrecords h => exact ⟨h, rfl⟩

/-- A process with its log open at the path that only adds to it, and whose children run the first of
these sections. -/
def Keeps (masterLogDir path : Str) (params : List workerParams) (t : Tree system ExitStatus) : Prop :=
  ∀ l records ops children, l.logFile.file = some path → l.pendingLogFilePath = [] →
    Logs l t records ops children →
      (∃ s, Moves l.logFile records.flatten ops s) ∧
      ∃ started, started <+: params ∧ List.Forall₂ (Inherits masterLogDir path) started children

section keeps
variable {t : Tree system ExitStatus}

theorem keeps_stopped : Keeps masterLogDir path params .stopped := by
  intro l records ops children _ _ h
  obtain ⟨rfl, rfl, rfl⟩ := logs_stopped h
  exact ⟨⟨l.logFile, .done _⟩, [], List.nil_prefix, .nil⟩

theorem keeps_ended (status : ExitStatus) : Keeps masterLogDir path params (.ended status) := by
  intro l records ops children _ _ h
  cases h with
  | ended hclose => exact ⟨⟨_, hclose⟩, [], List.nil_prefix, .nil⟩

theorem keeps_ret {status : ExitStatus} (h : Runs (.ret status) t) : Keeps masterLogDir path params t := by
  rcases runs_ret h with rfl | rfl
  · exact keeps_stopped
  · exact keeps_ended status

theorem Keeps.called {c : Call} {answer : Answer c} (hc : Plain c) (h : Keeps masterLogDir path params t) :
    Keeps masterLogDir path params (.called c answer t) := by
  intro l records ops children hfile hpending hlogs
  cases hlogs with
  | called hlogged hrest =>
    obtain ⟨hmoves, hsame⟩ := hlogged.plain hc
    obtain ⟨⟨s, hs⟩, hchildren⟩ := h _ _ _ _ (hmoves.file.trans hfile) (hsame.trans hpending) hrest
    rw [List.flatten_append]
    exact ⟨⟨s, hmoves.trans hs⟩, hchildren⟩

theorem Keeps.graft {before : List (Σ c, system.Answer c)} (hbefore : ∀ e ∈ before, Plain e.1)
    (h : Keeps masterLogDir path params t) : Keeps masterLogDir path params (.graft before t) := by
  induction before with
  | nil => exact h
  | cons e before ih =>
    obtain ⟨he, hbefore⟩ := List.forall_mem_cons.mp hbefore
    exact (ih hbefore).called he

theorem keeps_fatal {thrown : Thrown} (h : Runs (fatal thrown) t) : Keeps masterLogDir path params t := by
  cases h with
  | stopped => exact keeps_stopped
  | call answer h => exact (keeps_ret h).called trivial

theorem Keeps.of_plain {α : Type} {Q : α → Prop} {p : Action α} {next : α → Prog system ExitStatus}
    (hp : Safe Plain Q p) (h : Runs (Prog.catching p fatal next) t)
    (hnext : ∀ a, Q a → ∀ t, Runs (next a) t → Keeps masterLogDir path params t) :
    Keeps masterLogDir path params t := by
  obtain ⟨before, t, rfl, hbefore, rfl | ⟨thrown, h⟩ | ⟨a, ha, h⟩⟩ := runs_catching_safe hp h
  · exact keeps_stopped.graft hbefore
  · exact (keeps_fatal h).graft hbefore
  · exact (hnext a ha t h).graft hbefore

theorem keeps_forked {build : Build} {activeWorkers : List workerProc}
    (h : Runs (.fork (branch build masterLogDir Params params activeWorkers)) t)
    (hresume : ∀ spawned t, Runs (resume build masterLogDir params spawned) t →
      Keeps masterLogDir path params t) (hlogs : Logs (.opened path) t records ops children) :
    (∃ s, Moves (Logger.opened path).logFile records.flatten ops s) ∧
      ∃ started, started <+: Params :: params ∧
        List.Forall₂ (Inherits masterLogDir path) started children := by
  cases h with
  | stopped => exact keeps_stopped _ _ _ _ rfl rfl hlogs
  | forkFailed strerror h =>
    have hkeeps : Keeps masterLogDir path (Params :: params) _ :=
      .of_plain (within_addRecordToLog _).safe h fun _ _ t h => keeps_ret h
    cases hlogs with
    | forkFailed hrest => exact hkeeps _ _ _ _ rfl rfl hrest
  | fork pid hchild h =>
    have hworks : Works build masterLogDir Params _ := ⟨_, rfl, rfl, hchild⟩
    have hkeeps : Keeps masterLogDir path params _ :=
      .of_plain (within_enlist Params pid activeWorkers).safe h fun spawned _ t h => hresume spawned t h
    cases hlogs with
    | forked hchildLogs hrest =>
      obtain ⟨rfl, hinherits⟩ := hworks.inherits hchildLogs
      obtain ⟨hmoves, started, hstarted, hchildren⟩ := hkeeps _ _ _ _ rfl rfl hrest
      exact ⟨hmoves, Params :: started, List.cons_prefix_cons.mpr ⟨rfl, hstarted⟩, .cons hinherits hchildren⟩

/-- A `flushLog` before the `fork` that lets it be reached leaves nothing in the buffer. -/
theorem keeps_flushed {build : Build} {activeWorkers : List workerProc}
    (h : Runs (Prog.catching flushLog fatal
      fun _ => .fork (branch build masterLogDir Params params activeWorkers)) t)
    (hresume : ∀ spawned t, Runs (resume build masterLogDir params spawned) t →
      Keeps masterLogDir path params t) :
    Keeps masterLogDir path (Params :: params) t := by
  cases h with
  | stopped => exact keeps_stopped
  | call answer h =>
    cases answer with
    | error thrown => exact (keeps_fatal h).called trivial
    | ok u =>
      intro l records ops children hfile hpending hlogs
      cases hlogs with
      | called hlogged hrest =>
        cases hlogged with
        | notOpen hnone =>
          rw [hfile] at hnone
          cases hnone
        | @flushed ops s hopen hflush hbuffer hgood =>
          have hopened : ({ l with logFile := s } : Logger) = .opened path := by
            obtain ⟨file, buffer, good⟩ := s
            obtain rfl : file = some path := hflush.file.trans hfile
            obtain rfl : buffer = [] := hbuffer
            obtain rfl : good = true := hgood
            rw [hpending]
            rfl
          rw [hopened] at hrest
          obtain ⟨⟨s', hs'⟩, hchildren⟩ := keeps_forked h hresume hrest
          rw [show s = (Logger.opened path).logFile from congrArg Logger.logFile hopened] at hflush
          exact ⟨⟨s', hflush.trans hs'⟩, hchildren⟩

/-- By induction over the sections: the buffer is written before each `fork`. -/
theorem keeps_runAll {build : Build} {activeWorkers : List workerProc}
    (h : Runs (Prog.catching (runAll build masterLogDir activeWorkers params) fatal finish) t) :
    Keeps masterLogDir path params t := by
  induction params generalizing activeWorkers t with
  | nil =>
    exact .of_plain (within_waitForWorkers activeWorkers).safe h fun _ _ t h => keeps_ret h
  | cons Params params ih =>
    rw [runAll_cons] at h
    refine .of_plain (within_addRecordToLog _).safe h fun _ _ t h => ?_
    refine keeps_flushed h ?_
    rintro ⟨activeWorkers, wrc⟩ t h
    cases wrc with
    | eERROR => exact keeps_ret h
    | eCHILD => exact keeps_ret h
    | eDEFAULT => exact ih h
    | eMASTER => exact ih h

end keeps

/-! ### From a new logger -/

/-- The log has not been opened, or everything after that is in the log at the path. -/
def Begun (masterLogDir path : Str) (params : List workerParams) (records : List Str)
    (ops : List (FileOp Str Char)) (children : List (Logger × List (FileOp Str Char))) : Prop :=
  (ops = [] ∧ children = []) ∨ ∃ rest, ops = .trunc path :: rest ∧
    (∃ s, Moves (Logger.opened path).logFile records.flatten rest s) ∧
    ∃ started, started <+: params ∧ List.Forall₂ (Inherits masterLogDir path) started children

section begun
variable {t : Tree system ExitStatus}

theorem moves_unopened {s s' : OutStream Str Char} {text : Str} (hfile : s.file = none)
    (h : Moves s text ops s') : ops = [] := by
  rw [List.eq_nil_iff_forall_not_mem]
  intro op hop
  obtain ⟨f, piece, hf, -⟩ := h.writes op hop
  rw [hfile] at hf
  cases hf

theorem unopened_ret {status : ExitStatus} (hfile : l.logFile.file = none) (h : Runs (.ret status) t)
    (hlogs : Logs l t records ops children) : ops = [] ∧ children = [] := by
  rcases runs_ret h with rfl | rfl
  · exact (logs_stopped hlogs).2
  · cases hlogs with
    | ended hclose => exact ⟨moves_unopened hfile hclose, rfl⟩

theorem unopened_fatal {thrown : Thrown} (hfile : l.logFile.file = none) (h : Runs (fatal thrown) t)
    (hlogs : Logs l t records ops children) : ops = [] ∧ children = [] := by
  cases h with
  | stopped => exact (logs_stopped hlogs).2
  | call answer h =>
    cases hlogs with
    | called hlogged hrest =>
      cases hlogged
      exact unopened_ret hfile h hrest

theorem logs_graft {before : List (Σ c, system.Answer c)} (hbefore : ∀ e ∈ before, ∃ text, e.1 = .cerr text)
    (h : Logs l (.graft before t) records ops children) : Logs l t records ops children := by
  induction before with
  | nil => exact h
  | cons e before ih =>
    obtain ⟨⟨text, he⟩, hmessages⟩ := List.forall_mem_cons.mp hbefore
    obtain ⟨c, answer⟩ := e
    obtain rfl : c = .cerr text := he
    refine ih hmessages ?_
    cases h with
    | called hlogged hrest =>
      cases hlogged
      exact hrest

theorem begun_initLogFile {filePath : Str} {next : Bool → Prog system ExitStatus} {status : ExitStatus}
    (hfile : l.logFile.file = none) (htarget : l.targetPath filePath = path)
    (h : Runs (Prog.catching (initLogFile filePath) fatal next) t)
    (hopened : ∀ t, Runs (next true) t → Keeps masterLogDir path params t)
    (hunopened : next false = .ret status) (hlogs : Logs l t records ops children) :
    Begun masterLogDir path params records ops children := by
  cases h with
  | stopped => exact .inl (logs_stopped hlogs).2
  | call answer h =>
    cases hlogs with
    | called hlogged hrest =>
      cases hlogged with
      | opened hclose =>
        rw [htarget] at hrest ⊢
        obtain rfl := moves_unopened hfile hclose
        exact .inr ⟨_, rfl, hopened _ h _ _ _ _ rfl rfl hrest⟩
      | unopened hclose =>
        have hret : Runs (next false) _ := h
        rw [hunopened] at hret
        obtain rfl := moves_unopened hfile hclose
        exact .inl (unopened_ret rfl hret hrest)

theorem begun_initLogger {version : Version} {options : CliOptions} {reader : INIReader}
    {next : Bool → Prog system ExitStatus} {status : ExitStatus}
    (h : Runs (Prog.catching (initLogger version options reader) fatal next) t)
    (hopened : ∀ t, Runs (next true) t → Keeps masterLogDir (masterPath version options reader) params t)
    (hunopened : next false = .ret status) (hlogs : Logs .new t records ops children) :
    Begun masterLogDir (masterPath version options reader) params records ops children := by
  rw [initLogger_eq] at h
  unfold masterPath at hopened ⊢
  by_cases hpath : options.logFilePath ≠ []
  · have htarget : ({ Logger.new with pendingLogFilePath := options.logFilePath } : Logger).targetPath
        (masterLogFile version reader) = options.logFilePath := if_pos hpath
    simp only [if_pos hpath] at h hopened ⊢
    rw [Prog.catching_bind] at h
    cases h with
    | stopped => exact .inl (logs_stopped hlogs).2
    | call answer h =>
      cases hlogs with
      | called hlogged hrest =>
        cases hlogged
        exact begun_initLogFile rfl htarget h hopened hunopened hrest
  · simp only [if_neg hpath] at h hopened ⊢
    exact begun_initLogFile rfl rfl h hopened hunopened hlogs

end begun

end

/-! ### The program -/

/-- The workers of an accepted configuration; a rejected one has none. -/
def workersOf (build : Build) (reader : INIReader) : List workerParams :=
  (Config.buildAllWorkerParams build reader).toOption.getD []

section
variable {build : Build} {version : Version} {options : CliOptions} {file : Option Str}
  {t : Tree system ExitStatus} {records : List Str} {ops : List (FileOp Str Char)}
  {children : List (Logger × List (FileOp Str Char))}

theorem workersOf_checked {reader : INIReader}
    (h : (reader.sections.foldl (checked build reader) ([], true)).2 = true) :
    (reader.sections.foldl (checked build reader) ([], true)).1 = workersOf build reader := by
  have hok : ∀ secName ∈ running reader, ∀ message,
      setupWorkerParams build reader secName ≠ .error message := by
    intro secName hrun message hsetup
    rw [rejected_params hrun hsetup] at h
    cases h
  obtain ⟨params, hparams⟩ := exists_params hok
  rw [accepted_params hparams, workersOf, buildAllWorkerParams_eq hparams]
  rfl

theorem reports_plain : Reports Plain := ⟨fun _ => trivial, fun _ => trivial⟩

theorem begun_run (h : Runs (main (run build version options file)) t)
    (hlogs : Logs .new t records ops children) :
    Begun (masterLogDir (INIReader.open file)) (masterPath version options (INIReader.open file))
      (workersOf build (INIReader.open file)) records ops children := by
  rw [run_eq] at h
  unfold main prepareToRun at h
  simp only [Prog.catching_bind] at h
  have hconfig : Safe (fun c : Call => ∃ text, c = .cerr text) _ (initConfig options (INIReader.open file)) :=
    safe_initConfig (fun text => ⟨text, rfl⟩) _ _
  obtain ⟨before, t, rfl, hbefore, rfl | ⟨thrown, h⟩ | ⟨read, -, h⟩⟩ := runs_catching_safe hconfig h
  · exact .inl (logs_stopped (logs_graft hbefore hlogs)).2
  · exact .inl (unopened_fatal rfl h (logs_graft hbefore hlogs))
  have hlogs := logs_graft hbefore hlogs
  cases read with
  | false => exact .inl (unopened_ret rfl h hlogs)
  | true =>
    simp only [if_true, Prog.catching_bind] at h
    refine begun_initLogger h (fun t h => ?_) rfl hlogs
    simp only [if_true, Prog.catching_bind] at h
    refine .of_plain (safe_logVersionInfo reports_plain version) h fun _ _ t h => ?_
    simp only [Prog.catching_pure, if_true, Prog.catching_bind] at h
    refine .of_plain (safe_buildAllWorkerParams reports_plain build _) h fun r hr t h => ?_
    obtain ⟨validParams, configOk⟩ := r
    cases configOk with
    | false => exact keeps_ret h
    | true =>
      have hworkers : validParams = workersOf build (INIReader.open file) := by
        rw [← workersOf_checked (by rw [← hr]), ← hr]
      have hpool : Runs (main (runPool build (masterLogDir (INIReader.open file)) validParams)) t := h
      rw [main_runPool] at hpool
      rw [← hworkers]
      exact keeps_runAll hpool

/-! ### What is in the log -/

/-- What a run makes of the log of the master at the path: the master writes nowhere else, every child
begins with a copy of its logger that has nothing to write and no path left over, and writes to the files
of its worker only. -/
structure LoggedOnce (masterLogDir path : Str) (params : List workerParams)
    (ops : List (FileOp Str Char)) (children : List (Logger × List (FileOp Str Char))) : Prop where
  own : ∀ op ∈ ops, op.path = path
  inherited : ∃ started, started <+: params ∧
    List.Forall₂ (Inherits masterLogDir path) started children
  others : ∀ child ∈ children, ∀ op ∈ child.2, op.path ≠ path

theorem own_of_moves {path text : Str} {s s' : OutStream Str Char} (hfile : s.file = some path)
    (h : Moves s text ops s') : ∀ op ∈ ops, op.path = path := by
  intro op hop
  obtain ⟨f, piece, hf, rfl, -⟩ := h.writes op hop
  exact Option.some.inj (hf.symm.trans hfile)

theorem others_of_inherits {masterLogDir path : Str} {params started : List workerParams}
    (hpath : ∀ p ∈ params, ¬ Opens masterLogDir p path) (hstarted : started <+: params)
    (h : List.Forall₂ (Inherits masterLogDir path) started children) :
    ∀ child ∈ children, ∀ op ∈ child.2, op.path ≠ path := by
  intro child hchild op hop heq
  obtain ⟨i, hi, rfl⟩ := List.getElem_of_mem hchild
  have hi' : i < started.length := h.length_eq ▸ hi
  have hopens := (h.get hi' hi).2 op hop
  rw [heq] at hopens
  exact hpath _ (hstarted.subset (List.getElem_mem hi')) hopens

/-- What the path holds at any time: what it held before, or a beginning of the records. -/
theorem Begun.contents {masterLogDir path : Str} {params : List workerParams}
    (h : Begun masterLogDir path params records ops children)
    (hothers : ∀ child ∈ children, ∀ op ∈ child.2, op.path ≠ path) (files : Str → Str)
    {es : List (Nat × FileOp Str Char)} (hes : Interleaved (ops :: children.map Prod.snd) es) :
    Output.contents files (es.map Prod.snd) path = files path ∨
      Output.contents files (es.map Prod.snd) path <+: records.flatten := by
  obtain ⟨done, hdone, hcontents⟩ := hes.contents (List.forall_mem_map.mpr hothers)
  rw [hcontents]
  rcases h with ⟨rfl, -⟩ | ⟨rest, rfl, ⟨s, hmoves⟩, -⟩
  · rw [List.prefix_nil.mp hdone]
    exact .inl rfl
  · cases done with
    | nil => exact .inl rfl
    | cons op done =>
      obtain ⟨rfl, hwrites⟩ := List.cons_prefix_cons.mp hdone
      obtain ⟨added, hadded, hfile⟩ : ∃ added, added <+: [] ++ records.flatten ∧
          Output.contents (FileOp.apply files (.trunc path)) done path =
            FileOp.apply files (.trunc path) path ++ added := hmoves.contents_prefix rfl hwrites
      have hempty : FileOp.apply files (.trunc path) path = [] := Function.update_self ..
      rw [hempty, List.nil_append] at hfile
      refine .inr ?_
      show Output.contents (FileOp.apply files (.trunc path)) done path <+: records.flatten
      rw [hfile]
      exact hadded

theorem Begun.loggedOnce {masterLogDir path : Str} {params : List workerParams}
    (h : Begun masterLogDir path params records ops children)
    (hpath : ∀ p ∈ params, ¬ Opens masterLogDir p path) :
    LoggedOnce masterLogDir path params ops children := by
  rcases h with ⟨rfl, rfl⟩ | ⟨rest, rfl, ⟨s, hmoves⟩, started, hstarted, hchildren⟩
  · exact ⟨by simp, ⟨[], List.nil_prefix, .nil⟩, by simp⟩
  · refine ⟨?_, ⟨started, hstarted, hchildren⟩, others_of_inherits hpath hstarted hchildren⟩
    exact List.forall_mem_cons.mpr ⟨rfl, own_of_moves rfl hmoves⟩

/-- **The log of the master.** No worker logs at its path. Then at any time, whatever the processes have
done in whatever order, it holds a beginning of the records of the master, in their order and each
once, and no child has written to it or holds a path of `-L`. This is so of the pool with any list of
workers and any logger that is open, and of the program, where the log is opened at the path of `-L`
if there is one. -/
theorem masterLog_once (build : Build) :
    (∀ masterLogDir path params l t records ops children, (∀ p ∈ params, ¬ Opens masterLogDir p path) →
      l.logFile.file = some path → l.pendingLogFilePath = [] →
      Runs (main (runPool build masterLogDir params)) t → Logs l t records ops children →
        LoggedOnce masterLogDir path params ops children ∧
        ∀ files es, Interleaved (ops :: children.map Prod.snd) es → ∃ text,
          text <+: l.logFile.buffer ++ records.flatten ∧
          contents files (es.map Prod.snd) path = files path ++ text) ∧
    ∀ version options file t records ops children,
      (∀ p ∈ workersOf build (INIReader.open file), ¬ Opens (masterLogDir (INIReader.open file)) p
        (masterPath version options (INIReader.open file))) →
      Runs (main (run build version options file)) t → Logs .new t records ops children →
        LoggedOnce (masterLogDir (INIReader.open file)) (masterPath version options (INIReader.open file))
          (workersOf build (INIReader.open file)) ops children ∧
        ∀ files es, Interleaved (ops :: children.map Prod.snd) es →
          contents files (es.map Prod.snd) (masterPath version options (INIReader.open file)) =
            files (masterPath version options (INIReader.open file)) ∨
          contents files (es.map Prod.snd) (masterPath version options (INIReader.open file)) <+:
            records.flatten := by
  constructor
  · intro masterLogDir path params l t records ops children hpath hfile hpending h hlogs
    rw [main_runPool] at h
    obtain ⟨⟨s, hmoves⟩, started, hstarted, hchildren⟩ :=
      keeps_runAll h l records ops children hfile hpending hlogs
    have hothers := others_of_inherits hpath hstarted hchildren
    refine ⟨⟨own_of_moves hfile hmoves, ⟨started, hstarted, hchildren⟩, hothers⟩, fun files es hes => ?_⟩
    obtain ⟨done, hdone, hcontents⟩ := hes.contents (List.forall_mem_map.mpr hothers)
    rw [hcontents]
    exact hmoves.contents_prefix hfile hdone
  · intro version options file t records ops children hpath h hlogs
    have hbegun := begun_run h hlogs
    have honce := hbegun.loggedOnce hpath
    exact ⟨honce, fun files es hes => hbegun.contents honce.others files hes⟩

/-- A run in which a worker is forked and opens its log. -/
theorem masterLog_once_forked :
    ∃ t ops children, Runs (main (runPool ⟨true, true⟩ "/tmp".toList [{ myName := "w".toList }])) t ∧
      Logs (.opened "m".toList) t [recordText ("-> Running worker for ".toList ++ "w".toList)] ops children ∧
      children.map Prod.snd = [[.trunc "/tmp/w_worker.log".toList]] ∧
      ∀ files es, Interleaved (ops :: children.map Prod.snd) es → ∃ text,
        text <+: recordText ("-> Running worker for ".toList ++ "w".toList) ∧
        contents files (es.map Prod.snd) "m".toList = files "m".toList ++ text := by
  let child : Tree system ExitStatus := .called (.initLogFile "/tmp/w_worker.log".toList) true .stopped
  let master : Tree system ExitStatus :=
    .called (.addRecordToLog ("-> Running worker for ".toList ++ "w".toList)) (Except.ok ())
      (.called .flushLog (Except.ok ()) (.forked 7 child .stopped))
  have hruns : Runs (main (runPool ⟨true, true⟩ "/tmp".toList [{ myName := "w".toList }])) master := by
    rw [main_runPool, runAll_cons]
    apply Runs.call
    apply Runs.call
    refine Runs.fork 7 ?_ (.stopped _)
    apply Runs.call
    exact .stopped _
  have hadd := moves_put "m".toList [] (recordText ("-> Running worker for ".toList ++ "w".toList))
  have hflush := moves_flush "m".toList
    (show recordText ("-> Running worker for ".toList ++ "w".toList) ≠ [] by decide) true
  have hchild : Logs (.opened "m".toList) child [] [.trunc "/tmp/w_worker.log".toList] [] :=
    .called (.opened (.done _)) (.stopped _)
  have hmaster : Logs (.opened "m".toList) master _ _ _ :=
    .called (.added hadd rfl) (.called (.flushed (Option.some_ne_none _) hflush rfl rfl) (.forked hchild (.stopped _)))
  refine ⟨master, _, _, hruns, hmaster, rfl, ?_⟩
  refine ((masterLog_once ⟨true, true⟩).1 _ "m".toList _ _ master _ _ _ ?_ rfl rfl hruns hmaster).2
  intro p hp hopens
  obtain rfl := List.mem_singleton.mp hp
  rcases hopens with hlog | hthread
  · exact absurd hlog (by decide)
  · obtain ⟨-, number, extension, hextension, -⟩ := path_of_threadsOpen hthread
    cases hextension

end

end PQuery.Process

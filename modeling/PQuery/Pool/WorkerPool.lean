import PQuery.Config.WorkerConfig

/-!
# The worker pool

`WorkerPool::runAll` forks one child for each section and then `waitForWorkers` polls them. What the
kernel answers is a list of replies, one for each call of `fork` or `waitpid`; with a reply come the
children that the kernel has reaped by itself since the call before (where `SIGCHLD` is ignored).
The pool keeps, besides the variables of the source, the history that its properties speak of: the
workers that were taken off the list with their wait status, the signals that were sent, and the
children that the process still has. Times are ticks of the steady clock, and a write to the master
log is taken to succeed.
-/

namespace PQuery.Pool

open Config

inductive eRETCODE
  | eDEFAULT
  | eMASTER
  | eCHILD
  | eERROR
deriving DecidableEq, Repr

inductive Signal
  | SIGTERM
  | SIGKILL
deriving DecidableEq, Repr

structure workerProc where
  pid : Nat
  name : Str
  has_timeout : Bool
  deadline : Nat
  term_sent : Bool
  kill_deadline : Nat
deriving DecidableEq, Repr

/-- `std::chrono::seconds`, in nanoseconds. -/
def seconds (n : Nat) : Nat := n * 10 ^ 9

def SIGTERM_GRACE : Nat := seconds 10

/-- A signal that was sent, and when. -/
structure Sent where
  pid : Nat
  signal : Signal
  time : Nat
deriving DecidableEq, Repr

/-- The list of workers, with the records of the master log and the history: `exits` are the workers
taken off the list with their wait status, `children` the children that the process still has. -/
structure WorkerPool where
  activeWorkers : List workerProc
  log : List Str
  exits : List (workerProc × Nat)
  signals : List Sent
  children : List Nat
deriving DecidableEq, Repr

def WorkerPool.initial : WorkerPool :=
  { activeWorkers := [], log := [], exits := [], signals := [], children := [] }

def WorkerPool.addRecordToLog (pool : WorkerPool) (message : Str) : WorkerPool :=
  { pool with log := pool.log ++ [message] }

/-- An answer of the kernel, with the children it has reaped by itself before. -/
structure Reply (α : Type) where
  gone : List Nat
  answer : α

def WorkerPool.forget (pool : WorkerPool) (gone : List Nat) : WorkerPool :=
  { pool with children := pool.children.filter (· ∉ gone) }

/-- What `fork` answers: an error with its text, the PID of the child with the time after it, or,
in the child, what becomes of its `executeTests`. -/
inductive ForkAnswer
  | error (strerror : Str)
  | parent (childPID : Nat) (now : Nat)
  | child (executed : Bool)

/-- What the parent stores about a child. -/
def forkedProc (Params : workerParams) (childPID now : Nat) : workerProc :=
  { pid := childPID
    name := Params.myName
    has_timeout := 0 < Params.timeout_secs
    deadline := if 0 < Params.timeout_secs then now + seconds Params.timeout_secs else 0
    term_sent := false
    kill_deadline := 0 }

/-- `spawnWorker` after its call of `fork`; what a child logs goes to its own file. -/
def spawnWorker (build : Build) (Params : workerParams) (pool : WorkerPool) :
    ForkAnswer → WorkerPool × eRETCODE
  | .error strerror =>
    (pool.addRecordToLog ("=> Cannot fork() child process: ".toList ++ strerror), .eERROR)
  | .parent childPID now =>
    let pool := pool.addRecordToLog ("-> Waiting for created worker ".toList ++ to_string childPID)
    ({ pool with
      activeWorkers := pool.activeWorkers ++ [forkedProc Params childPID now]
      children := pool.children ++ [childPID] }, .eMASTER)
  | .child executed =>
    (pool, match checkDbType build Params.dbtype with
      | .error _ => .eERROR
      | .ok _ => if executed then .eCHILD else .eERROR)

/-- The loop of `runAll` over the sections, with what it returns where it returns there. -/
def spawnAll (build : Build) :
    List (workerParams × Reply ForkAnswer) → WorkerPool → WorkerPool × Option Bool
  | [], pool => (pool, none)
  | (wParams, reply) :: rest, pool =>
    let pool := (pool.addRecordToLog ("-> Running worker for ".toList ++ wParams.myName)).forget
      reply.gone
    match spawnWorker build wParams pool reply.answer with
    | (pool, .eERROR) => (pool, some false)
    | (pool, .eCHILD) => (pool, some true)
    | (pool, _) => spawnAll build rest pool

/-- What `waitpid(-1, &status, WNOHANG)` answers; with 0 comes the time that is read then. -/
inductive WaitAnswer
  | exited (wPID : Nat) (status : Nat)
  | error
  | idle (now : Nat)
deriving DecidableEq, Repr

/-- The variables of `waitForWorkers`. -/
structure Waiting extends WorkerPool where
  retvalue : Bool
deriving DecidableEq, Repr

/-- Whether a worker has run out of its time and is to be terminated. -/
def expires (now : Nat) (proc : workerProc) : Bool :=
  proc.has_timeout && !proc.term_sent && decide (proc.deadline < now)

/-- Whether a worker is to be killed. -/
def outstays (now : Nat) (proc : workerProc) : Bool :=
  proc.term_sent && decide (proc.kill_deadline < now)

/-- The body of the loop over the workers. -/
def checkTimeout (now : Nat) (st : Waiting) (proc : workerProc) : Waiting :=
  let worker := "=> Worker ".toList ++ proc.name ++ " (PID ".toList ++ to_string proc.pid
  if expires now proc then
    { st with
      log := st.log ++ [worker ++ ") exceeded timeout, sending SIGTERM".toList]
      signals := st.signals ++ [⟨proc.pid, .SIGTERM, now⟩]
      activeWorkers := st.activeWorkers ++
        [{ proc with term_sent := true, kill_deadline := now + SIGTERM_GRACE }]
      retvalue := false }
  else if outstays now proc then
    { st with
      log := st.log ++ [worker ++ ") did not respond to SIGTERM, sending SIGKILL".toList]
      signals := st.signals ++ [⟨proc.pid, .SIGKILL, now⟩]
      activeWorkers := st.activeWorkers ++ [proc] }
  else { st with activeWorkers := st.activeWorkers ++ [proc] }

/-- One pass of the polling loop, after the answer of `waitpid`. -/
def poll (st : Waiting) : WaitAnswer → Waiting
  | .exited wPID status =>
    let st := { st with children := st.children.erase wPID }
    match st.activeWorkers.find? fun proc => proc.pid == wPID with
    | none => st
    | some proc =>
      { st with
        retvalue := st.retvalue && status == 0
        log := st.log ++ ["=> Exit status of child with PID ".toList ++ to_string wPID ++
          ": ".toList ++ to_string status]
        activeWorkers := st.activeWorkers.eraseP fun proc => proc.pid == wPID
        exits := st.exits ++ [(proc, status)] }
  | .error => st
  | .idle now => st.activeWorkers.foldl (checkTimeout now) { st with activeWorkers := [] }

theorem poll_exited (st : Waiting) (wPID status : Nat) :
    (st.activeWorkers.find? (fun proc => proc.pid == wPID) = none ∧
      poll st (.exited wPID status) = { st with children := st.children.erase wPID }) ∨
    ∃ proc, st.activeWorkers.find? (fun proc => proc.pid == wPID) = some proc ∧
      poll st (.exited wPID status) =
        { st with
          children := st.children.erase wPID
          retvalue := st.retvalue && status == 0
          log := st.log ++ ["=> Exit status of child with PID ".toList ++ to_string wPID ++
            ": ".toList ++ to_string status]
          activeWorkers := st.activeWorkers.eraseP fun proc => proc.pid == wPID
          exits := st.exits ++ [(proc, status)] } := by
  unfold poll
  cases hfind : st.activeWorkers.find? (fun proc => proc.pid == wPID) with
  | none => exact .inl ⟨rfl, by simp only [hfind]⟩
  | some proc => exact .inr ⟨proc, rfl, by simp only [hfind]⟩

/-- `waitForWorkers`, with the value it returns; there is none where the replies run out before. -/
def waitForWorkers : List (Reply WaitAnswer) → Waiting → Waiting × Option Bool
  | [], st => (st, if st.activeWorkers.isEmpty then some st.retvalue else none)
  | reply :: rest, st =>
    if st.activeWorkers.isEmpty then (st, some st.retvalue)
    else
      let st := { st with toWorkerPool := st.toWorkerPool.forget reply.gone }
      if reply.answer = .error then (st, some st.retvalue)
      else waitForWorkers rest (poll st reply.answer)

/-- What holds where the loop stops, with no worker listed or at a failing `waitpid`, and is kept by
every pass before, holds of all that the loop returns. -/
theorem waitForWorkers_induction
    {motive : List (Reply WaitAnswer) → Waiting → Waiting → Bool → Prop}
    (empty : ∀ replies st, st.activeWorkers = [] → motive replies st st st.retvalue)
    (error : ∀ reply rest (st : Waiting), st.activeWorkers ≠ [] → reply.answer = .error →
      motive (reply :: rest) st { st with toWorkerPool := st.toWorkerPool.forget reply.gone }
        st.retvalue)
    (pass : ∀ reply rest (st st' : Waiting) (verdict : Bool), st.activeWorkers ≠ [] →
      reply.answer ≠ .error →
      motive rest (poll { st with toWorkerPool := st.toWorkerPool.forget reply.gone } reply.answer)
        st' verdict →
      motive (reply :: rest) st st' verdict) :
    ∀ {replies : List (Reply WaitAnswer)} {st st' : Waiting} {verdict : Bool},
      waitForWorkers replies st = (st', some verdict) → motive replies st st' verdict := by
  intro replies
  induction replies with
  | nil =>
    intro st st' verdict hreturn
    unfold waitForWorkers at hreturn
    by_cases hempty : st.activeWorkers.isEmpty = true
    · rw [if_pos hempty] at hreturn
      cases hreturn
      exact empty _ _ (List.isEmpty_iff.mp hempty)
    · rw [if_neg hempty] at hreturn
      cases hreturn
  | cons reply replies ih =>
    intro st st' verdict hreturn
    unfold waitForWorkers at hreturn
    by_cases hempty : st.activeWorkers.isEmpty = true
    · rw [if_pos hempty] at hreturn
      cases hreturn
      exact empty _ _ (List.isEmpty_iff.mp hempty)
    · have hne : st.activeWorkers ≠ [] := fun hnil => hempty (List.isEmpty_iff.mpr hnil)
      rw [if_neg hempty] at hreturn
      by_cases herror : reply.answer = .error
      · rw [if_pos herror] at hreturn
        cases hreturn
        exact error _ _ _ hne herror
      · rw [if_neg herror] at hreturn
        exact pass _ _ _ _ _ hne herror (ih hreturn)

theorem waitForWorkers_invariant {motive : Waiting → Prop}
    (pass : ∀ st gone answer, motive st →
      motive (poll { st with toWorkerPool := st.toWorkerPool.forget gone } answer))
    (forget : ∀ st gone, motive st →
      motive { st with toWorkerPool := st.toWorkerPool.forget gone }) :
    ∀ (replies : List (Reply WaitAnswer)) {st : Waiting}, motive st →
      motive (waitForWorkers replies st).1 := by
  intro replies
  induction replies with
  | nil =>
    intro st h
    exact h
  | cons reply replies ih =>
    intro st h
    unfold waitForWorkers
    by_cases hempty : st.activeWorkers.isEmpty = true
    · rw [if_pos hempty]
      exact h
    · rw [if_neg hempty]
      by_cases herror : reply.answer = .error
      · rw [if_pos herror]
        exact forget st reply.gone h
      · rw [if_neg herror]
        exact ih (pass st reply.gone reply.answer h)

/-- The loop returns where it would have returned without the later replies, or goes on. -/
theorem waitForWorkers_append (first rest : List (Reply WaitAnswer)) (st : Waiting) :
    waitForWorkers (first ++ rest) st =
      match waitForWorkers first st with
      | (st', none) => waitForWorkers rest st'
      | returned => returned := by
  induction first generalizing st with
  | nil =>
    by_cases hempty : st.activeWorkers.isEmpty = true
    · cases rest with
      | nil => simp [waitForWorkers, hempty]
      | cons reply rest => simp [waitForWorkers, hempty]
    · simp [waitForWorkers, hempty]
  | cons reply first ih =>
    rw [List.cons_append, waitForWorkers, waitForWorkers]
    by_cases hempty : st.activeWorkers.isEmpty = true
    · rw [if_pos hempty, if_pos hempty]
    · rw [if_neg hempty, if_neg hempty]
      by_cases herror : reply.answer = .error
      · rw [if_pos herror, if_pos herror]
      · rw [if_neg herror, if_neg herror]
        exact ih _

/-- `waitForWorkers` at its start. -/
def WorkerPool.waiting (pool : WorkerPool) : Waiting := { pool with retvalue := true }

def runAll (build : Build) (forks : List (workerParams × Reply ForkAnswer))
    (waits : List (Reply WaitAnswer)) : Waiting × Option Bool :=
  match spawnAll build forks .initial with
  | (pool, none) => waitForWorkers waits pool.waiting
  | (pool, some result) => (pool.waiting, some result)

end PQuery.Pool

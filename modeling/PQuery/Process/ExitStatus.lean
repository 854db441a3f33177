import PQuery.Pool.Liveness
import PQuery.Process.Sections
import PQuery.Process.Start

/-!
# What the exit status says

The master exits in success exactly when the configuration was accepted, nothing that it called has
failed, no worker was sent a signal, and for each section that is to run, in order, a child has run it,
`executeTests` has returned `true` there, and the child has exited in success (`exit_success_iff`).
Of `waitpid` this needs that it does not fail while workers are listed, and that a wait status is 0
exactly where the child has exited in success (`Reaped`).
-/

namespace PQuery.Process

open Config Fork Pool

/-- The call has thrown. -/
def Threw : (Σ c, system.Answer c) → Prop
  | ⟨.flushLog, answer⟩ => ∃ thrown, answer = (.error thrown : Except Thrown Unit)
  | ⟨.addRecordToLog _, answer⟩ => ∃ thrown, answer = (.error thrown : Except Thrown Unit)
  | ⟨.executeTests _, answer⟩ => ∃ thrown, answer = (.error thrown : Except Thrown Bool)
  | ⟨.waitForWorkers activeWorkers, answer⟩ => ∃ thrown, answer = (.error thrown : Except Thrown
      { replies : List (Reply WaitAnswer) //
        (Pool.waitForWorkers replies (supervise activeWorkers)).2.isSome })
  | _ => False

/-- The call has thrown, or has not opened the log. -/
def Failed (e : Σ c, system.Answer c) : Prop :=
  Threw e ∨ ∃ filePath, e = ⟨.initLogFile filePath, false⟩

/-- The signals that the polling loop has sent. -/
def signalled : (Σ c, system.Answer c) → List Sent
  | ⟨.waitForWorkers activeWorkers, .ok replies⟩ =>
    (Pool.waitForWorkers replies.1 (supervise activeWorkers)).1.signals
  | _ => []

def signals (t : Tree system ExitStatus) : List Sent := t.calls.flatMap signalled

/-- How `waitpid` answers a process: it does not fail, and a wait status is 0 exactly where the child
with this PID has exited in success. -/
def Reaped (t : Tree system ExitStatus) : Prop :=
  ∀ activeWorkers replies, (⟨.waitForWorkers activeWorkers, .ok replies⟩ : Σ c, system.Answer c) ∈ t.calls →
    ∀ reply ∈ replies.1, reply.answer ≠ .error ∧ ∀ pid status child, reply.answer = .exited pid status →
      (pid, child) ∈ t.family → (status = 0 ↔ child.result = some .EXIT_SUCCESS)

/-- The child has run the section, `executeTests` has returned `true`, and it has exited in success. -/
def Succeeded (Params : workerParams) (child : Tree system ExitStatus) : Prop :=
  executed child = [(Params, .ok true)] ∧ child.result = some .EXIT_SUCCESS

section
variable {Params : workerParams} {params : List workerParams} {t : Tree system ExitStatus}
  {before : List (Σ c, system.Answer c)} {status : ExitStatus} {α β : Type}

/-! ### Pieces that throw where a call does -/

/-- The piece does not fork, and throws exactly where a call of it has thrown. -/
def Faithful (p : Action α) : Prop :=
  Yields (fun calls r => (∃ thrown, r = .error thrown) ↔ ∃ e ∈ calls, Threw e) p.run

theorem faithful_pure (a : α) : Faithful (pure a : Action α) := .ret (by simp)

theorem Faithful.bind {p : Action α} {f : α → Action β} (hp : Faithful p) (hf : ∀ a, Faithful (f a)) :
    Faithful (p >>= f) := by
  refine Yields.bind hp fun calls r hr => ?_
  cases r with
  | error thrown =>
    refine .ret (iff_of_true ⟨thrown, rfl⟩ ?_)
    rw [List.append_nil]
    exact hr.mp ⟨thrown, rfl⟩
  | ok a =>
    refine (hf a).imp fun later r' hr' => ?_
    have hcalls : ¬ ∃ e ∈ calls, Threw e := fun h => by
      obtain ⟨thrown, heq⟩ := hr.mpr h
      cases heq
    rw [hr']
    constructor
    · rintro ⟨e, he, hthrew⟩
      exact ⟨e, List.mem_append_right calls he, hthrew⟩
    · rintro ⟨e, he, hthrew⟩
      rcases List.mem_append.mp he with he | he
      · exact absurd ⟨e, he, hthrew⟩ hcalls
      · exact ⟨e, he, hthrew⟩

theorem faithful_lift {c : Call} (h : ∀ answer : Answer c, ¬ Threw ⟨c, answer⟩) :
    Faithful (ExceptT.lift (Prog.perform (I := system) c)) :=
  .call fun answer => .ret (by simpa using h answer)

theorem faithful_cerr (text : Str) : Faithful (cerr text) := faithful_lift fun _ h => h

theorem faithful_now : Faithful now := faithful_lift fun _ h => h

theorem exists_threw (e : Σ c, system.Answer c) : (∃ x ∈ [e], Threw x) ↔ Threw e := by simp

theorem faithful_addRecordToLog (message : Str) : Faithful (addRecordToLog message) :=
  .call fun answer => .ret (exists_threw ⟨.addRecordToLog message, answer⟩).symm

theorem faithful_flushLog : Faithful flushLog :=
  .call fun answer => .ret (exists_threw ⟨.flushLog, answer⟩).symm

theorem Faithful.forM {f : α → Action PUnit} (hf : ∀ x, Faithful (f x)) (xs : List α) :
    Faithful (xs.forM f) := by
  induction xs with
  | nil => exact faithful_pure _
  | cons x xs ih => exact (hf x).bind fun _ => ih

theorem Faithful.foldlM {f : β → α → Action β} (hf : ∀ b x, Faithful (f b x)) (xs : List α) (b : β) :
    Faithful (xs.foldlM f b) := by
  induction xs generalizing b with
  | nil => exact faithful_pure b
  | cons x xs ih =>
    rw [List.foldlM_cons]
    exact (hf b x).bind ih

/-- Every call but that of the polling loop. -/
def Silent : Call → Prop
  | .waitForWorkers _ => False
  | _ => True

theorem signals_graft (hbefore : ∀ e ∈ before, Silent e.1) : signals (.graft before t) = signals t := by
  have hnone : before.flatMap signalled = [] := by
    refine List.flatMap_eq_nil_iff.mpr fun e he => ?_
    obtain ⟨c, answer⟩ := e
    cases c with
    | waitForWorkers activeWorkers => exact (hbefore _ he).elim
    | _ => rfl
  unfold signals
  rw [Tree.calls_graft, List.flatMap_append, hnone, List.nil_append]

theorem status_of_fatal {thrown : Thrown} (h : Runs (fatal thrown) t) (hresult : t.result = some status) :
    status = .EXIT_FAILURE := by
  have hfailure := (runs_fatal h).2.2
  rw [hresult] at hfailure
  cases status with
  | EXIT_SUCCESS => exact absurd rfl hfailure
  | EXIT_FAILURE => rfl

theorem status_of_finish {result : Bool} (h : Runs (finish result) t) (hresult : t.result = some status) :
    t = .ended status ∧ (status = .EXIT_SUCCESS ↔ result = true) := by
  rcases runs_ret h with rfl | rfl
  · cases hresult
  · obtain rfl := Option.some.inj hresult
    refine ⟨rfl, ?_⟩
    cases result <;> simp

/-- A process at its end that begins with such a piece: a call of it has thrown, and the process has
failed, or it has gone on from there. -/
theorem runs_faithful {Q : List (Σ c, system.Answer c) → α → Prop} {p : Action α}
    {next : α → Prog system ExitStatus} (hp : Faithful p) (hgives : Gives Q p)
    (h : Runs (Prog.catching p fatal next) t) (hresult : t.result = some status) :
    ∃ calls t', t = .graft calls t' ∧ t'.result = some status ∧
      (status = .EXIT_FAILURE ∧ (∃ e ∈ calls, Threw e) ∨
        (∀ e ∈ calls, ¬ Threw e) ∧ ∃ a, Q calls a ∧ Runs (next a) t') := by
  obtain ⟨calls, r, t', rfl, ⟨hthrew, hQ⟩, h, hresult⟩ := runs_bind_yields (hp.and hgives) h hresult
  refine ⟨calls, t', rfl, hresult, ?_⟩
  cases r with
  | error thrown => exact .inl ⟨status_of_fatal h hresult, hthrew.mp ⟨thrown, rfl⟩⟩
  | ok a =>
    refine .inr ⟨fun e he he' => ?_, a, hQ a rfl, h⟩
    obtain ⟨thrown, heq⟩ := hthrew.mpr ⟨e, he, he'⟩
    cases heq

/-! ### The pool -/

/-- The calls of the master as it spawns the workers. -/
def Spawning : Call → Prop
  | .cerr _ => True
  | .flushLog => True
  | .addRecordToLog _ => True
  | .now => True
  | _ => False

theorem Spawning.silent {c : Call} (h : Spawning c) : Silent c := by
  cases c with
  | waitForWorkers activeWorkers => exact h
  | _ => trivial

theorem Spawning.not_failed {e : Σ c, system.Answer c} (h : Spawning e.1) (hthrew : ¬ Threw e) : ¬ Failed e := by
  rintro (hthrew' | ⟨filePath, rfl⟩)
  · exact hthrew hthrew'
  · exact h

/-- The process has failed before it came to wait for its workers. -/
def GaveUp (params : List workerParams) (t : Tree system ExitStatus) (status : ExitStatus) : Prop :=
  status = .EXIT_FAILURE ∧ ((∃ e ∈ t.calls, Failed e) ∨ t.children.length < params.length)

/-- The process has forked a child for each section, nothing has failed, and its exit status is the
verdict of the polling loop. -/
def Waited (activeWorkers : List workerProc) (params : List workerParams) (t : Tree system ExitStatus)
    (status : ExitStatus) : Prop :=
  (∀ e ∈ t.calls, ¬ Failed e) ∧ ∃ (forks : List (workerParams × Nat × Nat)) (workers : List workerProc)
    (replies : _), forks.map Prod.fst = params ∧ forks.map (fun fork => fork.2.1) = t.family.map Prod.fst ∧
    workers = activeWorkers ++ forkedProcs forks ∧
    (⟨.waitForWorkers workers, .ok replies⟩ : Σ c, system.Answer c) ∈ t.calls ∧
    signals t = (Pool.waitForWorkers replies.1 (supervise workers)).1.signals ∧
    (status = .EXIT_SUCCESS ↔ (Pool.waitForWorkers replies.1 (supervise workers)).2 = some true)

variable {build : Build} {masterLogDir : Str} {activeWorkers : List workerProc}

theorem GaveUp.graft (h : GaveUp params t status) : GaveUp params (.graft before t) status := by
  refine ⟨h.1, h.2.imp ?_ ?_⟩
  · rintro ⟨e, he, hfailed⟩
    refine ⟨e, ?_, hfailed⟩
    rw [Tree.calls_graft]
    exact List.mem_append_right before he
  · rw [Tree.children_graft]
    exact id

theorem GaveUp.forked {pid : Nat} {child : Tree system ExitStatus} (h : GaveUp params t status) :
    GaveUp (Params :: params) (.forked pid child t) status :=
  ⟨h.1, h.2.imp_right Nat.succ_lt_succ⟩

theorem gaveUp_of_threw (h : status = .EXIT_FAILURE ∧ ∃ e ∈ before, Threw e) :
    GaveUp params (.graft before t) status := by
  obtain ⟨hstatus, e, he, hthrew⟩ := h
  refine ⟨hstatus, .inl ⟨e, ?_, .inl hthrew⟩⟩
  rw [Tree.calls_graft]
  exact List.mem_append_left t.calls he

theorem Waited.graft (h : Waited activeWorkers params t status) (hbefore : ∀ e ∈ before, Spawning e.1)
    (hcalm : ∀ e ∈ before, ¬ Threw e) : Waited activeWorkers params (.graft before t) status := by
  obtain ⟨hfailed, forks, workers, replies, hparams, hpids, hworkers, hcall, hsignals, hstatus⟩ := h
  refine ⟨?_, forks, workers, replies, hparams, ?_, hworkers, ?_, ?_, hstatus⟩
  · rw [Tree.calls_graft]
    exact List.forall_mem_append.mpr ⟨fun e he => (hbefore e he).not_failed (hcalm e he), hfailed⟩
  · rwa [Tree.family_graft]
  · rw [Tree.calls_graft]
    exact List.mem_append_right before hcall
  · rwa [signals_graft fun e he => (hbefore e he).silent]

theorem waited_of_faithful {Q : α → Prop} {p : Action α} {next : α → Prog system ExitStatus}
    (hp : Faithful p) (hsafe : Safe Spawning Q p) (h : Runs (Prog.catching p fatal next) t)
    (hresult : t.result = some status)
    (hnext : ∀ a t, Q a → Runs (next a) t → t.result = some status →
      GaveUp params t status ∨ Waited activeWorkers params t status) :
    GaveUp params t status ∨ Waited activeWorkers params t status := by
  obtain ⟨calls, t, rfl, hresult, hthrew | ⟨hcalm, a, ⟨hcalls, ha⟩, h⟩⟩ :=
    runs_faithful hp hsafe.gives h hresult
  · exact .inl (gaveUp_of_threw hthrew)
  · exact (hnext a t ha h hresult).imp GaveUp.graft fun hwaited => hwaited.graft hcalls hcalm

theorem faithful_enlist (Params : workerParams) (childPID : Nat) (activeWorkers : List workerProc) :
    Faithful (enlist Params childPID activeWorkers) := by
  refine (faithful_addRecordToLog _).bind fun _ => Faithful.bind ?_ fun _ => faithful_pure _
  unfold startTime
  split_ifs
  · exact faithful_now
  · exact faithful_pure 0

theorem safe_enlist (Params : workerParams) (childPID : Nat) (activeWorkers : List workerProc) :
    Safe Spawning (fun spawned => ∃ now, spawned = (activeWorkers ++ [forkedProc Params childPID now], .eMASTER))
      (enlist Params childPID activeWorkers) := by
  refine (safe_addRecordToLog trivial).bind fun _ _ => ?_
  have hstart : Safe Spawning (fun _ => True) (startTime Params) := by
    unfold startTime
    split_ifs
    · exact safe_call (I := system) (c := .now) trivial
    · exact .pure trivial
  exact hstart.bind fun now _ => .pure ⟨now, rfl⟩

theorem waited_nil (h : Runs (Prog.catching (waitForWorkers activeWorkers) fatal finish) t)
    (hresult : t.result = some status) : GaveUp [] t status ∨ Waited activeWorkers [] t status := by
  cases h with
  | stopped => cases hresult
  | call answer h =>
    cases answer with
    | error thrown =>
      exact .inl ⟨status_of_fatal h hresult, .inl ⟨_, List.mem_cons_self, .inl ⟨thrown, rfl⟩⟩⟩
    | ok replies =>
      obtain ⟨rfl, hstatus⟩ := status_of_finish h hresult
      refine .inr ⟨?_, [], activeWorkers, replies, rfl, rfl, (List.append_nil _).symm, List.mem_cons_self,
        List.append_nil _, ?_⟩
      · refine List.forall_mem_singleton.mpr ?_
        rintro (⟨thrown, hthrown⟩ | ⟨filePath, hopened⟩)
        · cases hthrown
        · cases hopened
      · rw [hstatus, Option.eq_some_iff_get_eq]
        exact ⟨fun hverdict => ⟨replies.2, hverdict⟩, fun ⟨_, hverdict⟩ => hverdict⟩

/-- By induction over the sections: at each one the master fails, or forks a child that it will wait for. -/
theorem waited_of_runAll
    (h : Runs (Prog.catching (runAll build masterLogDir activeWorkers params) fatal finish) t)
    (hresult : t.result = some status) : GaveUp params t status ∨ Waited activeWorkers params t status := by
  induction params generalizing activeWorkers t with
  | nil => exact waited_nil h hresult
  | cons Params params ih =>
    rw [runAll_cons] at h
    refine waited_of_faithful (faithful_addRecordToLog _) (safe_addRecordToLog trivial) h hresult
      fun _ t _ h hresult => ?_
    have hflush : Safe Spawning (fun _ => True) flushLog := .call trivial fun _ => .ret fun _ _ => trivial
    refine waited_of_faithful faithful_flushLog hflush h hresult fun _ t _ h hresult => ?_
    cases h with
    | stopped => cases hresult
    | forkFailed strerror h =>
      obtain ⟨calls, t, rfl, hresult, hthrew | ⟨_, _, _, h⟩⟩ := runs_faithful
        (faithful_addRecordToLog _) (safe_addRecordToLog (P := Spawning) trivial).gives h hresult
      · exact .inl (gaveUp_of_threw hthrew)
      · obtain ⟨rfl, hstatus⟩ := status_of_finish h hresult
        refine .inl ⟨?_, .inr ?_⟩
        · cases status with
          | EXIT_SUCCESS => exact absurd (hstatus.mp rfl) (by decide)
          | EXIT_FAILURE => rfl
        · simp [Tree.children]
    | fork pid hchild h =>
      obtain ⟨calls, t, rfl, hresult, hthrew | ⟨hcalm, _, ⟨hcalls, now, rfl⟩, h⟩⟩ := runs_faithful
        (faithful_enlist Params pid activeWorkers) (safe_enlist Params pid activeWorkers).gives h hresult
      · exact .inl (gaveUp_of_threw hthrew).forked
      · rcases ih h hresult with hgaveUp | hwaited
        · exact .inl hgaveUp.graft.forked
        · obtain ⟨hfailed, forks, workers, replies, hparams, hpids, hworkers, hcall, hsignals, hstatus⟩ :=
            hwaited.graft hcalls hcalm
          refine .inr ⟨hfailed, (Params, pid, now) :: forks, workers, replies, ?_, ?_, ?_, hcall, hsignals,
            hstatus⟩
          · rw [List.map_cons, hparams]
          · rw [List.map_cons, hpids]
            rfl
          · rw [hworkers, List.append_assoc]
            rfl

/-! ### The verdict -/

theorem foldl_checkTimeout_exits (now : Nat) (procs : List workerProc) (st : Waiting) :
    (procs.foldl (checkTimeout now) st).exits = st.exits := by
  induction procs generalizing st with
  | nil => rfl
  | cons proc procs ih =>
    rw [List.foldl_cons, ih]
    unfold checkTimeout
    split_ifs <;> rfl

theorem exits_poll (st : Waiting) (answer : WaitAnswer) :
    ∀ e ∈ (poll st answer).exits, e ∈ st.exits ∨ answer = .exited e.1.pid e.2 := by
  intro e he
  cases answer with
  | error => exact .inl he
  | idle now =>
    unfold poll at he
    rw [foldl_checkTimeout_exits] at he
    exact .inl he
  | exited wPID status =>
    rcases poll_exited st wPID status with ⟨-, hpoll⟩ | ⟨proc, hfind, hpoll⟩
    · rw [hpoll] at he
      exact .inl he
    · rw [hpoll] at he
      rcases List.mem_append.mp he with he | he
      · exact .inl he
      · obtain rfl := List.mem_singleton.mp he
        have hpid : proc.pid = wPID := by simpa using List.find?_some hfind
        exact .inr (congrArg (WaitAnswer.exited · status) hpid.symm)

theorem flag_of_returned {workers : List workerProc} {replies : List (Reply WaitAnswer)} {st st' : Waiting}
    {verdict : Bool} (h : Consistent workers st.activeWorkers st)
    (hreturn : Pool.waitForWorkers replies st = (st', some verdict)) :
    verdict = st'.retvalue ∧ Consistent workers st'.activeWorkers st' ∧ ∀ e ∈ st'.exits,
      e ∈ st.exits ∨ ∃ reply ∈ replies, reply.answer = .exited e.1.pid e.2 := by
  refine waitForWorkers_induction (motive := fun replies st st' verdict =>
    Consistent workers st.activeWorkers st → verdict = st'.retvalue ∧
      Consistent workers st'.activeWorkers st' ∧ ∀ e ∈ st'.exits,
        e ∈ st.exits ∨ ∃ reply ∈ replies, reply.answer = .exited e.1.pid e.2) ?empty ?error ?pass hreturn h
  case empty => exact fun _ _ _ h => ⟨rfl, h, fun _ he => .inl he⟩
  case error => exact fun _ _ _ _ _ h => ⟨rfl, ⟨h.1, h.2, h.3⟩, fun _ he => .inl he⟩
  case pass =>
    intro reply rest st st' verdict _ _ ih h
    let forgotten : Waiting := { st with toWorkerPool := st.toWorkerPool.forget reply.gone }
    have hforgotten : Consistent workers forgotten.activeWorkers forgotten := ⟨h.1, h.2, h.3⟩
    obtain ⟨hflag, hconsistent, hexits⟩ := ih (hforgotten.poll reply.answer)
    refine ⟨hflag, hconsistent, fun e he => ?_⟩
    rcases hexits e he with he | ⟨later, hlater, hexited⟩
    · exact (exits_poll forgotten reply.answer e he).imp_right fun hexited =>
        ⟨reply, List.mem_cons_self, hexited⟩
    · exact .inr ⟨later, List.mem_cons_of_mem reply hlater, hexited⟩

theorem verdict_of_reaped {forks : List (workerParams × Nat × Nat)} {replies : List (Reply WaitAnswer)}
    {family : List (Nat × Tree system ExitStatus)}
    (hpids : forks.map (fun fork => fork.2.1) = family.map Prod.fst)
    (hreturn : (Pool.waitForWorkers replies (supervise (forkedProcs forks))).2.isSome)
    (hreplies : ∀ reply ∈ replies, reply.answer ≠ .error ∧ ∀ pid status child,
      reply.answer = .exited pid status → (pid, child) ∈ family →
        (status = 0 ↔ child.result = some .EXIT_SUCCESS)) :
    (Pool.waitForWorkers replies (supervise (forkedProcs forks))).2 = some true ↔
      (Pool.waitForWorkers replies (supervise (forkedProcs forks))).1.signals = [] ∧
        ∀ child ∈ family, child.2.result = some .EXIT_SUCCESS := by
  obtain ⟨verdict, hverdict⟩ := Option.isSome_iff_exists.mp hreturn
  have hempty := nil_of_returned hverdict fun reply hreply => (hreplies reply hreply).1
  obtain ⟨rfl, hconsistent, hexits⟩ := flag_of_returned (consistent_supervise forks) (Prod.ext rfl hverdict)
  rw [hverdict, Option.some.injEq, hconsistent.verdict, and_comm]
  refine and_congr_right fun _ => ?_
  have hpids' := hconsistent.accounted
  rw [hempty, List.map_nil, List.append_nil, pid_forkedProcs, hpids] at hpids'
  -- the exit that was reaped of a child has the status that its own process says
  have hstatus : ∀ e ∈ (Pool.waitForWorkers replies (supervise (forkedProcs forks))).1.exits, ∀ child,
      (e.1.pid, child) ∈ family → (e.2 = 0 ↔ child.result = some .EXIT_SUCCESS) := by
    intro e he child hchild
    obtain he' | ⟨reply, hreply, hanswer⟩ := hexits e he
    · cases he'
    · exact (hreplies reply hreply).2 _ _ child hanswer hchild
  constructor
  · intro hall child hchild
    obtain ⟨e, he, hpid⟩ := List.mem_map.mp (hpids'.mem_iff.mpr (List.mem_map_of_mem hchild))
    exact (hstatus e he child.2 (by rwa [hpid])).mp (hall e he)
  · intro hall e he
    obtain ⟨child, hchild, hpid⟩ := List.mem_map.mp (hpids'.mem_iff.mp (List.mem_map_of_mem he))
    refine (hstatus e he child.2 ?_).mpr (hall child hchild)
    rwa [← hpid]

theorem succeeded_iff {children : List (Tree system ExitStatus)} (h : List.Forall₂ Child params children) :
    List.Forall₂ Succeeded params children ↔ ∀ child ∈ children, child.result = some .EXIT_SUCCESS := by
  induction h with
  | nil => simp
  | cons hchild _ ih =>
    rw [List.forall₂_cons, ih, List.forall_mem_cons]
    refine and_congr_left fun _ => ⟨And.right, fun hresult => ⟨?_, hresult⟩⟩
    exact (hchild.status _ hresult).mp rfl

theorem success_of_runPool (h : Runs (main (runPool build masterLogDir params)) t) (hreaped : Reaped t)
    (hresult : t.result = some status) :
    status = .EXIT_SUCCESS ↔
      (∀ e ∈ t.calls, ¬ Failed e) ∧ signals t = [] ∧ List.Forall₂ Succeeded params t.children := by
  rw [main_runPool] at h
  rcases waited_of_runAll h hresult with ⟨rfl, hwhy⟩ | ⟨hfailed, forks, workers, replies, rfl, hpids,
    hworkers, hcall, hsignals, hstatus⟩
  · refine iff_of_false (by decide) ?_
    rintro ⟨hcalm, -, hchildren⟩
    rcases hwhy with ⟨e, he, hfailed⟩ | hlength
    · exact hcalm e he hfailed
    · rw [hchildren.length_eq] at hlength
      omega
  · obtain ⟨-, started, hstarted, hworks⟩ := runs_runAll h
    have hlength : started.length = (forks.map Prod.fst).length := by
      have hfamily := congrArg List.length hpids
      have hchildren := congrArg List.length (Tree.map_snd_family t)
      rw [List.length_map] at hfamily hchildren
      rw [hworks.length_eq, ← hchildren, List.length_map]
      simpa using hfamily.symm
    obtain rfl := hstarted.eq_of_length hlength
    rw [List.nil_append] at hworkers
    subst hworkers
    have hanswers := hreaped _ replies hcall
    rw [hstatus, verdict_of_reaped hpids replies.2 hanswers, hsignals, and_iff_right hfailed,
      succeeded_iff (hworks.imp fun _ _ hworks => hworks.child), ← Tree.map_snd_family, List.forall_mem_map]

/-! ### The start -/

theorem faithful_setLogFilePath (filePath : Str) : Faithful (setLogFilePath filePath) := faithful_lift fun _ h => h

theorem faithful_initLogFile (filePath : Str) : Faithful (initLogFile filePath) := faithful_lift fun _ h => h

theorem faithful_prepareToRun (version : Version) (options : CliOptions) (reader : INIReader) :
    Faithful (prepareToRun version options reader) := by
  have hconfig : Faithful (initConfig options reader) := by
    unfold initConfig
    dsimp only
    split_ifs
    · exact (faithful_cerr _).bind fun _ => faithful_pure _
    · exact (faithful_cerr _).bind fun _ => (faithful_cerr _).bind fun _ => (faithful_cerr _).bind fun _ =>
        faithful_pure _
    · exact faithful_pure _
  have hlogger : Faithful (initLogger version options reader) := by
    unfold initLogger
    split_ifs
    · exact (faithful_setLogFilePath _).bind fun _ => faithful_initLogFile _
    · exact faithful_initLogFile _
  refine hconfig.bind fun read => ?_
  split_ifs
  · refine hlogger.bind fun opened => ?_
    split_ifs
    · exact (Faithful.forM faithful_addRecordToLog _).bind fun _ => faithful_pure _
    · exact faithful_pure _
  · exact faithful_pure _

theorem safe_initConfig_iff (options : CliOptions) (reader : INIReader) :
    Safe Spawning (fun read => read = true ↔ reader.error = 0) (initConfig options reader) := by
  have hcerr : ∀ text, Safe Spawning (fun _ => True) (cerr text) := fun _ => safe_cerr trivial
  unfold initConfig
  dsimp only
  split_ifs
  · exact (hcerr _).bind fun _ _ => .pure (iff_of_false (by decide) (by omega))
  · exact (hcerr _).bind fun _ _ => (hcerr _).bind fun _ _ => (hcerr _).bind fun _ _ =>
      .pure (iff_of_false (by decide) (by omega))
  · exact .pure (iff_of_true rfl (by omega))

/-- None of the calls has failed to open a log. -/
def Opening (calls : List (Σ c, system.Answer c)) : Prop :=
  ∀ filePath, (⟨.initLogFile filePath, false⟩ : Σ c, system.Answer c) ∉ calls

theorem opening_append {calls later : List (Σ c, system.Answer c)} :
    Opening (calls ++ later) ↔ Opening calls ∧ Opening later := by
  simp only [Opening, List.mem_append, not_or, forall_and]

theorem opening_of_spawning {calls : List (Σ c, system.Answer c)} (h : ∀ e ∈ calls, Spawning e.1) :
    Opening calls := fun _ hmem => h _ hmem

theorem gives_initLogger (version : Version) (options : CliOptions) (reader : INIReader) :
    Gives (fun calls opened => opened = true ↔ Opening calls) (initLogger version options reader) := by
  have hopen : ∀ filePath, Gives (fun calls opened => opened = true ↔ Opening calls) (initLogFile filePath) := by
    refine fun filePath => .call fun answer => .ret fun opened hopened => ?_
    obtain rfl := Except.ok.inj hopened
    cases answer with
    | false => exact iff_of_false (by decide) fun h => h filePath List.mem_cons_self
    | true => exact iff_of_true rfl fun path hmem => by cases List.mem_singleton.mp hmem
  unfold initLogger
  split_ifs
  · have hset : Gives (fun calls _ => Opening calls) (setLogFilePath options.logFilePath) :=
      .call fun _ => .ret fun _ _ path hmem => by cases List.mem_singleton.mp hmem
    refine hset.bind fun calls _ hcalls => (hopen _).imp fun later r hr opened hopened => ?_
    have hlater : opened = true ↔ Opening later := hr opened hopened
    show opened = true ↔ Opening (calls ++ later)
    rw [hlater, opening_append, and_iff_right hcalls]
  · exact hopen _

theorem gives_prepareToRun (version : Version) (options : CliOptions) (reader : INIReader) :
    Gives (fun calls ready => ready = true ↔ reader.error = 0 ∧ Opening calls)
      (prepareToRun version options reader) := by
  refine (safe_initConfig_iff options reader).gives.bind fun calls read hread => ?_
  obtain ⟨hcalls, hread⟩ := hread
  cases read with
  | false =>
    refine .pure (iff_of_false (by decide) ?_)
    exact fun h => absurd (hread.mpr h.1) (by decide)
  | true =>
    refine (gives_initLogger version options reader).bind fun later opened hopened => ?_
    cases opened with
    | false =>
      refine .pure (iff_of_false (by decide) fun h => ?_)
      rw [List.append_nil, opening_append] at h
      exact absurd (hopened.mpr h.2.2) (by decide)
    | true =>
      have hrecord : Reports Spawning := ⟨fun _ => trivial, fun _ => trivial⟩
      refine (safe_logVersionInfo hrecord version).gives.bind fun last _ hlast => .pure ?_
      rw [List.append_nil, opening_append, opening_append]
      exact iff_of_true rfl ⟨hread.mp rfl, opening_of_spawning hcalls, hopened.mp rfl, opening_of_spawning hlast.1⟩

theorem faithful_buildAllWorkerParams (build : Build) (reader : INIReader) :
    Faithful (buildAllWorkerParams build reader) := by
  have hsection : ∀ r secName, Faithful (checkSection build reader r secName) := by
    intro r secName
    unfold checkSection
    split_ifs
    · exact faithful_pure _
    · refine (faithful_addRecordToLog _).bind fun _ => ?_
      split
      · exact ((faithful_addRecordToLog _).bind fun _ => faithful_cerr _).bind fun _ => faithful_pure _
      · exact faithful_pure _
    · exact (faithful_addRecordToLog _).bind fun _ => faithful_pure _
  refine (Faithful.foldlM hsection _ _).bind fun r => ?_
  obtain ⟨out, configOk⟩ := r
  cases configOk with
  | true => exact faithful_pure _
  | false => exact (faithful_addRecordToLog _).bind fun _ => (faithful_cerr _).bind fun _ => faithful_pure _

theorem checked_params {reader : INIReader} {out : List workerParams}
    (h : reader.sections.foldl (checked build reader) ([], true) = (out, true)) :
    List.Forall₂ (fun secName Params => setupWorkerParams build reader secName = .ok Params)
      (running reader) out := by
  have hok : ∀ secName ∈ running reader, ∀ message, setupWorkerParams build reader secName ≠ .error message := by
    intro secName hrun message hsetup
    have hrejected := rejected_params hrun hsetup
    rw [h] at hrejected
    cases hrejected
  obtain ⟨params, hparams⟩ := exists_params hok
  obtain rfl : params = out := congrArg Prod.fst ((accepted_params hparams).symm.trans h)
  exact hparams

/-- What the exit status is to say of a process, as it stands in `exit_success_iff`. -/
def AllRan (build : Build) (reader : INIReader) (t : Tree system ExitStatus) : Prop :=
  (∀ e ∈ t.calls, ¬ Failed e) ∧ signals t = [] ∧ ∃ params, List.Forall₂
    (fun secName Params => setupWorkerParams build reader secName = .ok Params) (running reader) params ∧
    List.Forall₂ Succeeded params t.children

theorem AllRan.calm {reader : INIReader} (h : AllRan build reader (.graft before t)) :
    ∀ e ∈ before, ¬ Failed e := by
  intro e he
  refine h.1 e ?_
  rw [Tree.calls_graft]
  exact List.mem_append_left t.calls he

theorem allRan_graft {reader : INIReader} (hbefore : ∀ e ∈ before, Silent e.1)
    (hcalm : ∀ e ∈ before, ¬ Failed e) : AllRan build reader (.graft before t) ↔ AllRan build reader t := by
  unfold AllRan
  rw [Tree.calls_graft, signals_graft hbefore, Tree.children_graft, List.forall_mem_append, and_iff_right hcalm]

theorem Reaped.of_graft (h : Reaped (.graft before t)) : Reaped t := by
  intro activeWorkers replies hcall
  have hanswers := h activeWorkers replies (by
    rw [Tree.calls_graft]
    exact List.mem_append_right before hcall)
  rwa [Tree.family_graft] at hanswers

theorem Starting.silent {c : Call} (h : Starting c) : Silent c := by
  cases c with
  | waitForWorkers activeWorkers => exact h
  | _ => trivial

theorem Starting.not_failed {calls : List (Σ c, system.Answer c)} (hthrew : ∀ e ∈ calls, ¬ Threw e)
    (hopening : Opening calls) : ∀ e ∈ calls, ¬ Failed e := by
  rintro e he (hthrew' | ⟨filePath, rfl⟩)
  · exact hthrew e he hthrew'
  · exact hopening filePath he

theorem success_of_build {reader : INIReader} {next : List workerParams × Bool → Prog system ExitStatus}
    (hrejected : ∀ out, next (out, false) = .ret .EXIT_FAILURE)
    (haccepted : ∀ out, next (out, true) = main (runPool build masterLogDir out))
    (h : Runs (Prog.catching (buildAllWorkerParams build reader) fatal next) t) (hreaped : Reaped t)
    (hresult : t.result = some status) : status = .EXIT_SUCCESS ↔ AllRan build reader t := by
  obtain ⟨calls, t, rfl, hresult, ⟨rfl, e, he, hthrew⟩ | ⟨hthrew, r, ⟨hcalls, rfl⟩, h⟩⟩ :=
    runs_faithful (faithful_buildAllWorkerParams build reader)
      (safe_buildAllWorkerParams (P := Spawning) ⟨fun _ => trivial, fun _ => trivial⟩ build reader).gives h hresult
  · exact iff_of_false (by decide) fun hran => hran.calm e he (.inl hthrew)
  have hcalm : ∀ e ∈ calls, ¬ Failed e := fun e he => (hcalls e he).not_failed (hthrew e he)
  rw [allRan_graft (fun e he => (hcalls e he).silent) hcalm]
  rcases hr : reader.sections.foldl (checked build reader) ([], true) with ⟨out, configOk⟩
  rw [hr] at h
  cases configOk with
  | false =>
    rw [hrejected] at h
    rcases runs_ret h with rfl | rfl
    · cases hresult
    · obtain rfl := Option.some.inj hresult
      refine iff_of_false (by decide) ?_
      rintro ⟨-, -, params, hparams, -⟩
      cases (accepted_params hparams).symm.trans hr
  | true =>
    rw [haccepted] at h
    rw [success_of_runPool h hreaped.of_graft hresult, AllRan]
    refine and_congr_right fun _ => and_congr_right fun _ => ⟨fun hran => ⟨out, checked_params hr, hran⟩, ?_⟩
    rintro ⟨params, hparams, hran⟩
    obtain rfl : params = out := congrArg Prod.fst ((accepted_params hparams).symm.trans hr)
    exact hran

/-- The exit status of a master. -/
theorem success_of_run {version : Version} {options : CliOptions} {file : Option Str}
    (h : Runs (main (run build version options file)) t) (hreaped : Reaped t)
    (hresult : t.result = some status) :
    status = .EXIT_SUCCESS ↔ (INIReader.open file).error = 0 ∧ AllRan build (INIReader.open file) t := by
  unfold main run at h
  rw [Prog.catching_bind] at h
  obtain ⟨calls, t, rfl, hresult, ⟨rfl, e, he, hthrew⟩ | ⟨hthrew, ready, ⟨hready, hcalls, -⟩, h⟩⟩ :=
    runs_faithful (faithful_prepareToRun version options _)
      ((gives_prepareToRun version options _).and (safe_prepareToRun version options _).gives) h hresult
  · exact iff_of_false (by decide) fun hran => hran.2.calm e he (.inl hthrew)
  cases ready with
  | false =>
    rcases runs_ret h with rfl | rfl
    · cases hresult
    · obtain rfl := Option.some.inj hresult
      refine iff_of_false (by decide) fun hran => absurd (hready.mpr ⟨hran.1, fun filePath hmem => ?_⟩) (by decide)
      exact hran.2.calm _ hmem (.inr ⟨filePath, rfl⟩)
  | true =>
    obtain ⟨herror, hopening⟩ := hready.mp rfl
    simp only [if_true] at h
    rw [Prog.catching_bind] at h
    rw [and_iff_right herror, allRan_graft (fun e he => (hcalls e he).silent) (Starting.not_failed hthrew hopening)]
    exact success_of_build (fun _ => rfl) (fun _ => rfl) h hreaped.of_graft hresult

end

/-- **What the exit status says.** Let `waitpid` tell the truth of the children. The master exits in
success if and only if the configuration file was read without an error, nothing it called has failed, no
signal was sent, every section that is to run is accepted, and the children are as many as these sections
and have each run the one at their place with success. -/
theorem exit_success_iff (build : Build) (version : Version) (options : CliOptions) (file : Option Str)
    (t : Tree system ExitStatus) (status : ExitStatus)
    (h : Runs (main (run build version options file)) t) (hreaped : Reaped t)
    (hresult : t.result = some status) :
    status = .EXIT_SUCCESS ↔ (INIReader.open file).error = 0 ∧ (∀ e ∈ t.calls, ¬ Failed e) ∧
      signals t = [] ∧ ∃ params, List.Forall₂
        (fun secName Params => setupWorkerParams build (INIReader.open file) secName = .ok Params)
        (running (INIReader.open file)) params ∧ List.Forall₂ Succeeded params t.children :=
  success_of_run h hreaped hresult

/-- A file with one section, which is to run with the defaults. -/
def oneWorker : Str := "[w]\nrun = yes\n".toList

theorem runs_oneWorker : ∃ p t child,
    setupWorkerParams ⟨true, true⟩ (INIReader.open (some oneWorker)) "w".toList = .ok p ∧
      Runs (main (run ⟨true, true⟩ ⟨[], []⟩ ⟨[], []⟩ (some oneWorker))) t ∧ Reaped t ∧
      t.result = some .EXIT_SUCCESS ∧ t.children = [child] ∧ executed child = [(p, .ok true)] := by
  obtain ⟨reader, hreader⟩ : ∃ reader, INIReader.open (some oneWorker) = reader := ⟨_, rfl⟩
  obtain ⟨herror, hsections, hrun, hsetup⟩ : reader.error = 0 ∧ reader.sections = ["w".toList] ∧
      reader.GetBoolean "w".toList "run".toList false = true ∧
      (setupWorkerParams ⟨true, true⟩ reader "w".toList).toOption.map
        (fun p => (p.dbtype, p.verbose, p.timeout_secs)) = some (.eMYSQL, false, 0) := by
    rw [← hreader]
    decide +kernel
  obtain ⟨p, hp, hdbtype, hverbose, htimeout⟩ : ∃ p, setupWorkerParams ⟨true, true⟩ reader "w".toList = .ok p ∧
      p.dbtype = .eMYSQL ∧ p.verbose = false ∧ p.timeout_secs = 0 := by
    cases hs : setupWorkerParams ⟨true, true⟩ reader "w".toList with
    | error e =>
      rw [hs] at hsetup
      cases hsetup
    | ok p =>
      rw [hs] at hsetup
      exact ⟨p, rfl, by simpa using Option.some.inj hsetup⟩
  let logged : Except Thrown Unit := .ok ()
  let logdir : Str := reader.Get "master".toList "logdir".toList "/tmp".toList
  let log : Str := logdir ++ '/' ::
    reader.Get "master".toList "logfile".toList ("pquery".toList ++ [] ++ "-master.log".toList)
  let opened : List (Σ c, system.Answer c) := [⟨.initLogFile log, true⟩]
  let checking : List (Σ c, system.Answer c) :=
    [⟨.addRecordToLog ("-> Checking ".toList ++ "w".toList ++ " params...".toList), logged⟩]
  have hprepare : Runs (prepareToRun ⟨[], []⟩ ⟨[], []⟩ reader).run (.graft opened (.ended (.ok true))) := by
    have hconfig : initConfig ⟨[], []⟩ reader = pure true := by
      unfold initConfig
      dsimp only
      rw [herror]
      rfl
    unfold prepareToRun
    rw [hconfig]
    apply Runs.call
    apply Runs.ret
  have hbuild : Runs (buildAllWorkerParams ⟨true, true⟩ reader).run
      (.graft checking (.ended (.ok ([p], true)))) := by
    have hsection : checkSection ⟨true, true⟩ reader ([], true) "w".toList = (do
        addRecordToLog ("-> Checking ".toList ++ "w".toList ++ " params...".toList)
        return ([p], true)) := by
      unfold checkSection
      rw [if_neg (by decide), hrun, hp]
      rfl
    unfold buildAllWorkerParams
    rw [hsections, List.foldlM_cons, hsection]
    apply Runs.call
    apply Runs.ret
  let child : Tree system ExitStatus := .called (.initLogFile (logdir ++ '/' :: p.myName ++ "_worker.log".toList)) true
    (.called (.executeTests p) (.ok true : Except Thrown Bool) (.ended .EXIT_SUCCESS))
  let waited : Tree system ExitStatus := .called (.waitForWorkers [forkedProc p 7 0])
    (.ok ⟨[⟨[], .exited 7 0⟩], by rfl⟩ : Except Thrown _) (.ended .EXIT_SUCCESS)
  let pool : Tree system ExitStatus :=
    .called (.addRecordToLog ("-> Running worker for ".toList ++ p.myName)) logged
      (.called .flushLog logged (.forked 7 child
        (.called (.addRecordToLog ("-> Waiting for created worker ".toList ++ to_string (7 : Nat))) logged
          waited)))
  have hpool : Runs (main (runPool ⟨true, true⟩ logdir [p])) pool := by
    have hstart : startTime p = pure 0 := by rw [startTime, if_neg (by omega)]
    rw [main_runPool, runAll_cons]
    apply Runs.call
    apply Runs.call
    apply Runs.fork
    · unfold branch work enterChild
      rw [hverbose, hdbtype]
      apply Runs.call
      apply Runs.call
      apply Runs.ret
    · unfold branch enlist
      rw [hstart]
      apply Runs.call
      apply Runs.call
      apply Runs.ret
  have hruns : Runs (main (run ⟨true, true⟩ ⟨[], []⟩ ⟨[], []⟩ (some oneWorker)))
      (.graft opened (.graft checking pool)) := by
    unfold main run
    rw [Prog.catching_bind, hreader]
    refine Runs.bind hprepare ?_
    simp only [if_true]
    rw [Prog.catching_bind]
    exact Runs.bind hbuild hpool
  have hreaped : Reaped (.graft opened (.graft checking pool)) := by
    intro activeWorkers replies hcall
    -- only the last of the calls is that of the polling loop
    simp only [opened, checking, pool, waited, Tree.graft, Tree.calls, List.mem_cons, List.not_mem_nil,
      or_false] at hcall
    rcases hcall with h | h | h | h | h | h
    any_goals cases h
    intro reply hreply
    obtain rfl := List.mem_singleton.mp hreply
    refine ⟨by simp, fun pid status child' hanswer hchild => ?_⟩
    obtain ⟨rfl, rfl⟩ := WaitAnswer.exited.inj hanswer
    obtain rfl : child' = child := by
      simpa [Tree.graft, Tree.family, opened, checking, pool, waited] using hchild
    exact iff_of_true rfl rfl
  exact ⟨p, _, child, hreader ▸ hp, hruns, hreaped, rfl, rfl, rfl⟩

theorem exit_success_iff_one : ∃ t, Runs (main (run ⟨true, true⟩ ⟨[], []⟩ ⟨[], []⟩ (some oneWorker))) t ∧
    ∃ Params, List.Forall₂ Succeeded [Params] t.children := by
  obtain ⟨p, t, child, -, hruns, hreaped, hresult, hchildren, -⟩ := runs_oneWorker
  obtain ⟨-, -, -, params, hparams, hsucceeded⟩ := (exit_success_iff _ _ _ _ _ _ hruns hreaped hresult).mp rfl
  have hone : params.length = 1 := hsucceeded.length_eq.trans (congrArg List.length hchildren)
  obtain ⟨Params, rfl⟩ := List.length_eq_one_iff.mp hone
  exact ⟨t, hruns, Params, hsucceeded⟩

end PQuery.Process

import PQuery.Process.Program

/-!
# Who runs which section

Each process of the tree that `runAll` makes is the master or one of its children: a child goes
through `work` and then, whatever comes of it, to the end of `main`. So every section is run by at
most one process, the children stand in the order of the list, and the exit status of a child says
what its own `executeTests` has returned.
-/

namespace PQuery.Process

open Config Fork Pool

/-- The section that a call runs, with what comes of it. -/
def execution : (Σ c, system.Answer c) → Option (workerParams × Except Thrown Bool)
  | ⟨.executeTests Params, outcome⟩ => some (Params, outcome)
  | _ => none

/-- The sections that a process has run. -/
def executed (t : Tree system ExitStatus) : List (workerParams × Except Thrown Bool) :=
  t.calls.filterMap execution

/-- A process of the tree that is to run a section. -/
structure Child (Params : workerParams) (child : Tree system ExitStatus) : Prop where
  childless : child.children = []
  once : executed child = [] ∨ ∃ outcome, executed child = [(Params, outcome)]
  status : ∀ status, child.result = some status →
    (status = .EXIT_SUCCESS ↔ executed child = [(Params, .ok true)])

/-- A process that is to run none, and whose children run the first of these sections in turn. -/
def Master (params : List workerParams) (t : Tree system ExitStatus) : Prop :=
  executed t = [] ∧ ∃ started, started <+: params ∧ List.Forall₂ Child started t.children

/-- The same with any kind of children. -/
def Parent (R : workerParams → Tree system ExitStatus → Prop) (params : List workerParams)
    (t : Tree system ExitStatus) : Prop :=
  executed t = [] ∧ ∃ started, started <+: params ∧ List.Forall₂ R started t.children

/-- Every call but that of `executeTests`. -/
def Quiet (c : Call) : Prop := ∀ Params, c ≠ .executeTests Params

/-- The calls that open no log and run no section. -/
def Plain : Call → Prop
  | .setLogFilePath _ => False
  | .initLogFile _ => False
  | .executeTests _ => False
  | _ => True

/-- The calls of `enterChild`. -/
def Entering (masterLogDir name : Str) : Call → Prop
  | .initLogFile filePath => filePath = masterLogDir ++ '/' :: name ++ "_worker.log".toList
  | .addSeparation _ _ => True
  | .addRecordToLog _ => True
  | _ => False

section
variable {Params : workerParams} {params : List workerParams} {t : Tree system ExitStatus}
  {before : List (Σ c, system.Answer c)} {R : workerParams → Tree system ExitStatus → Prop}

/-! ### Quiet pieces -/

theorem executed_graft (h : ∀ e ∈ before, Quiet e.1) : executed (.graft before t) = executed t := by
  have hnone : before.filterMap execution = [] := by
    refine List.filterMap_eq_nil_iff.mpr fun e he => ?_
    obtain ⟨c, answer⟩ := e
    cases c with
    | executeTests Params => exact absurd rfl (h _ he Params)
    | _ => rfl
  unfold executed
  rw [Tree.calls_graft, List.filterMap_append, hnone, List.nil_append]

theorem Child.graft (h : Child Params t) (hbefore : ∀ e ∈ before, Quiet e.1) :
    Child Params (.graft before t) := by
  obtain ⟨hchildless, honce, hstatus⟩ := h
  refine ⟨?_, ?_, ?_⟩
  · rw [Tree.children_graft, hchildless]
  · rwa [executed_graft hbefore]
  · rwa [executed_graft hbefore, Tree.result_graft]

theorem Parent.graft (h : Parent R params t) (hbefore : ∀ e ∈ before, Quiet e.1) :
    Parent R params (.graft before t) := by
  unfold Parent at h ⊢
  rwa [executed_graft hbefore, Tree.children_graft]

theorem Plain.quiet {c : Call} (h : Plain c) : Quiet c := by
  rintro Params rfl
  exact h

theorem within_addRecordToLog (message : Str) : Within Plain (addRecordToLog message).run :=
  within_perform trivial

theorem within_flushLog : Within Plain flushLog.run := within_perform trivial

theorem within_cerr (text : Str) : Within Plain (cerr text).run :=
  (within_perform trivial).lift

theorem within_now : Within Plain now.run := (within_perform trivial).lift

theorem within_waitForWorkers (activeWorkers : List workerProc) :
    Within Plain (waitForWorkers activeWorkers).run :=
  Within.seq (within_perform trivial) fun _ => .pure _

theorem within_enlist (Params : workerParams) (childPID : Nat) (activeWorkers : List workerProc) :
    Within Plain (enlist Params childPID activeWorkers).run := by
  refine (within_addRecordToLog _).seq fun _ => Within.seq ?_ fun _ => .pure _
  unfold startTime
  by_cases htimeout : 0 < Params.timeout_secs
  · rw [if_pos htimeout]
    exact within_now
  · rw [if_neg htimeout]
    exact .pure _

theorem Entering.quiet {masterLogDir name : Str} {c : Call} (h : Entering masterLogDir name c) :
    Quiet c := by
  rintro Params rfl
  exact h

theorem within_enterChild (masterLogDir : Str) (Params : workerParams) :
    Within (Entering masterLogDir Params.myName) (enterChild masterLogDir Params).run := by
  have hrecord : ∀ message, Within (Entering masterLogDir Params.myName) (addRecordToLog message).run :=
    fun _ => within_perform trivial
  have hseparation : Within (Entering masterLogDir Params.myName) (addSeparation '#' 40).run :=
    (within_perform trivial).lift
  have hlog : ∀ filePath, Entering masterLogDir Params.myName (.initLogFile filePath) →
      Within (Entering masterLogDir Params.myName) (initLogFile filePath).run :=
    fun _ h => (within_perform h).lift
  refine Within.seq ((hlog _ rfl).seq fun _ => .pure _) fun _ => ?_
  by_cases hverbose : Params.verbose = true
  · rw [if_pos hverbose]
    exact hseparation.seq fun _ => (Within.forM hrecord _).seq fun _ => hseparation
  · rw [if_neg hverbose]
    exact .pure _

/-! ### The ends of a process -/

/-- The process runs no section, has no children, and does not end in success. -/
def Fails (t : Tree system ExitStatus) : Prop :=
  executed t = [] ∧ t.children = [] ∧ t.result ≠ some .EXIT_SUCCESS

theorem fails_stopped : Fails .stopped := ⟨rfl, rfl, by simp [Tree.result]⟩

theorem Fails.graft (h : Fails t) (hbefore : ∀ e ∈ before, Quiet e.1) : Fails (.graft before t) := by
  unfold Fails at h ⊢
  rwa [executed_graft hbefore, Tree.children_graft, Tree.result_graft]

theorem Fails.child (h : Fails t) : Child Params t := by
  obtain ⟨hexecuted, hchildren, hresult⟩ := h
  refine ⟨hchildren, .inl hexecuted, fun status hstatus => ?_⟩
  constructor
  · rintro rfl
    exact absurd hstatus hresult
  · intro hran
    rw [hexecuted] at hran
    cases hran

theorem Fails.parent (h : Fails t) : Parent R params t := by
  refine ⟨h.1, [], List.nil_prefix, ?_⟩
  rw [h.2.1]
  exact .nil

theorem runs_failure (h : Runs (.ret .EXIT_FAILURE) t) : Fails t := by
  rcases runs_ret h with rfl | rfl
  · exact fails_stopped
  · exact ⟨rfl, rfl, by simp [Tree.result]⟩

theorem runs_fatal {thrown : Thrown} (h : Runs (fatal thrown) t) : Fails t := by
  have hcerr : ∀ text, Ends Quiet (fun _ => True) (Prog.perform (I := system) (.cerr text)) :=
    fun text => (within_perform fun _ h => by cases h).ends fun _ => trivial
  obtain ⟨before, t', rfl, hbefore, rfl | ⟨_, _, ht'⟩⟩ := runs_bind_ends (hcerr _) h
  · exact fails_stopped.graft hbefore
  · exact (runs_failure ht').graft hbefore

theorem Child.of_quiet {α : Type} {p : Action α} {next : α → Prog system ExitStatus}
    (hp : Within Quiet p.run) (h : Runs (Prog.catching p fatal next) t)
    (hnext : ∀ a t, Runs (next a) t → Child Params t) : Child Params t := by
  obtain ⟨before, t, rfl, hbefore, rfl | ⟨thrown, h⟩ | ⟨a, _, h⟩⟩ := runs_catching_safe hp.safe h
  · exact fails_stopped.child.graft hbefore
  · exact (runs_fatal h).child.graft hbefore
  · exact (hnext a t h).graft hbefore

theorem Parent.of_plain {α : Type} {p : Action α} {next : α → Prog system ExitStatus}
    (hp : Within Plain p.run) (h : Runs (Prog.catching p fatal next) t)
    (hnext : ∀ a t, Runs (next a) t → Parent R params t) : Parent R params t := by
  have hquiet := (hp.imp fun _ => Plain.quiet).safe
  obtain ⟨before, t, rfl, hbefore, rfl | ⟨thrown, h⟩ | ⟨a, _, h⟩⟩ := runs_catching_safe hquiet h
  · exact fails_stopped.parent.graft hbefore
  · exact (runs_fatal h).parent.graft hbefore
  · exact (hnext a t h).graft hbefore

/-! ### The child -/

theorem child_executed {outcome : Except Thrown Bool} (hchildren : t.children = [])
    (hexecuted : executed t = [])
    (hstatus : ∀ status, t.result = some status → (status = .EXIT_SUCCESS ↔ outcome = .ok true)) :
    Child Params (.called (.executeTests Params) outcome t) := by
  have hran : executed (.called (.executeTests Params) outcome t) = [(Params, outcome)] := by
    show (Params, outcome) :: executed t = _
    rw [hexecuted]
  refine ⟨hchildren, .inr ⟨outcome, hran⟩, fun status hresult => ?_⟩
  rw [hran, hstatus status hresult]
  simp

/-- The run of a child; `next` is how the process goes on with the code that `spawnWorker` returns. -/
def Works (build : Build) (masterLogDir : Str) (Params : workerParams) (t : Tree system ExitStatus) :
    Prop :=
  ∃ next : eRETCODE → Prog system ExitStatus, next .eERROR = .ret .EXIT_FAILURE ∧
    next .eCHILD = .ret .EXIT_SUCCESS ∧
    Runs (Prog.catching (work build masterLogDir Params) fatal next) t

theorem Works.child {build : Build} {masterLogDir : Str} (h : Works build masterLogDir Params t) :
    Child Params t := by
  obtain ⟨next, herror, hchild, h⟩ := h
  unfold work at h
  rw [Prog.catching_bind] at h
  have henter := (within_enterChild masterLogDir Params).imp fun _ => Entering.quiet
  refine Child.of_quiet henter h fun _ t h => ?_
  cases hdriver : checkDbType build Params.dbtype with
  | error message =>
    rw [hdriver] at h
    simp only [Prog.catching_bind, Prog.catching_pure] at h
    refine Child.of_quiet ((within_cerr _).imp fun _ => Plain.quiet) h fun _ t h => ?_
    refine Child.of_quiet ((within_addRecordToLog _).imp fun _ => Plain.quiet) h fun _ t h => ?_
    rw [herror] at h
    exact (runs_failure h).child
  | ok _ =>
    rw [hdriver] at h
    simp only [Prog.catching_bind, Prog.catching_pure] at h
    cases h with
    | stopped => exact fails_stopped.child
    | call outcome hrest =>
      cases outcome with
      | error thrown =>
        obtain ⟨hexecuted, hchildren, hresult⟩ := runs_fatal hrest
        refine child_executed hchildren hexecuted fun status hstatus => ?_
        refine iff_of_false ?_ (by simp)
        rintro rfl
        exact hresult hstatus
      | ok success =>
        cases success with
        | true =>
          have hend : Runs (next .eCHILD) _ := hrest
          rw [hchild] at hend
          rcases runs_ret hend with rfl | rfl
          · exact child_executed rfl rfl fun status hstatus => by cases hstatus
          · refine child_executed rfl rfl fun status hstatus => ?_
            exact iff_of_true (Option.some.inj hstatus).symm rfl
        | false =>
          have hend : Runs (next .eERROR) _ := hrest
          rw [herror] at hend
          obtain ⟨hexecuted, hchildren, hresult⟩ := runs_failure hend
          refine child_executed hchildren hexecuted fun status hstatus => ?_
          refine iff_of_false ?_ (by simp)
          rintro rfl
          exact hresult hstatus

/-! ### The master -/

/-- How the process goes on after `runAll`. -/
def finish (result : Bool) : Prog system ExitStatus :=
  .ret (if result then .EXIT_SUCCESS else .EXIT_FAILURE)

theorem main_runPool (build : Build) (masterLogDir : Str) (validParams : List workerParams) :
    main (runPool build masterLogDir validParams) =
      Prog.catching (runAll build masterLogDir [] validParams) fatal finish := by
  unfold main runPool
  rw [Prog.catching_bind]
  rfl

theorem runs_finish {result : Bool} (h : Runs (finish result) t) : Parent R params t := by
  rcases runs_ret h with rfl | rfl
  · exact ⟨rfl, [], List.nil_prefix, .nil⟩
  · exact ⟨rfl, [], List.nil_prefix, .nil⟩

theorem Parent.forked {child : Tree system ExitStatus} {pid : Nat} (hchild : R Params child)
    (h : Parent R params t) : Parent R (Params :: params) (.forked pid child t) := by
  obtain ⟨hexecuted, started, hstarted, hchildren⟩ := h
  exact ⟨hexecuted, Params :: started, List.cons_prefix_cons.mpr ⟨rfl, hstarted⟩, .cons hchild hchildren⟩

section
variable (build : Build) (masterLogDir : Str)

/-- How the process goes on after `spawnWorker`. -/
def resume (params : List workerParams) (spawned : List workerProc × eRETCODE) :
    Prog system ExitStatus :=
  match spawned.2 with
  | .eERROR => finish false
  | .eCHILD => finish true
  | _ => Prog.catching (runAll build masterLogDir spawned.1 params) fatal finish

/-- How the process goes on after `fork`. -/
def branch (Params : workerParams) (params : List workerParams) (activeWorkers : List workerProc) :
    Forked Str → Prog system ExitStatus
  | .error strerror =>
    Prog.catching (addRecordToLog ("=> Cannot fork() child process: ".toList ++ strerror)) fatal
      fun _ => resume build masterLogDir params (activeWorkers, .eERROR)
  | .parent childPID =>
    Prog.catching (enlist Params childPID activeWorkers) fatal (resume build masterLogDir params)
  | .child =>
    Prog.catching (work build masterLogDir Params) fatal
      fun wrc => resume build masterLogDir params (activeWorkers, wrc)

theorem runAll_cons (Params : workerParams) (params : List workerParams)
    (activeWorkers : List workerProc) :
    Prog.catching (runAll build masterLogDir activeWorkers (Params :: params)) fatal finish =
      Prog.catching (addRecordToLog ("-> Running worker for ".toList ++ Params.myName)) fatal
        fun _ => Prog.catching flushLog fatal
          fun _ => .fork (branch build masterLogDir Params params activeWorkers) := by
  have hspawn : Prog.catching (spawnWorker build masterLogDir Params activeWorkers) fatal
      (resume build masterLogDir params) =
      Prog.catching flushLog fatal
        fun _ => .fork (branch build masterLogDir Params params activeWorkers) := by
    rw [spawnWorker, Prog.catching_bind]
    congr 1
    funext _
    rw [Prog.catching_bind]
    show Prog.fork _ = _
    congr 1
    funext result
    cases result with
    | error strerror => exact Prog.catching_bind _ _ _ _
    | parent childPID => rfl
    | child => exact Prog.catching_bind _ _ _ _
  rw [runAll, Prog.catching_bind]
  congr 1
  funext _
  rw [← hspawn, Prog.catching_bind]
  congr 1
  funext spawned
  obtain ⟨activeWorkers, wrc⟩ := spawned
  cases wrc with
  | _ => rfl

end

/-- By induction over the sections: at each one the process forks a child for it, or is at its end. -/
theorem runs_runAll {build : Build} {masterLogDir : Str} {activeWorkers : List workerProc}
    (h : Runs (Prog.catching (runAll build masterLogDir activeWorkers params) fatal finish) t) :
    Parent (Works build masterLogDir) params t := by
  induction params generalizing activeWorkers t with
  | nil => exact Parent.of_plain (within_waitForWorkers activeWorkers) h fun _ t h => runs_finish h
  | cons Params params ih =>
    rw [runAll_cons] at h
    refine Parent.of_plain (within_addRecordToLog _) h fun _ t h => ?_
    refine Parent.of_plain within_flushLog h fun _ t h => ?_
    have hresume : ∀ spawned t, Runs (resume build masterLogDir params spawned) t →
        Parent (Works build masterLogDir) params t := by
      rintro ⟨activeWorkers, wrc⟩ t h
      cases wrc with
      | eERROR => exact runs_finish h
      | eCHILD => exact runs_finish h
      | eDEFAULT => exact ih h
      | eMASTER => exact ih h
    cases h with
    | stopped => exact fails_stopped.parent
    | forkFailed strerror h =>
      have hparent : Parent (Works build masterLogDir) (Params :: params) _ :=
        Parent.of_plain (within_addRecordToLog _) h fun _ t h => runs_finish h
      exact hparent
    | fork pid hchild h =>
      have hworks : Works build masterLogDir Params _ := ⟨_, rfl, rfl, hchild⟩
      exact (Parent.of_plain (within_enlist Params pid activeWorkers) h hresume).forked hworks

theorem Parent.master {build : Build} {masterLogDir : Str} (h : Parent (Works build masterLogDir) params t) :
    Master params t := by
  obtain ⟨hexecuted, started, hstarted, hchildren⟩ := h
  exact ⟨hexecuted, started, hstarted, hchildren.imp fun _ _ hworks => hworks.child⟩

theorem Child.descendants_eq (h : Child Params t) : t.descendants = [] := by
  have hnone : ∀ child ∈ t.children, child.descendants = [] := by
    intro child hchild
    rw [h.childless] at hchild
    cases hchild
  rw [Tree.descendants_eq_children hnone, h.childless]

theorem Master.children (h : Master params t) {i : Nat} {child : Tree system ExitStatus}
    (hchild : t.children[i]? = some child) : ∃ Params, params[i]? = some Params ∧ Child Params child := by
  obtain ⟨_, started, ⟨later, rfl⟩, hchildren⟩ := h
  obtain ⟨hi, rfl⟩ := List.getElem?_eq_some_iff.mp hchild
  have hstarted : i < started.length := hchildren.length_eq ▸ hi
  refine ⟨started[i], ?_, hchildren.get hstarted hi⟩
  rw [List.getElem?_append_left hstarted, List.getElem?_eq_getElem hstarted]

end

/-- **The process tree.** The master runs no section, and its children are all other processes. They
are at most as many as the sections and stand in their order; a child runs its section at most once
and no other, and if it exits, it does so in success exactly when its `executeTests` has returned
`true`. -/
theorem processes_of_runAll (build : Build) (masterLogDir : Str) (params : List workerParams)
    (t : Tree system ExitStatus) (h : Runs (main (runPool build masterLogDir params)) t) :
    executed t = [] ∧ t.descendants = t.children ∧ t.children.length ≤ params.length ∧
      ∀ (i : Nat) child, t.children[i]? = some child → ∃ Params, params[i]? = some Params ∧
        child.children = [] ∧
        (executed child = [] ∨ ∃ outcome, executed child = [(Params, outcome)]) ∧
        ∀ status, child.result = some status →
          (status = .EXIT_SUCCESS ↔ executed child = [(Params, .ok true)]) := by
  rw [main_runPool] at h
  have hmaster : Master params t := (runs_runAll h).master
  refine ⟨hmaster.1, ?_, ?_, ?_⟩
  · refine Tree.descendants_eq_children fun child hchild => ?_
    obtain ⟨i, hi⟩ := List.getElem?_of_mem hchild
    obtain ⟨Params, _, hworks⟩ := hmaster.children hi
    exact hworks.descendants_eq
  · obtain ⟨_, started, hstarted, hchildren⟩ := hmaster
    rw [← hchildren.length_eq]
    exact hstarted.length_le
  · intro i child hchild
    obtain ⟨Params, hParams, hworks⟩ := hmaster.children hchild
    exact ⟨Params, hParams, hworks.childless, hworks.once, hworks.status⟩

/-- Two sections: the first one succeeds, in the second `executeTests` throws, and the master waits. -/
theorem processes_of_two :
    ∃ t, Runs (main (runPool ⟨true, true⟩ [] [{ dbtype := .eMYSQL }, { dbtype := .ePGSQL }])) t ∧
      t.children.map Tree.result = [some .EXIT_SUCCESS, some .EXIT_FAILURE] ∧
      t.descendants = t.children := by
  let logged : Except Thrown Unit := .ok ()
  obtain ⟨t, hruns, hresults⟩ : ∃ t,
      Runs (main (runPool ⟨true, true⟩ [] [{ dbtype := .eMYSQL }, { dbtype := .ePGSQL }])) t ∧
        t.children.map Tree.result = [some .EXIT_SUCCESS, some .EXIT_FAILURE] := by
    apply Exists.intro
    apply And.intro
    · apply Runs.call logged
      apply Runs.call logged
      apply Runs.fork 7
      · apply Runs.call true
        apply Runs.call (.ok true : Except Thrown Bool)
        apply Runs.ret
      · apply Runs.call logged
        apply Runs.call logged
        apply Runs.call logged
        apply Runs.fork 8
        · apply Runs.call true
          apply Runs.call (.error none : Except Thrown Bool)
          apply Runs.call ()
          apply Runs.ret
        · apply Runs.call logged
          apply Runs.stopped
    · rfl
  exact ⟨t, hruns, hresults, (processes_of_runAll _ _ _ t hruns).2.1⟩

end PQuery.Process

import PQuery.DbWorker.Outcome
import PQuery.Process.ExitStatus

/-!
# What a success stands for

The exit status of the master, down to the queries: where it is a success and each child answers
`executeTests` as the worker does, every section that is to run has had its infile split, and its threads
have come to their end without an exception (`success_performed`). A section without `shuffle` has then
performed its statements in the order of the file, all of them unless the connection was refused or too
many of them have failed in a row.
-/

namespace PQuery.Process

open Config DbWorker Fork

/-- The answer is one that the worker gives for these files, unless it is an exception. -/
def Answered (percentage : Nat → Nat → Str) (files : Str → Option Str) (e : workerParams × Except Thrown Bool) :
    Prop :=
  ∀ result, e.2 = .ok result → ∃ testConnection schedule log,
    DbWorker.executeTests percentage e.1 testConnection (files e.1.infile) schedule = some (result, log)

/-- A thread that has gone through the list in order, as far as it has come. -/
def Replayed (w : Worker) (t : Thread) : Prop :=
  performedQueries w t.loop = w.queryList.take t.loop.performed.length ∧
    (t.connected = some true → failing t.loop.outcomes < maxConFailures →
      performedQueries w t.loop = w.queryList)

/-- What the threads of a section have done with its infile. -/
def Performed (files : Str → Option Str) (Params : workerParams) : Prop :=
  ∃ file w schedule c, files Params.infile = some file ∧
    w.queryList = SqlFile.loadQueriesFromFile (Params.dbtype == .ePGSQL) [] file ∧
    w.params = adjustRuntimeParams Params w.queryList ∧ spawnWorkerThreads w schedule = some c ∧
    c.locals.length = w.params.threads ∧ (∀ t ∈ c.locals, t.threw = false ∧ t.Ended w) ∧
    (Params.shuffle = false → w.queryList.length < 2 ^ 32 → ∃ t, c.locals = [t] ∧ Replayed w t)

section
variable {w : Worker} {Params : workerParams} {files : Str → Option Str} {percentage : Nat → Nat → Str}

theorem replayed_of_sequential {t : Thread} (hw : Replaying w) (h : t.Sequential w) (hended : t.Ended w) :
    Replayed w t := by
  have hperformed := h.inOrder.performedQueries
  refine ⟨hperformed, fun htrue hlow => ?_⟩
  have hall : t.loop.performed.length = w.queryList.length := by
    cases hended with
    | emptyList _ hnone _ => simp [hnone] at htrue
    | refused hfalse _ => simp [hfalse] at htrue
    | finished _ hlength _ => exact hlength.trans hw.queries_per_thread
    | aborted _ hfailing _ => omega
  rw [hperformed, hall, List.take_length]

/-- The worker of a section that has succeeded. -/
theorem performed_of_true {testConnection : Bool} {schedule : List (Nat × DbWorker.Action)} {log : List Str}
    (h : DbWorker.executeTests percentage Params testConnection (files Params.infile) schedule = some (true, log)) :
    Performed files Params := by
  obtain ⟨w, c, hprepare, hrun, hjoined, hcalm, -⟩ := executeTests_eq_true h
  obtain ⟨file, hfile⟩ := exists_infile hprepare
  rw [hfile] at hprepare
  obtain ⟨hlist, hparams, -⟩ := prepare_eq_some hprepare
  have hended : ∀ t ∈ c.locals, t.Ended w := fun t ht => ended_of_joined hrun t ht (hjoined t ht) (hcalm t ht)
  refine ⟨file, w, schedule, c, hfile, hlist, hparams, hrun, length_locals_of_run hrun,
    fun t ht => ⟨hcalm t ht, hended t ht⟩, fun hshuffle hlength => ?_⟩
  have hreplay : w.params = { Params with threads := 1, queries_per_thread := w.queryList.length } := by
    rw [hparams, adjustRuntimeParams, if_neg (by simp [hshuffle])]
  have hw : Replaying w := by
    refine ⟨?_, ?_, hlength⟩
    · rw [hreplay]
      exact hshuffle
    · rw [hreplay]
  obtain ⟨t, hlocals, hsequential⟩ := sequential_run hw (by rw [hreplay]) hrun
  refine ⟨t, hlocals, replayed_of_sequential hw hsequential (hended t ?_)⟩
  rw [hlocals]
  exact List.mem_cons_self

end

/-- **What a success stands for.** Let `waitpid` tell the truth of the children, and `executeTests` be that
of the worker. Where the master exits in success, the configuration was read, all the sections that are to
run are accepted, and the children have run them, one each and in order; each has split its infile and
its threads have come to their end on the statements of it, without an exception. -/
theorem success_performed (build : Build) (version : Version) (options : CliOptions) (file : Option Str)
    (percentage : Nat → Nat → Str) (files : Str → Option Str) (t : Tree system ExitStatus)
    (h : Runs (main (run build version options file)) t) (hreaped : Reaped t)
    (hresult : t.result = some .EXIT_SUCCESS)
    (hanswered : ∀ child ∈ t.children, ∀ e ∈ executed child, Answered percentage files e) :
    (INIReader.open file).error = 0 ∧ ∃ params, List.Forall₂
      (fun secName Params => setupWorkerParams build (INIReader.open file) secName = .ok Params)
        (running (INIReader.open file)) params ∧
      List.Forall₂ (fun Params child => executed child = [(Params, .ok true)]) params t.children ∧
      ∀ Params ∈ params, Performed files Params := by
  obtain ⟨herror, -, -, params, hparams, hchildren⟩ := (success_of_run h hreaped hresult).mp rfl
  refine ⟨herror, params, hparams, hchildren.imp fun _ _ hsucceeded => hsucceeded.1, fun Params hmem => ?_⟩
  obtain ⟨k, hk, rfl⟩ := List.getElem_of_mem hmem
  have hk' : k < t.children.length := hchildren.length_eq ▸ hk
  have hexecuted : executed t.children[k] = [(params[k], .ok true)] := (hchildren.get hk hk').1
  obtain ⟨testConnection, schedule, log, hanswer⟩ := hanswered _ (List.getElem_mem hk') (params[k], .ok true)
    (by rw [hexecuted]; exact List.mem_cons_self) true rfl
  exact performed_of_true hanswer

/-- A thread whose connection is refused. -/
def refusedSchedule : List (Nat × DbWorker.Action) :=
  [(0, .start true), (0, .connect (some (false, [])))] ++ List.replicate 6 (0, .operate true)

theorem success_performed_one : ∃ Params t,
    Runs (main (run ⟨true, true⟩ ⟨[], []⟩ ⟨[], []⟩ (some oneWorker))) t ∧
      (∃ child, t.children = [child] ∧ executed child = [(Params, .ok true)]) ∧
      Performed (fun _ => some "SELECT 1;\n".toList) Params := by
  obtain ⟨p, t, child, hp, hruns, hreaped, hresult, hchildren, hexecuted⟩ := runs_oneWorker
  have hsuccess : ((setupWorkerParams ⟨true, true⟩ (INIReader.open (some oneWorker)) "w".toList).toOption.bind
      fun p => (DbWorker.executeTests (fun _ _ => []) p true (some "SELECT 1;\n".toList)
        refusedSchedule).map Prod.fst) = some true := by
    decide +kernel
  rw [hp] at hsuccess
  obtain ⟨⟨result, log⟩, hlog, rfl⟩ := Option.map_eq_some_iff.mp hsuccess
  obtain ⟨-, params, hparams, hanswered, hperformed⟩ := success_performed _ _ _ _ (fun _ _ => [])
    (fun _ => some "SELECT 1;\n".toList) t hruns hreaped hresult fun child' hchild e he => by
      rw [hchildren, List.mem_singleton] at hchild
      rw [hchild, hexecuted, List.mem_singleton] at he
      rw [he]
      intro result hresult
      obtain rfl := Except.ok.inj hresult
      exact ⟨true, refusedSchedule, log, hlog⟩
  have hone : params.length = 1 := hanswered.length_eq.trans (congrArg List.length hchildren)
  obtain ⟨Params, rfl⟩ := List.length_eq_one_iff.mp hone
  rw [hchildren] at hanswered
  exact ⟨Params, t, hruns, ⟨child, hchildren, (List.forall₂_cons.mp hanswered).1⟩,
    hperformed Params List.mem_cons_self⟩

end PQuery.Process

import PQuery.DbWorker.Totals
import PQuery.DbWorker.WorkerLog

/-!
# What the scheduler decides

The threads of a worker read nothing that another one writes, so that with the same answers from the
outside each comes to the same end in every interleaving. What is left to the scheduler is the order
of the texts in the log of the worker: any shuffle of those of the threads can come out, and nothing
else (`outcomes_iff`). This is about runs in which no write to this log fails: the threads share its
stream, and one that has failed fails for all of them.
-/

namespace PQuery.DbWorker

open Interleaving

/-- The schedule is an interleaving of these actions of the threads. -/
def Interleaves (w : Worker) (acts : Nat → List Action) (schedule : List (Nat × Action)) : Prop :=
  (∀ e ∈ schedule, e.1 < w.params.threads) ∧ ∀ k < w.params.threads, own k schedule = acts k

/-- The texts, each with the number of its thread, are a shuffle of what the threads write to the log
of the worker with these actions. -/
def Shuffles (w : Worker) (acts : Nat → List Action) (texts : List (Nat × Str)) : Prop :=
  (∀ x ∈ texts, x.1 < w.params.threads) ∧
    ∀ k < w.params.threads, own k texts = loggedTexts w k (acts k)

/-- What a thread comes to with these actions. -/
def Thread.after (w : Worker) (k : Nat) (acts : List Action) : Thread :=
  (soloRun (Thread.solo w) (Thread.initial k) acts).getD (Thread.initial k)

theorem after_eq {w : Worker} {k : Nat} {acts : List Action} {t : Thread}
    (h : soloRun (Thread.solo w) (Thread.initial k) acts = some t) : Thread.after w k acts = t := by
  rw [Thread.after, h, Option.getD_some]

/-- At its end, no write of the thread to the log of the worker has failed: one that has would be the
operation at which the thread stands. -/
def Thread.Logged (t : Thread) : Prop := ∀ text ops, t.phase ≠ .leaving (.workerLog text :: ops)

/-- What the threads with these actions add to a total, a variable of 64 bits. -/
def addedUp (w : Worker) (acts : Nat → List Action) (total : Total) : Nat :=
  ((List.range w.params.threads).map fun k => (Thread.after w k (acts k)).booked total).sum % 2 ^ 64

/-- What `executeTests` returns. -/
def noneThrew (w : Worker) (acts : Nat → List Action) : Bool :=
  (List.range w.params.threads).all fun k => !(Thread.after w k (acts k)).threw

section
variable {w : Worker} {acts : Nat → List Action} {schedule : List (Nat × Action)}
  {c : Config Shared Thread}

theorem of_getElem?_initial {threads k : Nat} {t : Thread}
    (h : (initial threads).locals[k]? = some t) : k < threads ∧ t = Thread.initial k := by
  rw [getElem?_initial] at h
  obtain ⟨hk, ht⟩ := Option.ite_none_right_eq_some.mp h
  exact ⟨hk, (Option.some.inj ht).symm⟩

theorem locals_eq (h : spawnWorkerThreads w schedule = some c) (hs : Interleaves w acts schedule) :
    c.locals = (List.range w.params.threads).map fun k => Thread.after w k (acts k) := by
  have hlength := length_locals_of_run h
  refine List.ext_getElem? fun k => ?_
  by_cases hk : k < w.params.threads
  · obtain ⟨t, ht⟩ := exists_local h hk
    have hrun := (own_determines h ht).1
    rw [hs.2 k hk] at hrun
    rw [ht, List.getElem?_map, List.getElem?_range hk, Option.map_some, after_eq hrun]
  · rw [List.getElem?_eq_none (by omega), List.getElem?_eq_none (by simp; omega)]

theorem totals_eq_addedUp (h : spawnWorkerThreads w schedule = some c)
    (hs : Interleaves w acts schedule) : c.shared.totals = addedUp w acts := by
  funext total
  rw [totals_eq_booked h total, locals_eq h hs, List.map_map]
  rfl

theorem thread_failed_eq (h : spawnWorkerThreads w schedule = some c)
    (hs : Interleaves w acts schedule) : (!c.shared.thread_failed) = noneThrew w acts := by
  rw [Bool.eq_iff_iff, Bool.not_eq_true', ← Bool.not_eq_true, thread_failed_iff h, locals_eq h hs,
    noneThrew]
  simp

/-- The threads of an interleaving allow one another every step. -/
theorem exists_run_of_interleaves
    (hacts : ∀ k < w.params.threads, ∃ t,
      soloRun (Thread.solo w) (Thread.initial k) (acts k) = some t)
    (hs : Interleaves w acts schedule) : ∃ c, spawnWorkerThreads w schedule = some c := by
  refine exists_run_of_soloRun step_solo (fun e he => ?_) fun k t ht => ?_
  · rw [initial, List.length_map, List.length_range]
    exact hs.1 e he
  · obtain ⟨hk, rfl⟩ := of_getElem?_initial ht
    rw [hs.2 k hk]
    exact hacts k hk

theorem shuffles_workerTrace (h : spawnWorkerThreads w schedule = some c)
    (hs : Interleaves w acts schedule) : Shuffles w acts (workerTrace w schedule) := by
  refine ⟨fun x hx => ?_, fun k hk => ?_⟩
  · obtain ⟨e, he, hsame⟩ := exists_of_mem_trace hx
    exact hsame ▸ hs.1 e he
  · have hstart : (initial w.params.threads).locals[k]? = some (Thread.initial k) := by
      rw [getElem?_initial, if_pos hk]
    rw [workerTrace, own_trace step_solo h hstart, hs.2 k hk]
    rfl

/-- Every shuffle of what the threads write is written in some interleaving of them. -/
theorem exists_schedule {texts : List (Nat × Str)}
    (hacts : ∀ k < w.params.threads, ∃ t,
      soloRun (Thread.solo w) (Thread.initial k) (acts k) = some t)
    (htexts : Shuffles w acts texts) :
    ∃ schedule c, Interleaves w acts schedule ∧ spawnWorkerThreads w schedule = some c ∧
      workerTrace w schedule = texts := by
  have hlength : (initial w.params.threads).locals.length = w.params.threads := by simp [initial]
  obtain ⟨schedule, c, h, hown, htrace⟩ := @exists_run_of_shuffle Shared Thread Action Str
    (Thread.step w) (Thread.solo w) Thread.writes step_solo texts (initial w.params.threads) acts
    (by rw [hlength]; exact htexts.1) (fun k t ht => by
      obtain ⟨hk, rfl⟩ := of_getElem?_initial ht
      exact ⟨hacts k hk, htexts.2 k hk⟩)
  rw [hlength] at hown
  refine ⟨schedule, c, ⟨fun e he => ?_, hown⟩, h, htrace⟩
  rw [← hlength]
  exact lt_of_mem_run h e he

theorem executeTests_eq {percentage : Nat → Nat → Str} {p : Config.workerParams}
    {testConnection : Bool} {infile : Option Str}
    (hprepare : prepare p testConnection infile none = some w)
    (hacts : ∀ k < w.params.threads, ∃ t,
      soloRun (Thread.solo w) (Thread.initial k) (acts k) = some t ∧ t.Joined)
    (h : spawnWorkerThreads w schedule = some c) (hs : Interleaves w acts schedule) :
    executeTests percentage p testConnection infile schedule =
      some (noneThrew w acts, adjustTexts p w.queryList ++ (workerTrace w schedule).map Prod.snd ++
        [writeFinalReport percentage (addedUp w acts) ++ "\n".toList]) := by
  have hall : ∀ t ∈ c.locals, t.Joined := by
    rw [locals_eq h hs]
    intro t ht
    obtain ⟨k, hk, rfl⟩ := List.mem_map.mp ht
    obtain ⟨t, hrun, hjoined⟩ := hacts k (List.mem_range.mp hk)
    rwa [after_eq hrun]
  unfold executeTests
  rw [hprepare]
  simp only [h]
  rw [if_pos hall, thread_failed_eq h hs, workerLog_eq_trace h, totals_eq_addedUp h hs]

end

/-- **What the scheduler decides.** Let the threads of a prepared worker each come to their end with
these actions, and no write to the log of the worker fail. Every interleaving of them is a run, and
leaves each thread, its files included, as its own actions do. What can come out of `executeTests` is
one result, and in the log the records of `adjustRuntimeParams` and the final report, with any shuffle
of what the threads write between them. -/
theorem outcomes_iff (percentage : Nat → Nat → Str) (p : Config.workerParams)
    (testConnection : Bool) (infile : Option Str) (w : Worker) (acts : Nat → List Action)
    (hprepare : prepare p testConnection infile none = some w)
    (hacts : ∀ k < w.params.threads, ∃ t,
      soloRun (Thread.solo w) (Thread.initial k) (acts k) = some t ∧ t.Joined ∧ t.Logged) :
    (∀ schedule, Interleaves w acts schedule → ∃ c, spawnWorkerThreads w schedule = some c ∧
        c.locals = (List.range w.params.threads).map fun k => Thread.after w k (acts k)) ∧
      ∀ outcome, (∃ schedule, Interleaves w acts schedule ∧
          executeTests percentage p testConnection infile schedule = outcome) ↔
        ∃ texts, Shuffles w acts texts ∧ outcome = some (noneThrew w acts,
          adjustTexts p w.queryList ++ texts.map Prod.snd ++
            [writeFinalReport percentage (addedUp w acts) ++ "\n".toList]) := by
  have hjoined : ∀ k < w.params.threads, ∃ t,
      soloRun (Thread.solo w) (Thread.initial k) (acts k) = some t ∧ t.Joined := by
    intro k hk
    obtain ⟨t, hrun, hjoined, _⟩ := hacts k hk
    exact ⟨t, hrun, hjoined⟩
  have hruns : ∀ k < w.params.threads, ∃ t,
      soloRun (Thread.solo w) (Thread.initial k) (acts k) = some t := by
    intro k hk
    obtain ⟨t, hrun, _⟩ := hacts k hk
    exact ⟨t, hrun⟩
  refine ⟨fun schedule hs => ?_, fun outcome => ⟨?_, ?_⟩⟩
  · obtain ⟨c, h⟩ := exists_run_of_interleaves hruns hs
    exact ⟨c, h, locals_eq h hs⟩
  · rintro ⟨schedule, hs, rfl⟩
    obtain ⟨c, h⟩ := exists_run_of_interleaves hruns hs
    exact ⟨_, shuffles_workerTrace h hs, executeTests_eq hprepare hjoined h hs⟩
  · rintro ⟨texts, htexts, rfl⟩
    obtain ⟨schedule, c, hs, h, rfl⟩ := exists_schedule hruns htexts
    exact ⟨schedule, hs, executeTests_eq hprepare hjoined h hs⟩

/-- Two threads and no log of their own, with room for the queries. -/
def twoRefused : Config.workerParams :=
  { twoUnlogged.params with query_list_maxsize := 1073741824 }

/-- Two threads are refused, and the calls of their messages alternate: `executeTests` returns true
with this log. -/
theorem outcomes_iff_refused :
    ∃ schedule, executeTests (fun _ _ => []) twoRefused true (some "SELECT 1;\n".toList) schedule =
      some (true, ["=> Unable to connect! Database error Access denied\n".toList,
        "=> Unable to connect! Database error Access denied\n".toList,
        "==> Thread #".toList, "==> Thread #".toList, "0".toList, "1".toList,
        " is exiting abnormally, unable to init database".toList,
        " is exiting abnormally, unable to init database".toList, "\n".toList, "\n".toList,
        ("-> WORKER SUMMARY: 0/0 queries failed, (N/A% were successful); " ++
          "2 thread(s) failed to connect\n").toList]) := by
  obtain ⟨w, hw⟩ : ∃ w, prepare twoRefused true (some "SELECT 1;\n".toList) none = some w := ⟨_, rfl⟩
  have hworker : w = { params := twoRefused, queryList := ["SELECT 1".toList] } := by
    obtain ⟨hlist, hparams, _⟩ := prepare_eq_some hw
    obtain ⟨params, queryList⟩ := w
    obtain rfl : queryList = ["SELECT 1".toList] := hlist.trans (by decide +kernel)
    obtain rfl : params = twoRefused := hparams
    rfl
  subst hworker
  obtain ⟨schedule, _, h⟩ := ((outcomes_iff (fun _ _ => []) twoRefused true
    (some "SELECT 1;\n".toList) _ (fun _ => refusedActions) hw (by
      rintro (_ | _ | k) hk
      · exact ⟨_, rfl, by decide, fun _ _ h => by cases h⟩
      · exact ⟨_, rfl, by decide, fun _ _ h => by cases h⟩
      · exact absurd hk (by simp [twoRefused, twoUnlogged]))).2 _).mpr
    -- the texts of the two threads in turn
    ⟨["=> Unable to connect! Database error Access denied\n".toList, "==> Thread #".toList].flatMap
        (fun text => [(0, text), (1, text)]) ++ [(0, "0".toList), (1, "1".toList)] ++
      [" is exiting abnormally, unable to init database".toList, "\n".toList].flatMap
        (fun text => [(0, text), (1, text)]),
      ⟨by decide, by decide⟩, rfl⟩
  exact ⟨schedule, h.trans (by decide +kernel)⟩

end PQuery.DbWorker

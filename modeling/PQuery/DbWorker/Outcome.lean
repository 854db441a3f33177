import PQuery.DbWorker.Exceptions
import PQuery.DbWorker.Totals

/-!
# What a successful worker has done

A thread that has not thrown comes to its end in one of four ways: it found the list empty, its
connection was refused, it has performed the number of queries asked for, or it has left after the
first 250 failures in a row (`Thread.Ended`). When `executeTests` returns `true`, every thread has come
to its end so, and the final report counts all that the threads have done (`success_accounts`).
-/

namespace PQuery.DbWorker

open Config Interleaving

/-! ### How a thread ends -/

/-- The loop before its next pass: the counter is the number of the passes, in 32 bits, no series of
failures has been too long, and no more queries were performed than are asked for, if these can be
counted. -/
structure Loop.Heading (w : Worker) (l : Loop) : Prop where
  counter : l.i = l.performed.length % 2 ^ 32
  low : ∀ n ≤ l.performed.length, failing (l.outcomes.take n) < maxConFailures
  bound : l.performed.length ≤ w.params.queries_per_thread ∨ 2 ^ 32 ≤ w.params.queries_per_thread

/-- How a thread has come to its end, and what it has performed by then. -/
inductive Thread.Ended (w : Worker) (t : Thread) : Prop
  | emptyList : w.queryList = [] → t.connected = none → t.loop.performed = [] → t.Ended w
  | refused : t.connected = some false → t.loop.performed = [] → t.Ended w
  | finished : t.connected = some true → t.loop.performed.length = w.params.queries_per_thread →
      failing t.loop.outcomes < maxConFailures → t.Ended w
  | aborted : t.connected = some true → failing t.loop.outcomes = maxConFailures →
      (∀ n < t.loop.performed.length, failing (t.loop.outcomes.take n) < maxConFailures) → t.Ended w

/-- A thread on its way out has done what it was to do; before that, its loop is at its head. -/
def Thread.Pursues (w : Worker) (t : Thread) : Prop :=
  match t.phase with
  | .leaving _ => t.Ended w
  | _ => t.threw = false → t.loop.Heading w

section
variable {w : Worker} {a : Answer} {l l' : Loop}

theorem heading_initial (w : Worker) : Loop.initial.Heading w :=
  ⟨rfl, fun n _ => by rw [show Loop.initial.outcomes = [] from rfl, List.take_nil]; decide, .inl (Nat.zero_le _)⟩

theorem Loop.Heading.failing_lt (h : l.Heading w) : failing l.outcomes < maxConFailures := by
  have hlow := h.low _ (Nat.le_refl _)
  rwa [← length_outcomes, List.take_length] at hlow

theorem consecutive_of_low (hcounted : l.Counted) (hlow : failing l.outcomes < maxConFailures) :
    (l.perform w a).db.consecutive_failures = failing (l.perform w a).outcomes := by
  have hsame := @consecutive_perform w a { l with i := l.performed.length } (hcounted.of_eq rfl rfl) ⟨rfl, hlow⟩
  rw [outcomes_perform] at hsame ⊢
  exact hsame

theorem Loop.Heading.take_perform (h : l.Heading w) :
    ∀ n < (l.perform w a).performed.length, failing ((l.perform w a).outcomes.take n) < maxConFailures := by
  intro n hn
  rw [length_perform] at hn
  rw [outcomes_perform, List.take_append_of_le_length (by rw [length_outcomes]; omega)]
  exact h.low n (by omega)

theorem Loop.Heading.completed (h : l.Heading w) (hcounted : l.Counted)
    (hi : l.i < w.params.queries_per_thread) (hc : Continues w a l) : (l.completed w a).Heading w := by
  have hperformed : (l.completed w a).performed = (l.perform w a).performed := (foldl_apply _ _).2.2
  have houtcomes : (l.completed w a).outcomes = (l.perform w a).outcomes :=
    congrArg (List.map Prod.snd) hperformed
  refine ⟨?_, fun n hn => ?_, ?_⟩
  · show (l.i + 1) % 2 ^ 32 = _
    rw [hperformed, length_perform, h.counter, Nat.mod_add_mod]
  · rw [houtcomes]
    rw [hperformed] at hn
    rcases Nat.lt_or_eq_of_le hn with hn | rfl
    · exact h.take_perform n hn
    · rw [← length_outcomes, List.take_length, ← consecutive_of_low hcounted h.failing_lt]
      exact hc.2.1
  · rw [hperformed, length_perform]
    rcases h.bound with hbound | hbound
    · rw [h.counter] at hi
      by_cases hlarge : 2 ^ 32 ≤ w.params.queries_per_thread
      · exact .inr hlarge
      · rw [Nat.mod_eq_of_lt (by omega)] at hi
        exact .inl hi
    · exact .inr hbound

/-- What the step that leaves the loop without an exception has come to. -/
theorem Loop.Heading.left (h : l.Heading w) (hcounted : l.Counted) {exit : Exit} (hexit : exit ≠ .threw)
    (hstep : loopStep w a l = (l', some exit)) :
    l'.performed.length = w.params.queries_per_thread ∧ failing l'.outcomes < maxConFailures ∨
      failing l'.outcomes = maxConFailures ∧
        ∀ n < l'.performed.length, failing (l'.outcomes.take n) < maxConFailures := by
  unfold loopStep at hstep
  by_cases hi : l.i < w.params.queries_per_thread
  · rw [if_pos hi] at hstep
    rcases iteration_cases (w := w) (a := a) (l := l) with ⟨_, hr⟩ | ⟨_, habort, hr⟩ | ⟨_, _, _, hr⟩ |
      ⟨_, _, _, hr⟩
    · rw [hr] at hstep
      cases hstep
      exact absurd rfl hexit
    · rw [hr] at hstep
      cases hstep
      rw [consecutive_of_low hcounted h.failing_lt] at habort
      refine .inr ⟨Nat.le_antisymm ?_ habort, h.take_perform⟩
      have hlow := h.failing_lt
      rw [outcomes_perform, failing_concat]
      split <;> omega
    · rw [hr] at hstep
      cases hstep
      exact absurd rfl hexit
    · rw [hr] at hstep
      cases hstep
  · rw [if_neg hi] at hstep
    cases hstep
    -- the counter is no larger than the number of the passes, so it cannot have wrapped
    refine .inl ⟨?_, h.failing_lt⟩
    have hcounter := h.counter
    have hwrapped : l.performed.length % 2 ^ 32 < 2 ^ 32 := Nat.mod_lt _ (by decide)
    have hle : l.performed.length % 2 ^ 32 ≤ l.performed.length := Nat.mod_le _ _
    rcases h.bound with hbound | hbound <;> omega

end

section
variable {w : Worker} {s s' : Shared} {t t' : Thread} {a : Action}

theorem pursues_initial (w : Worker) (number : Nat) : (Thread.initial number).Pursues w :=
  fun _ => heading_initial w

theorem Thread.Pursues.heading (h : t.Pursues w) (hphase : ∀ ops, t.phase ≠ .leaving ops)
    (hthrew : t.threw = false) : t.loop.Heading w := by
  unfold Thread.Pursues at h
  split at h
  · exact absurd ‹_› (hphase _)
  · exact h hthrew

theorem pursues_of_heading (hphase : ∀ ops, t.phase ≠ .leaving ops) (h : t.threw = false → t.loop.Heading w) :
    t.Pursues w := by
  unfold Thread.Pursues
  split
  · exact absurd ‹_› (hphase _)
  · exact h

theorem Thread.Pursues.ended (h : t.Pursues w) {ops : List Op} (hphase : t.phase = .leaving ops) : t.Ended w := by
  unfold Thread.Pursues at h
  rwa [hphase] at h

theorem pursues_of_ended {ops : List Op} (hphase : t.phase = .leaving ops) (h : t.Ended w) : t.Pursues w := by
  unfold Thread.Pursues
  rwa [hphase]

theorem Thread.Ended.of_eq (h : t.Ended w) (hconnected : t'.connected = t.connected)
    (hperformed : t'.loop.performed = t.loop.performed) : t'.Ended w := by
  have houtcomes : t'.loop.outcomes = t.loop.outcomes := congrArg (List.map Prod.snd) hperformed
  cases h with
  | emptyList hempty hnone hnothing =>
    exact .emptyList hempty (hconnected.trans hnone) (hperformed.trans hnothing)
  | refused hfalse hnothing => exact .refused (hconnected.trans hfalse) (hperformed.trans hnothing)
  | finished htrue hlength hlow =>
    exact .finished (hconnected.trans htrue) (by rwa [hperformed]) (by rwa [houtcomes])
  | aborted htrue hfailing hlow =>
    exact .aborted (hconnected.trans htrue) (by rwa [houtcomes]) (by rwa [houtcomes, hperformed])

/-- What every step keeps. -/
theorem Thread.Pursues.step (hvalid : t.Valid) (h : t.Pursues w)
    (hstep : t.step w a s = some (s', t')) : t'.Pursues w := by
  obtain ⟨hthrew, hmove⟩ := move_of_step hstep
  have hphase := hvalid.phase
  cases hmove with
  | emptyList b hstarting hempty =>
    rw [hstarting] at hphase
    exact pursues_of_ended rfl (.emptyList hempty hphase.2 hphase.1)
  | created hstarting =>
    exact pursues_of_heading (by simp) fun _ => h.heading (not_leaving hstarting (by simp)) hthrew
  | connected errorString hconnecting =>
    exact pursues_of_heading (by simp) fun _ => h.heading (not_leaving hconnecting (by simp)) hthrew
  | refused errorString hconnecting =>
    rw [hconnecting] at hphase
    exact pursues_of_ended rfl (.refused rfl hphase.1)
  | passed answer l hlooping hr =>
    obtain ⟨hi, hc, rfl⟩ := loopStep_none hr
    have hhead := h.heading (not_leaving hlooping (by simp)) hthrew
    exact pursues_of_heading (not_leaving hlooping (by simp)) fun _ => hhead.completed hvalid.counted hi hc
  | left answer l exit hlooping hexit hr =>
    rw [hlooping] at hphase
    have hhead := h.heading (not_leaving hlooping (by simp)) hthrew
    refine pursues_of_ended rfl ?_
    rcases hhead.left hvalid.counted hexit hr with ⟨hlength, hlow⟩ | ⟨hfailing, hlow⟩
    · exact .finished hphase hlength hlow
    · exact .aborted hphase hfailing hlow
  | operated b op ops hleaving _ =>
    exact pursues_of_ended rfl ((h.ended hleaving).of_eq rfl (foldl_apply [op] t.loop).2.2)
  | startThrew hstarting =>
    exact pursues_of_heading (not_leaving hstarting (by simp)) fun hfalse => by cases hfalse
  | connectThrew hconnecting =>
    exact pursues_of_heading (not_leaving hconnecting (by simp)) fun hfalse => by cases hfalse
  | loopThrew answer l hlooping hr =>
    exact pursues_of_heading (not_leaving hlooping (by simp)) fun hfalse => by cases hfalse
  | operationThrew op ops hleaving _ =>
    exact pursues_of_ended hleaving ((h.ended hleaving).of_eq rfl rfl)

end

/-! ### The threads of a successful worker -/

section
variable {w : Worker} {schedule : List (Nat × Action)} {c : Config Shared Thread}

theorem ended_of_joined (h : spawnWorkerThreads w schedule = some c) :
    ∀ t ∈ c.locals, t.Joined → t.threw = false → t.Ended w := by
  have hpursues : ∀ t ∈ c.locals, t.Valid ∧ t.Pursues w := by
    refine run_invariant (I := fun d : Config Shared Thread => ∀ t ∈ d.locals, t.Valid ∧ t.Pursues w)
      ?_ (fun t ht => ?_) h
    · rintro d e d' hd hnext
      obtain ⟨t, s', t', ht, hstep, rfl⟩ := next_eq_some.mp hnext
      obtain ⟨hvalid, hpursues⟩ := hd t (List.mem_of_getElem? ht)
      exact forall_mem_set hd ⟨hvalid.step hstep, hpursues.step hvalid hstep⟩
    · obtain ⟨number, _, rfl⟩ := List.mem_map.mp ht
      exact ⟨valid_initial number, pursues_initial w number⟩
  rintro t ht (hthrew | hphase) hcalm
  · rw [hthrew] at hcalm
    cases hcalm
  · exact (hpursues t ht).2.ended hphase

theorem totals_of_calm (h : spawnWorkerThreads w schedule = some c) (hjoined : ∀ t ∈ c.locals, t.Joined)
    (hcalm : ∀ t ∈ c.locals, t.threw = false) (total : Total) :
    c.shared.totals total = counts c total % 2 ^ 64 := by
  rw [totals_eq_booked h total, counts]
  congr 2
  refine List.map_congr_left fun t ht => ?_
  rcases hjoined t ht with hthrew | hphase
  · rw [hcalm t ht] at hthrew
    cases hthrew
  · exact booked_of_notMem _ hphase List.not_mem_nil

/-- The threads that are neither refused nor aborted have performed what is asked for. -/
theorem counts_finished (h : spawnWorkerThreads w schedule = some c) (hended : ∀ t ∈ c.locals, t.Ended w)
    (hconnected : ∀ t ∈ c.locals, t.connected = some true ∧ failing t.loop.outcomes < maxConFailures) :
    counts c .performed_queries_total = w.params.threads * w.params.queries_per_thread := by
  have hall : ∀ t ∈ c.locals, t.count .performed_queries_total = w.params.queries_per_thread := by
    intro t ht
    obtain ⟨htrue, hlow⟩ := hconnected t ht
    cases hended t ht with
    | emptyList _ hnone _ => simp [hnone] at htrue
    | refused hfalse _ => simp [hfalse] at htrue
    | finished _ hlength _ => exact hlength
    | aborted _ hfailing _ => omega
  rw [counts, List.map_congr_left hall, List.map_const', List.sum_replicate, length_locals_of_run h]
  rfl

end

theorem executeTests_eq_true {percentage : Nat → Nat → Str} {p : workerParams} {testConnection : Bool}
    {infile : Option Str} {schedule : List (Nat × Action)} {log : List Str}
    (h : executeTests percentage p testConnection infile schedule = some (true, log)) :
    ∃ w c, prepare p testConnection infile none = some w ∧ spawnWorkerThreads w schedule = some c ∧
      (∀ t ∈ c.locals, t.Joined) ∧ (∀ t ∈ c.locals, t.threw = false) ∧
      log = adjustTexts p w.queryList ++ c.shared.workerLog ++
        [writeFinalReport percentage c.shared.totals ++ "\n".toList] := by
  unfold executeTests at h
  cases hprepare : prepare p testConnection infile none with
  | none =>
    rw [hprepare] at h
    cases h
  | some w =>
    rw [hprepare] at h
    dsimp only at h
    cases hrun : spawnWorkerThreads w schedule with
    | none =>
      rw [hrun] at h
      cases h
    | some c =>
      rw [hrun] at h
      dsimp only at h
      split at h
      · obtain ⟨hflag, rfl⟩ := Prod.mk.inj (Option.some.inj h)
        refine ⟨w, c, rfl, hrun, ‹_›, fun t ht => ?_, rfl⟩
        rw [Bool.not_eq_true', ← Bool.not_eq_true, thread_failed_iff hrun] at hflag
        simpa using fun hthrew => hflag ⟨t, ht, hthrew⟩
      · cases h

theorem exists_infile {p : workerParams} {testConnection : Bool} {infile : Option Str}
    {previous : Option (List Str)} {w : Worker} (h : prepare p testConnection infile previous = some w) :
    ∃ file, infile = some file := by
  cases infile with
  | some file => exact ⟨file, rfl⟩
  | none =>
    unfold prepare loadQueryList at h
    cases testConnection with
    | false => cases h
    | true =>
      cases hparser : createInfileParser p with
      | none =>
        rw [hparser] at h
        cases h
      | some wInfileParser =>
        rw [hparser] at h
        cases h

/-- **What a successful worker has done.** Where `executeTests` returns `true`, its threads have gone
through the statements of the infile, as many as are asked for; each has come to its end in one of the
four ways, without an exception. The last record is the final report, with the numbers of what the threads
have done, so that no more queries have failed than were performed, and all that are asked for were
performed where no thread was refused or has aborted. -/
theorem success_accounts (percentage : Nat → Nat → Str) (p : workerParams) (testConnection : Bool)
    (infile : Option Str) (schedule : List (Nat × Action)) (log : List Str)
    (h : executeTests percentage p testConnection infile schedule = some (true, log)) :
    ∃ file w c, infile = some file ∧
      w.queryList = SqlFile.loadQueriesFromFile (p.dbtype == .ePGSQL) [] file ∧
      w.params = adjustRuntimeParams p w.queryList ∧ spawnWorkerThreads w schedule = some c ∧
      c.locals.length = w.params.threads ∧ (∀ t ∈ c.locals, t.threw = false ∧ t.Ended w) ∧
      log = adjustTexts p w.queryList ++ c.shared.workerLog ++
        [writeFinalReport percentage c.shared.totals ++ "\n".toList] ∧
      (∀ total, c.shared.totals total = counts c total % 2 ^ 64) ∧
      counts c .failed_queries_total ≤ counts c .performed_queries_total ∧
      ((∀ t ∈ c.locals, t.connected = some true ∧ failing t.loop.outcomes < maxConFailures) →
        counts c .performed_queries_total = w.params.threads * w.params.queries_per_thread) := by
  obtain ⟨w, c, hprepare, hrun, hjoined, hcalm, hlog⟩ := executeTests_eq_true h
  obtain ⟨file, rfl⟩ := exists_infile hprepare
  obtain ⟨hlist, hparams, _⟩ := prepare_eq_some hprepare
  have hended : ∀ t ∈ c.locals, t.Ended w := fun t ht =>
    ended_of_joined hrun t ht (hjoined t ht) (hcalm t ht)
  refine ⟨file, w, c, rfl, hlist, hparams, hrun, length_locals_of_run hrun,
    fun t ht => ⟨hcalm t ht, hended t ht⟩, hlog, totals_of_calm hrun hjoined hcalm, ?_,
    counts_finished hrun hended⟩
  refine List.sum_le_sum fun t _ => ?_
  show t.loop.outcomes.count false ≤ t.loop.performed.length
  rw [← length_outcomes]
  exact List.count_le_length

/-- With two threads, one of which is refused while the other performs its query, `executeTests` returns
true, and the report says that one query was performed. -/
theorem success_accounts_refused :
    ∃ log, executeTests (fun _ _ => "100.00".toList)
        { dbtype := .eMYSQL, infiletype := .eSQL, threads := 2, queries_per_thread := 1,
          query_list_maxsize := 1073741824, shuffle := true, log_all_queries := true }
        true (some "SELECT 1;\n".toList) refusedRun = some (true, log) ∧
      ∃ w c, spawnWorkerThreads w refusedRun = some c ∧ c.locals.length = 2 ∧
        log = c.shared.workerLog ++ [writeFinalReport (fun _ _ => "100.00".toList) c.shared.totals ++ "\n".toList] ∧
        c.shared.totals .performed_queries_total = counts c .performed_queries_total % 2 ^ 64 := by
  let p : workerParams :=
    { dbtype := .eMYSQL, infiletype := .eSQL, threads := 2, queries_per_thread := 1,
      query_list_maxsize := 1073741824, shuffle := true, log_all_queries := true }
  have hsuccess : (executeTests (fun _ _ => "100.00".toList) p true (some "SELECT 1;\n".toList) refusedRun).map
      Prod.fst = some true := by
    decide +kernel
  obtain ⟨⟨success, log⟩, hlog, rfl⟩ := Option.map_eq_some_iff.mp hsuccess
  obtain ⟨file, w, c, hfile, hlist, hparams, hrun, hlength, _, hreport, htotals, _⟩ :=
    success_accounts (fun _ _ => "100.00".toList) p true (some "SELECT 1;\n".toList) refusedRun log hlog
  refine ⟨log, hlog, w, c, hrun, ?_, hreport, htotals _⟩
  rw [hlength, hparams]
  rfl

end PQuery.DbWorker

import PQuery.DbWorker.Exceptions
import PQuery.Library.Records

/-!
# Sequential replay

A worker without `shuffle`, whatever its configuration says of `threads` and `queries-per-thread`: its
one thread goes through the statements of the infile (`replay_sequential`), with the same outcomes
always to the same place (`Replays.unique`).
-/

namespace PQuery.DbWorker

open Config SqlFile

/-- The thread has come to its end with a connection and without an exception. -/
def Thread.Completed (t : Thread) : Prop :=
  t.Joined ∧ t.threw = false ∧ t.connected = some true

instance (t : Thread) : Decidable t.Completed :=
  inferInstanceAs (Decidable (t.Joined ∧ t.threw = false ∧ t.connected = some true))

theorem Thread.Sequential.completed {w : Worker} {t : Thread} (h : t.Sequential w)
    (hcompleted : t.Completed) : t.loop.Through w := by
  obtain ⟨hthrew | hleaving, hthrew', hconnected⟩ := hcompleted
  · rw [hthrew] at hthrew'
    cases hthrew'
  · exact h.through _ hleaving hconnected

/-- With these outcomes, a run that completes has performed these queries. -/
def Replays (w : Worker) (outcomes : Nat → Bool) (queries : List Str) : Prop :=
  ∃ schedule c t, spawnWorkerThreads w schedule = some c ∧ c.locals = [t] ∧ t.Completed ∧
    t.loop.outcomes = outcomesOf outcomes t.loop.performed.length ∧
    queries = performedQueries w t.loop

section
variable {w : Worker}

theorem take_outcomesOf (outcomes : Nat → Bool) {m n : Nat} (h : m ≤ n) :
    (outcomesOf outcomes n).take m = outcomesOf outcomes m := by
  rw [outcomesOf, ← List.map_take, List.take_range, Nat.min_eq_left h]
  rfl

theorem Loop.Through.length_le {l l' : Loop} {outcomes : Nat → Bool} (h : l.Through w)
    (hinOrder : l'.InOrder w) (houtcomes : l.outcomes = outcomesOf outcomes l.performed.length)
    (houtcomes' : l'.outcomes = outcomesOf outcomes l'.performed.length) :
    l'.performed.length ≤ l.performed.length := by
  rcases h with hall | hfailing
  · rw [hall]
    exact hinOrder.bound
  · by_contra hlt
    have hlow := hinOrder.low _ (Nat.lt_of_not_le hlt)
    rw [houtcomes', take_outcomesOf outcomes (Nat.le_of_not_le hlt), ← houtcomes] at hlow
    omega

/-- What is performed is determined by the outcomes. -/
theorem Replays.unique (hw : Replaying w) (hthreads : w.params.threads = 1)
    {outcomes : Nat → Bool} {queries queries' : List Str} (h : Replays w outcomes queries)
    (h' : Replays w outcomes queries') : queries = queries' := by
  obtain ⟨schedule, c, t, hrun, hlocals, hcompleted, houtcomes, rfl⟩ := h
  obtain ⟨schedule', c', t', hrun', hlocals', hcompleted', houtcomes', rfl⟩ := h'
  obtain ⟨t₁, ht₁, hsequential⟩ := sequential_run hw hthreads hrun
  obtain ⟨t₂, ht₂, hsequential'⟩ := sequential_run hw hthreads hrun'
  obtain rfl : t = t₁ := (List.cons.inj (hlocals.symm.trans ht₁)).1
  obtain rfl : t' = t₂ := (List.cons.inj (hlocals'.symm.trans ht₂)).1
  have hle := (hsequential'.completed hcompleted').length_le hsequential.inOrder houtcomes' houtcomes
  have hge := (hsequential.completed hcompleted).length_le hsequential'.inOrder houtcomes houtcomes'
  rw [hsequential.inOrder.performedQueries, hsequential'.inOrder.performedQueries,
    Nat.le_antisymm hle hge]

theorem replaying_of_prepare {p : workerParams} {testConnection : Bool} {file : Str}
    {previous : Option (List Str)} (hshuffle : p.shuffle = false)
    (hmaxsize : p.query_list_maxsize = 1073741824)
    (h : prepare p testConnection (some file) previous = some w) :
    Replaying w ∧ w.params.threads = 1 := by
  obtain ⟨hlist, hparams, hsize⟩ := prepare_eq_some h
  rw [adjustRuntimeParams, if_neg (by simp [hshuffle])] at hparams
  have hlength : w.queryList.length ≤ file.length := by
    rw [hlist, splitStatements_pieces, List.nil_append]
    exact length_statements_le _ file
  refine ⟨⟨?_, ?_, ?_⟩, ?_⟩
  · rw [hparams]
    exact hshuffle
  · rw [hparams]
  · omega
  · rw [hparams]

end

theorem prepare_override {p : workerParams} (hshuffle : p.shuffle = false)
    (threads queries_per_thread : Nat) (testConnection : Bool) (infile : Option Str)
    (previous : Option (List Str)) :
    prepare { p with threads := threads, queries_per_thread := queries_per_thread } testConnection
      infile previous = prepare p testConnection infile previous := by
  have hadjust : ∀ queryList : List Str,
      adjustRuntimeParams { p with threads := threads, queries_per_thread := queries_per_thread }
        queryList = adjustRuntimeParams p queryList := by
    intro queryList
    rw [adjustRuntimeParams, adjustRuntimeParams, if_neg (by simp [hshuffle]),
      if_neg (by simp [hshuffle])]
  unfold prepare
  simp only [hadjust]
  rfl

/-- **Sequential replay.** A worker with an infile within the default limit and without `shuffle` has
one thread, and its list is that of the statements of the file. In every state of a run the thread
has performed the queries at the beginning of the list, in order; it can take a step as long as it has
not come to its end, which it does after finitely many, and where it completes it has performed all of
them unless the last 250 all failed. What the configuration says of `threads` and
`queries-per-thread` makes no difference, and with the same outcomes the same queries are
performed. -/
theorem replay_sequential (p : workerParams) (testConnection : Bool) (file : Str)
    (previous : Option (List Str)) (w : Worker) (hshuffle : p.shuffle = false)
    (hmaxsize : p.query_list_maxsize = 1073741824)
    (h : prepare p testConnection (some file) previous = some w) :
    w.params.threads = 1 ∧
      w.queryList = SqlFile.loadQueriesFromFile (p.dbtype == .ePGSQL) [] file ∧
      (∀ schedule c, spawnWorkerThreads w schedule = some c → ∃ t, c.locals = [t] ∧
        performedQueries w t.loop = w.queryList.take t.loop.performed.length ∧
        (t.Completed → performedQueries w t.loop = w.queryList ∨
          maxConFailures ≤ failing (t.loop.performed.map Prod.snd)) ∧
        (¬ t.Joined → ∃ a c', spawnWorkerThreads w (schedule ++ [(0, a)]) = some c') ∧
        schedule.length ≤ w.queryList.length + 10) ∧
      (∀ threads queries_per_thread, prepare
        { p with threads := threads, queries_per_thread := queries_per_thread } testConnection
        (some file) previous = some w) ∧
      ∀ outcomes queries queries', Replays w outcomes queries → Replays w outcomes queries' →
        queries = queries' := by
  obtain ⟨hw, hthreads⟩ := replaying_of_prepare hshuffle hmaxsize h
  refine ⟨hthreads, (prepare_eq_some h).1, ?_, ?_, ?_⟩
  · intro schedule c hrun
    obtain ⟨t, hlocals, hsequential⟩ := sequential_run hw hthreads hrun
    have hperformed := hsequential.inOrder.performedQueries
    refine ⟨t, hlocals, hperformed, fun hcompleted => ?_, fun hjoined => ?_, ?_⟩
    · rcases hsequential.completed hcompleted with hall | hfailing
      · left
        rw [hperformed, hall, List.take_length]
      · exact .inr hfailing
    · obtain ⟨a, ⟨s', t'⟩, hstep⟩ := exists_step w hjoined c.shared
      refine ⟨a, ⟨s', c.locals.set 0 t'⟩, Interleaving.run_append.mpr ⟨c, hrun, ?_⟩⟩
      have hnext : Interleaving.next (Thread.step w) c (0, a) = some ⟨s', c.locals.set 0 t'⟩ :=
        Interleaving.next_eq_some.mpr ⟨t, s', t', by rw [hlocals]; rfl, hstep, rfl⟩
      exact Interleaving.run_cons.mpr ⟨_, hnext, rfl⟩
    · have hlength := length_schedule_le (by rw [hw.queries_per_thread]; exact hw.length) hrun
      rwa [hthreads, Nat.one_mul, hw.queries_per_thread] at hlength
  · intro threads queries_per_thread
    rw [prepare_override hshuffle, h]
  · exact fun outcomes queries queries' hq hq' => hq.unique hw hthreads hq'

/-- Two statements, and what is left of a configuration that asks for 10 threads. -/
def twoStatements : Worker :=
  { params :=
      { dbtype := .eMYSQL, infiletype := .eSQL, threads := 1, queries_per_thread := 2,
        query_list_maxsize := 1073741824 }
    queryList := ["SELECT 1".toList, "SELECT 2".toList] }

def replaySchedule : List (Nat × Action) :=
  [(0, .start true), (0, .connect (some (true, []))), (0, .iterate .quiet), (0, .iterate .quiet),
    (0, .iterate .quiet), (0, .operate true), (0, .operate true), (0, .operate true)]

theorem replay_sequential_two :
    ∃ c t, prepare
        { dbtype := .eMYSQL, infiletype := .eSQL, threads := 10, query_list_maxsize := 1073741824 }
        true (some "SELECT 1;\nSELECT 2;\n".toList) none = some twoStatements ∧
      spawnWorkerThreads twoStatements replaySchedule = some c ∧ c.locals = [t] ∧ t.Completed ∧
      performedQueries twoStatements t.loop = ["SELECT 1".toList, "SELECT 2".toList] := by
  have hw : prepare
      { dbtype := .eMYSQL, infiletype := .eSQL, threads := 10, query_list_maxsize := 1073741824 }
      true (some "SELECT 1;\nSELECT 2;\n".toList) none = some twoStatements := by
    obtain ⟨w, hw⟩ : ∃ w, prepare
        { dbtype := .eMYSQL, infiletype := .eSQL, threads := 10, query_list_maxsize := 1073741824 }
        true (some "SELECT 1;\nSELECT 2;\n".toList) none = some w := ⟨_, rfl⟩
    obtain ⟨hlist, hparams, _⟩ := prepare_eq_some hw
    obtain ⟨params, queryList⟩ := w
    obtain rfl : queryList = twoStatements.queryList := hlist.trans (by decide +kernel)
    obtain rfl : params = twoStatements.params := hparams
    exact hw
  have hrun : (spawnWorkerThreads twoStatements replaySchedule).map (fun c =>
      c.locals.map fun t => (decide t.Completed, t.loop.performed)) =
      some [(true, [(0, true), (1, true)])] := by
    decide +kernel
  obtain ⟨c, hc, hfields⟩ := Option.map_eq_some_iff.mp hrun
  obtain ⟨_, _, hruns, _⟩ := replay_sequential _ true _ none twoStatements rfl rfl hw
  obtain ⟨t, hlocals, _, hall, _⟩ := hruns replaySchedule c hc
  rw [hlocals, List.map_singleton, List.singleton_inj] at hfields
  obtain ⟨hcompleted, hperformed⟩ : t.Completed ∧ t.loop.performed = [(0, true), (1, true)] := by
    simpa using hfields
  refine ⟨c, t, hw, hc, hlocals, hcompleted, (hall hcompleted).resolve_right ?_⟩
  rw [hperformed]
  decide

end PQuery.DbWorker

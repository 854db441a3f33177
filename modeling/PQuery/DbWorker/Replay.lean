import PQuery.DbWorker.Loop
import PQuery.SqlFile.Records

/-!
# Replaying a thread log

With `log-all-queries` the log of a thread is made of records (`history_of_runLoop`): each query
with its annotation and a newline, and no delimiter between them. So the log of a run is read back as
the queries of the run only where there is one at most (`log_replays`).
-/

namespace PQuery.DbWorker

open Config SqlFile

/-- What a worker has once it has loaded its SQL file. -/
def loadWorker (dollarQuoting : Bool) (file : Str) (p : workerParams) : Worker :=
  let queryList := loadQueriesFromFile dollarQuoting [] file
  { params := adjustRuntimeParams p queryList, queryList := queryList }

/-- The queries that were performed. -/
def performedQueries (w : Worker) (l : Loop) : List Str := l.performed.map fun r => w.query r.1

/-- Whether something is written behind a query in its record. -/
def annotated (p : workerParams) : Bool :=
  p.log_query_statistics || p.log_query_duration || p.log_query_numbers

/-! ### What a run writes -/

section
variable {w : Worker} {answers : Nat → Answer}

/-- The number of the query of a pass. -/
def numberAt (w : Worker) (answers : Nat → Answer) (k : Nat) : Nat :=
  if w.params.shuffle then (answers k).drawn % 2 ^ 32 else k % 2 ^ 32

/-- The record of a pass: its query and its annotation. -/
def record (w : Worker) (answers : Nat → Answer) (k : Nat) : Str × Str :=
  (w.query (numberAt w answers k), (annotationTexts w (numberAt w answers k) (answers k)).flatten)

theorem foldl_threadLog (texts : List Str) (l : Loop) :
    (texts.map Op.threadLog).foldl Loop.apply l =
      { l with threadLog := l.threadLog ++ texts } := by
  induction texts generalizing l with
  | nil => simp
  | cons text texts ih =>
    rw [List.map_cons, List.foldl_cons, ih]
    simp [Loop.apply]

theorem foldl_outputLog (texts : List Str) (l : Loop) :
    (texts.map Op.outputLog).foldl Loop.apply l =
      { l with outputLog := l.outputLog ++ texts } := by
  induction texts generalizing l with
  | nil => simp
  | cons text texts ih =>
    rw [List.map_cons, List.foldl_cons, ih]
    simp [Loop.apply]

theorem completed_threadLog (a : Answer) (l : Loop) :
    (l.completed w a).threadLog = l.threadLog ++ threadTexts w (queryNumber w a l) a := by
  simp only [Loop.completed, bodyOps, List.foldl_append, foldl_threadLog, foldl_outputLog]
  rfl

theorem flatten_threadTexts (hall : w.params.log_all_queries = true) (query_number : Nat)
    (a : Answer) : (threadTexts w query_number a).flatten =
      recordText (w.query query_number, (annotationTexts w query_number a).flatten) := by
  have hlogs : logsThread w.params = true := by simp [logsThread, hall]
  simp [threadTexts, queryTexts, hlogs, hall, recordText]

/-- The history and the log of a loop that has not been left. -/
theorem history_of_runLoop (hall : w.params.log_all_queries = true) {n : Nat} {l : Loop}
    (h : runLoop w answers n = (l, none)) :
    l.performed = (List.range n).map (fun k => (numberAt w answers k, (answers k).success)) ∧
      l.threadLog.flatten = ((List.range n).map (record w answers)).flatMap recordText := by
  refine (runLoop_induction (motive := fun n l => AtHead answers n l ∧
    l.performed = (List.range n).map (fun k => (numberAt w answers k, (answers k).success)) ∧
      l.threadLog.flatten = ((List.range n).map (record w answers)).flatMap recordText)
    ⟨atHead_initial, rfl, rfl⟩ ?_ h).2
  rintro n l ⟨hhead, hperformed, hlog⟩ _ hc
  have hnumber : queryNumber w (answers n) l = numberAt w answers n := by
    rw [queryNumber, numberAt, hhead.counter]
  refine ⟨hhead.completed hc, ?_, ?_⟩
  · rw [List.range_succ, List.map_append, ← hperformed, List.map_singleton, ← hnumber]
    exact (foldl_apply _ _).2.2
  · rw [completed_threadLog, List.flatten_append, hlog, hnumber, flatten_threadTexts hall,
      List.range_succ, List.map_append, List.flatMap_append]
    simp [record]

/-! ### Annotations are comments -/

theorem newline_notMem_annotation {query_number : Nat} {a : Answer} (herror : '\n' ∉ a.errorString) :
    ∀ text ∈ annotationTexts w query_number a, '\n' ∉ text := by
  have hnumber : ∀ n : Nat, '\n' ∉ to_string n := fun n h =>
    absurd ((to_string_digits n).2 _ h) (by decide)
  have hduration : '\n' ∉ a.queryDurationMs.text := fun h =>
    absurd (a.queryDurationMs.isNumeral _ h) (by decide)
  have hstatistics : ∀ text ∈ (if a.success then ["#NOERROR".toList]
      else ["#ERROR ".toList, a.errorString]) ++ ["#WARNINGS: ".toList, to_string a.warningsCount,
        "#CHANGED: ".toList, to_string a.affectedRows], '\n' ∉ text := by
    cases a.success <;> simp [herror, hnumber]
  intro text htext
  unfold annotationTexts numberText at htext
  rcases List.mem_append.mp htext with htext | htext
  · rcases List.mem_append.mp htext with htext | htext
    · split at htext
      · exact hstatistics text htext
      · cases htext
    · split at htext
      · simp only [List.mem_cons, List.not_mem_nil, or_false] at htext
        rcases htext with rfl | rfl | rfl
        · decide
        · exact hduration
        · decide
      · cases htext
  · split at htext
    · simp only [List.mem_cons, List.not_mem_nil, or_false] at htext
      rcases htext with rfl | rfl
      · decide
      · exact hnumber _
    · cases htext

theorem annotation_annotationTexts {query_number : Nat} {a : Answer}
    (herror : '\n' ∉ a.errorString) :
    Annotation (annotated w.params) (annotationTexts w query_number a).flatten := by
  have hnl : '\n' ∉ (annotationTexts w query_number a).flatten := by
    intro hmem
    obtain ⟨text, htext, hmem⟩ := List.mem_flatten.mp hmem
    exact newline_notMem_annotation herror text htext hmem
  have hhead : annotated w.params = true →
      ∃ x, (annotationTexts w query_number a).flatten = '#' :: x := by
    intro h
    simp only [annotationTexts]
    cases hstatistics : w.params.log_query_statistics with
    | true => cases a.success <;> exact ⟨_, rfl⟩
    | false =>
      cases hduration : w.params.log_query_duration with
      | true => exact ⟨_, rfl⟩
      | false =>
        cases hnumbers : w.params.log_query_numbers with
        | true => exact ⟨_, rfl⟩
        | false => simp [annotated, hstatistics, hduration, hnumbers] at h
  unfold Annotation
  cases h : annotated w.params with
  | true =>
    obtain ⟨x, hx⟩ := hhead h
    rw [if_pos rfl, hx]
    rw [hx, List.mem_cons, not_or] at hnl
    exact ⟨x, rfl, hnl.2⟩
  | false =>
    simp only [annotated, Bool.or_eq_false_iff] at h
    simp [annotationTexts, h]

end

/-! ### Runs -/

section
variable {dollarQuoting : Bool} {file : Str} {p : workerParams} {answers : Nat → Answer}

theorem numberAt_lt {n : Nat} {l : Loop}
    (hdrawn : p.shuffle = true →
      ∀ k, (answers k).drawn < (loadWorker dollarQuoting file p).queryList.length)
    (h : runLoop (loadWorker dollarQuoting file p) answers n = (l, none)) :
    ∀ k < n, numberAt (loadWorker dollarQuoting file p) answers k <
      (loadWorker dollarQuoting file p).queryList.length := by
  refine (runLoop_induction (motive := fun n l => AtHead answers n l ∧
    ∀ k < n, numberAt (loadWorker dollarQuoting file p) answers k <
      (loadWorker dollarQuoting file p).queryList.length)
    ⟨atHead_initial, fun k hk => absurd hk (by omega)⟩ ?_ h).2
  rintro n l ⟨hhead, hlt⟩ hi hc
  refine ⟨hhead.completed hc, fun k hk => ?_⟩
  by_cases hkn : k = n
  · subst hkn
    unfold numberAt
    by_cases hshuffle : p.shuffle = true
    · rw [if_pos (by rw [loadWorker, adjustRuntimeParams, if_pos hshuffle]; exact hshuffle)]
      exact Nat.lt_of_le_of_lt (Nat.mod_le _ _) (hdrawn hshuffle k)
    · have hparams : (loadWorker dollarQuoting file p).params.shuffle = p.shuffle ∧
          (loadWorker dollarQuoting file p).params.queries_per_thread =
            (loadWorker dollarQuoting file p).queryList.length := by
        rw [loadWorker, adjustRuntimeParams, if_neg hshuffle]
        exact ⟨rfl, rfl⟩
      rw [hhead.counter, hparams.2] at hi
      rw [hparams.1, if_neg hshuffle]
      exact hi
  · exact hlt k (by omega)

theorem query_trimmed {k : Nat}
    (h : k < (loadWorker dollarQuoting file p).queryList.length) :
    trim ((loadWorker dollarQuoting file p).query k) = (loadWorker dollarQuoting file p).query k ∧
      (loadWorker dollarQuoting file p).query k ≠ [] := by
  have hmem : (loadWorker dollarQuoting file p).query k ∈
      (loadWorker dollarQuoting file p).queryList := by
    rw [Worker.query, List.getD_eq_getElem?_getD, List.getElem?_eq_getElem h, Option.getD_some]
    exact List.getElem_mem h
  have hlist : (loadWorker dollarQuoting file p).queryList = statements dollarQuoting file :=
    splitStatements_pieces dollarQuoting [] file
  rw [hlist] at hmem
  exact mem_statementsFrom hmem

/-- **Replaying.** A run over the statements of a file, with all queries logged and no line break in
an error text, that goes on until its loop is finished: if it has performed no query, or one that
stands alone, its log is read back as what it has performed. Otherwise it is not, at least where
nothing but the queries is written or each of them is closed. -/
theorem log_replays (dollarQuoting : Bool) (file : Str) (p : workerParams)
    (answers : Nat → Answer) (n : Nat) (l : Loop) (hall : p.log_all_queries = true)
    (hdrawn : p.shuffle = true →
      ∀ k, (answers k).drawn < (loadWorker dollarQuoting file p).queryList.length)
    (herror : ∀ k, '\n' ∉ (answers k).errorString)
    (h : runLoop (loadWorker dollarQuoting file p) answers n = (l, some .finished)) :
    let performed := performedQueries (loadWorker dollarQuoting file p) l
    (Replayable dollarQuoting (annotated p) performed →
        loadQueriesFromFile dollarQuoting [] l.threadLog.flatten = performed) ∧
      ((annotated p = true → ∀ q ∈ performed, Closed dollarQuoting q) →
        loadQueriesFromFile dollarQuoting [] l.threadLog.flatten = performed →
          Replayable dollarQuoting (annotated p) performed) := by
  obtain ⟨m, hm, _⟩ := finished_of_runLoop h
  have hparams : (loadWorker dollarQuoting file p).params.log_all_queries = true ∧
      annotated (loadWorker dollarQuoting file p).params = annotated p := by
    unfold loadWorker adjustRuntimeParams
    split
    · exact ⟨hall, rfl⟩
    · exact ⟨hall, rfl⟩
  obtain ⟨hperformed, hlog⟩ := history_of_runLoop hparams.1 hm
  let recs := (List.range m).map (record (loadWorker dollarQuoting file p) answers)
  have hqueries : performedQueries (loadWorker dollarQuoting file p) l = recs.map Prod.fst := by
    rw [performedQueries, hperformed, List.map_map, List.map_map]
    rfl
  have htrim : ∀ r ∈ recs, trim r.1 = r.1 ∧ r.1 ≠ [] := by
    intro r hr
    obtain ⟨k, hk, rfl⟩ := List.mem_map.mp hr
    exact query_trimmed (numberAt_lt hdrawn hm k (List.mem_range.mp hk))
  have hann : ∀ r ∈ recs, Annotation (annotated p) r.2 := by
    intro r hr
    obtain ⟨k, _, rfl⟩ := List.mem_map.mp hr
    rw [← hparams.2]
    exact annotation_annotationTexts (herror k)
  have hload : loadQueriesFromFile dollarQuoting [] l.threadLog.flatten =
      statements dollarQuoting (recs.flatMap recordText) := by
    rw [hlog]
    exact splitStatements_pieces dollarQuoting [] _
  show (Replayable _ _ (performedQueries _ l) → _ = performedQueries _ l) ∧
    ((_ → ∀ q ∈ performedQueries _ l, _) → _ = performedQueries _ l →
      Replayable _ _ (performedQueries _ l))
  rw [hload, hqueries]
  constructor
  · intro hreplayable
    refine (statements_records_iff htrim hann fun hannotated r hr => ?_).mpr hreplayable
    rcases hreplayable with hnil | ⟨q, hone, halone⟩
    · rw [List.map_eq_nil_iff.mp hnil] at hr
      cases hr
    · have hq : r.1 ∈ recs.map Prod.fst := List.mem_map_of_mem hr
      rw [hone, List.mem_singleton] at hq
      rw [hannotated] at halone
      exact hq ▸ halone
  · intro hclosed
    exact (statements_records_iff htrim hann fun hannotated r hr =>
      hclosed hannotated r.1 (List.mem_map_of_mem hr)).mp

end

/-- One query whose record has a number. -/
theorem log_replays_single :
    ∃ l, runLoop (loadWorker false "SELECT 'a;b';\n".toList
        { log_all_queries := true, log_query_numbers := true }) (fun _ => .quiet) 2 =
          (l, some .finished) ∧
      l.threadLog.flatten = "SELECT 'a;b'#1\n".toList ∧
      loadQueriesFromFile false [] l.threadLog.flatten = ["SELECT 'a;b'".toList] := by
  refine ⟨_, Prod.ext rfl (by decide +kernel), by decide +kernel, ?_⟩
  have hperformed : performedQueries (loadWorker false "SELECT 'a;b';\n".toList
      { log_all_queries := true, log_query_numbers := true })
      (runLoop (loadWorker false "SELECT 'a;b';\n".toList
        { log_all_queries := true, log_query_numbers := true }) (fun _ => .quiet) 2).1 =
      ["SELECT 'a;b'".toList] := by
    decide +kernel
  have hclosed : Closed false "SELECT 'a;b'".toList :=
    ⟨(pieces false true semicolon "SELECT 'a;b'#\n".toList).dropLast, by decide +kernel,
      by decide +kernel⟩
  have hreplay := (log_replays false "SELECT 'a;b';\n".toList
    { log_all_queries := true, log_query_numbers := true } (fun _ => .quiet) 2 _ rfl
    (fun hshuffle => by cases hshuffle) (fun _ => List.not_mem_nil)
    (Prod.ext rfl (by decide +kernel))).1 (.inr ⟨_, hperformed, hclosed⟩)
  exact hreplay.trans hperformed

/-- Two queries are read back as one. -/
theorem not_log_replays :
    ∃ l, runLoop (loadWorker false "SELECT 1;\nSELECT 2;\n".toList { log_all_queries := true })
        (fun _ => .quiet) 3 = (l, some .finished) ∧
      loadQueriesFromFile false [] l.threadLog.flatten ≠
        performedQueries (loadWorker false "SELECT 1;\nSELECT 2;\n".toList
          { log_all_queries := true }) l := by
  refine ⟨_, Prod.ext rfl (by decide +kernel), ?_⟩
  decide +kernel

end PQuery.DbWorker

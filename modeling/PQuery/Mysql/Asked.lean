import PQuery.DbWorker.ExecuteTests
import PQuery.Mysql.Sync

/-!
# What the server is asked

The queries that reach the server over the connection of a thread are those of the thread's history, one
for one and in order: `processQueryOutput` asks nothing (`asked_processResults`), and a pass sends its query
once or not at all (`asked_runConnected`). Without `shuffle` they are the statements of the infile, from the
first one on (`asked_in_order`).
-/

namespace PQuery.Mysql

open DbWorker

/-- The queries among the calls. -/
def asked (calls : List Call) : List Str := calls.filterMap fun
  | .mysql_real_query query => some query
  | _ => none

@[simp] theorem asked_append (calls calls' : List Call) : asked (calls ++ calls') = asked calls ++ asked calls' :=
  List.filterMap_append

section
variable {w : Worker} {answers : Nat → Answer} {replies : Nat → Reply} {a : Answer} {reply : Reply}
  {l l' : Loop} {conn : MYSQL}

/-! ### The calls of `processQueryOutput` -/

@[simp] theorem asked_store (conn : MYSQL) : asked (mysql_store_result conn).1.calls = asked conn.calls := by
  unfold mysql_store_result
  split <;> exact (asked_append _ _).trans (List.append_nil _)

@[simp] theorem asked_free (conn : MYSQL) (result : MYSQL_RES) :
    asked (mysql_free_result conn result).calls = asked conn.calls :=
  (asked_append _ _).trans (List.append_nil _)

@[simp] theorem asked_next (conn : MYSQL) : asked (mysql_next_result conn).1.calls = asked conn.calls := by
  unfold mysql_next_result
  split <;> exact (asked_append _ _).trans (List.append_nil _)

@[simp] theorem asked_discard (conn : MYSQL) : asked (discard conn).calls = asked conn.calls := by
  unfold discard
  cases hstored : (mysql_store_result conn).2 <;> simp [hstored]

theorem asked_drain (conn : MYSQL) : asked (drain conn).calls = asked conn.calls := by
  induction conn using drain.induct with
  | case1 conn next hcode ih =>
    have hzero : (mysql_next_result conn).2 = 0 := hcode
    rw [drain]
    simp only [dif_pos hzero]
    exact ih.trans (by simp [next])
  | case2 conn next hcode =>
    have hnonzero : (mysql_next_result conn).2 ≠ 0 := hcode
    rw [drain]
    simp only [dif_neg hnonzero, asked_next]

theorem asked_processResults (throwsAt : Option Nat) (conn : MYSQL) (queryResult : Str) :
    asked (processResults throwsAt conn queryResult).1.calls = asked conn.calls := by
  induction throwsAt, conn, queryResult using processResults_induction with
  | skipped throwsAt conn queryResult _ _ _ hloop ih => rw [hloop, ih, asked_next, asked_store]
  | skippedLast throwsAt conn queryResult _ _ _ hloop => rw [hloop, asked_next, asked_store]
  | unreadable throwsAt conn queryResult _ _ hloop => rw [hloop, asked_drain, asked_store]
  | throws throwsAt conn queryResult result _ _ hloop => rw [hloop, asked_store]
  | shown throwsAt conn queryResult result _ _ _ hloop ih =>
    rw [hloop, ih, asked_next, asked_free, asked_store]
  | shownLast throwsAt conn queryResult result _ _ _ hloop =>
    rw [hloop, asked_next, asked_free, asked_store]

/-! ### The queries of a run -/

/-- The query of a pass, where it is made. -/
def passQuery (w : Worker) (a : Answer) (l : Loop) : List Str :=
  if l.i < w.params.queries_per_thread ∧ a.queryThrows = false then [w.query (queryNumber w a l)] else []

theorem passQuery_answer : passQuery w (answer w a reply l conn) l = passQuery w a l := by
  obtain ⟨_, _, hanswer⟩ := @answer_eq w a reply l conn
  rw [hanswer]
  rfl

theorem asked_connectionAfter (w : Worker) (a : Answer) (reply : Reply) (l : Loop) (conn : MYSQL) :
    asked (connectionAfter w a reply l conn).calls = asked conn.calls ++ passQuery w a l := by
  have hthrows : (answer w a reply l conn).queryThrows = a.queryThrows := by
    obtain ⟨_, _, hanswer⟩ := @answer_eq w a reply l conn
    rw [hanswer]
    rfl
  have hsent : asked (performRealQuery conn (w.query (queryNumber w a l)) reply).1.calls =
      asked conn.calls ++ [w.query (queryNumber w a l)] := asked_append _ _
  unfold connectionAfter passQuery
  by_cases hmade : l.i < w.params.queries_per_thread ∧ a.queryThrows = false
  · rw [if_pos hmade, ← hsent]
    simp only [hthrows, if_neg (by simp [hmade] : ¬ (w.params.queries_per_thread ≤ l.i ∨ a.queryThrows = true))]
    split
    · rfl
    · exact asked_processResults _ _ _
  · have hnot : w.params.queries_per_thread ≤ l.i ∨ a.queryThrows = true := by
      rwa [not_and_or, Nat.not_lt, Bool.not_eq_false] at hmade
    rw [if_neg hmade, List.append_nil]
    simp only [hthrows, if_pos hnot]

theorem performedQueries_loopStep (w : Worker) (a : Answer) (l : Loop) :
    performedQueries w (loopStep w a l).1 = performedQueries w l ++ passQuery w a l := by
  have hperform : ∀ l' : Loop, l'.performed = (l.perform w a).performed →
      performedQueries w l' = performedQueries w l ++ [w.query (queryNumber w a l)] := by
    intro l' hsame
    rw [performedQueries, hsame]
    exact List.map_append
  unfold loopStep passQuery
  by_cases hi : l.i < w.params.queries_per_thread
  · rw [if_pos hi]
    rcases iteration_cases (w := w) (a := a) (l := l) with ⟨hquery, hr⟩ | ⟨hquery, _, hr⟩ |
      ⟨hquery, _, _, hr⟩ | ⟨hquery, _, _, hr⟩
    · rw [hr, if_neg (by simp [hquery]), List.append_nil]
    · rw [hr, if_pos ⟨hi, hquery⟩, hperform _ rfl]
    · rw [hr, if_pos ⟨hi, hquery⟩, hperform _ (foldl_apply _ _).2.2]
    · rw [hr, if_pos ⟨hi, hquery⟩, hperform (l.completed w a) (foldl_apply _ _).2.2]
  · rw [if_neg hi, if_neg fun h => hi h.1, List.append_nil]

/-- The server is asked what the thread performs. -/
theorem asked_runConnected (n : Nat) : asked (runConnected w answers replies n).2.calls =
    performedQueries w (runConnected w answers replies n).1.1 := by
  induction n with
  | zero => rfl
  | succ n ih =>
    rw [runConnected]
    rcases hr : runConnected w answers replies n with ⟨⟨l, _ | exit⟩, conn⟩
    · rw [hr] at ih
      show asked (connectionAfter w (answers n) (replies n) l conn).calls = _
      rw [asked_connectionAfter, performedQueries_loopStep, passQuery_answer, ih]
    · rw [hr] at ih
      exact ih

theorem mem_of_asked (hlength : w.queryList.length ≤ 2 ^ 31) (hshuffle : w.params.shuffle = true)
    (hdrawn : ∀ k, (answers k).drawn < w.queryList.length) (n : Nat) :
    ∀ query ∈ asked (runConnected w answers replies n).2.calls, query ∈ w.queryList := by
  induction n with
  | zero => exact fun query hquery => absurd hquery List.not_mem_nil
  | succ n ih =>
    rw [runConnected]
    rcases hr : runConnected w answers replies n with ⟨⟨l, _ | exit⟩, conn⟩
    · rw [hr] at ih
      intro query hquery
      have hlast := (asked_connectionAfter w (answers n) (replies n) l conn).symm ▸ hquery
      rcases List.mem_append.mp hlast with hbefore | hlast
      · exact ih query hbefore
      · unfold passQuery at hlast
        split at hlast
        · have hlt := hdrawn n
          have hnumber : queryNumber w (answers n) l = (answers n).drawn := by
            rw [queryNumber, if_pos hshuffle, Nat.mod_eq_of_lt (by omega)]
          rw [List.mem_singleton.mp hlast, hnumber, Worker.query, List.getD_eq_getElem?_getD, List.getElem?_eq_getElem hlt]
          exact List.getElem_mem hlt
        · cases hlast
    · rw [hr] at ih
      exact ih

theorem inOrder_of_runLoop (hw : Replaying w) {n : Nat} (h : runLoop w answers n = (l, none)) :
    AtHead answers n l ∧ l.InOrder w ∧ l.Proceeds := by
  refine runLoop_induction (motive := fun n l => AtHead answers n l ∧ l.InOrder w ∧ l.Proceeds)
    ⟨atHead_initial, inOrder_initial w, proceeds_initial⟩ ?_ h
  rintro n l ⟨hhead, hinOrder, hproceeds⟩ hi hc
  have hstep : loopStep w (answers n) l = (l.completed w (answers n), none) := by
    rw [loopStep, if_pos hi, iteration_of_continues hc]
  obtain ⟨hnext, hgoes, -⟩ := loopStep_inOrder hw hhead.counted hinOrder hproceeds hstep
  exact ⟨hhead.completed hc, hnext, hgoes rfl⟩

theorem asked_in_order (hw : Replaying w) (n : Nat) :
    (runConnected w answers replies n).1.1.InOrder w ∧
      ∀ exit, (runConnected w answers replies n).1.2 = some exit → exit ≠ .threw →
        (runConnected w answers replies n).1.1.Through w := by
  rw [runConnected_loop]
  rcases hr : runLoop w (loopAnswers w answers replies) n with ⟨l, _ | exit⟩
  · exact ⟨(inOrder_of_runLoop hw hr).2.1, fun _ hexit => by cases hexit⟩
  · obtain ⟨m, l₀, hbefore, hstep⟩ := exited_of_runLoop hr
    obtain ⟨hhead, hinOrder, hproceeds⟩ := inOrder_of_runLoop hw hbefore
    obtain ⟨hafter, -, hthrough⟩ := loopStep_inOrder hw hhead.counted hinOrder hproceeds hstep
    exact ⟨hafter, hthrough⟩

end

/-- **What the server is asked.** The queries that reach the server over the connection of a thread are those
that the thread performs, one for one and in order, and all of them are statements of the infile. Without
`shuffle` they are its statements from the first one on: all of them where the loop has come to its end,
unless the last 250 have failed. -/
theorem queries_asked (p : Config.workerParams) (testConnection : Bool) (file : Str)
    (previous : Option (List Str)) (w : Worker) (hdbtype : p.dbtype = .eMYSQL)
    (h : prepare p testConnection (some file) previous = some w) (hlength : w.queryList.length ≤ 2 ^ 31)
    (answers : Nat → Answer) (hdrawn : p.shuffle = true → ∀ k, (answers k).drawn < w.queryList.length)
    (replies : Nat → Reply) (n : Nat) :
    let run := runConnected w answers replies n
    let statements := SqlFile.loadQueriesFromFile false [] file
    asked run.2.calls = performedQueries w run.1.1 ∧
      (∀ query ∈ asked run.2.calls, query ∈ statements) ∧
      (p.shuffle = false → asked run.2.calls = statements.take run.1.1.performed.length ∧
        ∀ exit, run.1.2 = some exit → exit ≠ .threw →
          asked run.2.calls = statements ∨ maxConFailures ≤ failing run.1.1.outcomes) := by
  intro run statements
  obtain ⟨hlist, hparams, -⟩ := prepare_eq_some h
  have hstatements : statements = w.queryList := by
    rw [hlist, hdbtype]
    rfl
  have hasked : asked run.2.calls = performedQueries w run.1.1 := asked_runConnected n
  rw [hstatements]
  cases hshuffle : p.shuffle with
  | true =>
    have hsame : w.params.shuffle = true := by
      rw [hparams, adjustRuntimeParams, if_pos hshuffle, hshuffle]
    exact ⟨hasked, mem_of_asked hlength hsame (hdrawn hshuffle) n, fun hfalse => by cases hfalse⟩
  | false =>
    have hw : Replaying w := by
      rw [adjustRuntimeParams, if_neg (by simp [hshuffle])] at hparams
      refine ⟨?_, ?_, by omega⟩
      · rw [hparams]
        exact hshuffle
      · rw [hparams]
    obtain ⟨hinOrder, hthrough⟩ := @asked_in_order w answers replies hw n
    have htake := hasked.trans hinOrder.performedQueries
    refine ⟨hasked, fun query hquery => List.mem_of_mem_take (htake ▸ hquery), fun _ => ⟨htake, ?_⟩⟩
    intro exit hexit hthrew
    rcases hthrough exit hexit hthrew with hall | hfailing
    · left
      rw [htake]
      exact List.take_of_length_le hall.ge
    · exact .inr hfailing

/-- A worker that is asked for ten threads, and sends its two statements once. -/
theorem queries_asked_two :
    ∃ w, prepare
        { dbtype := .eMYSQL, infiletype := .eSQL, threads := 10, query_list_maxsize := 1073741824 }
        true (some "SELECT 1;\nSELECT 2;\n".toList) none = some w ∧
      asked (runConnected w (fun _ => .quiet) (fun _ => ⟨[.ok], MYSQL.connected.last, 0, none⟩) 3).2.calls =
        ["SELECT 1".toList, "SELECT 2".toList] := by
  let p : Config.workerParams :=
    { dbtype := .eMYSQL, infiletype := .eSQL, threads := 10, query_list_maxsize := 1073741824 }
  obtain ⟨w, hw⟩ : ∃ w, prepare p true (some "SELECT 1;\nSELECT 2;\n".toList) none = some w := ⟨_, rfl⟩
  have hstatements : SqlFile.loadQueriesFromFile false [] "SELECT 1;\nSELECT 2;\n".toList =
      ["SELECT 1".toList, "SELECT 2".toList] := by decide +kernel
  obtain ⟨hlist, hparams, -⟩ := prepare_eq_some hw
  obtain rfl : w = ⟨{ p with threads := 1, queries_per_thread := 2 }, ["SELECT 1".toList, "SELECT 2".toList]⟩ := by
    obtain ⟨params, queryList⟩ := w
    obtain rfl : queryList = ["SELECT 1".toList, "SELECT 2".toList] := hlist.trans hstatements
    obtain rfl : params = { p with threads := 1, queries_per_thread := 2 } := hparams
    rfl
  refine ⟨_, hw, ?_⟩
  obtain ⟨-, -, hsequential⟩ := queries_asked p true "SELECT 1;\nSELECT 2;\n".toList none _ rfl hw (by decide)
    (fun _ => .quiet) (fun hshuffle => by cases hshuffle) (fun _ => ⟨[.ok], MYSQL.connected.last, 0, none⟩) 3
  rcases (hsequential rfl).2 .finished (by decide +kernel) (by decide) with hall | hfailing
  · exact hall.trans hstatements
  · exact absurd hfailing (by decide +kernel)

end PQuery.Mysql

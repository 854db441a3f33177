import PQuery.DbWorker.Loop
import PQuery.Mysql.Client

/-!
# The connection stays in sync

A thread of a MySQL worker: the query loop with its connection. `processQueryOutput` leaves no result
pending, whichever of its three exits it takes: each ends with a `mysql_next_result` that has
returned something other than 0 (`Settled`). So the next query finds the connection idle, over all
passes of the loop, and what has been stored has been freed (`Tidy`). An exception is a fourth way
out of the function: it comes between `mysql_store_result` and `mysql_free_result`, and leaves the
stored result behind (`Leaking`).
-/

namespace PQuery.Mysql

open DbWorker

/-! ### The history of a connection -/

/-- The call is a query. -/
def Call.IsQuery (call : Call) : Prop := ∃ query, call = .mysql_real_query query

/-- The last `mysql_next_result` comes after the last query and has not returned 0. -/
def Settled (calls : List Call) : Prop :=
  ∃ before code after, calls = before ++ .mysql_next_result code :: after ∧ code ≠ 0 ∧
    ∀ call ∈ after, ¬ call.IsQuery ∧ ∀ code, call ≠ .mysql_next_result code

/-- Nothing has been asked, or nothing more is to be expected. -/
def Idle (calls : List Call) : Prop := (∀ call ∈ calls, ¬ call.IsQuery) ∨ Settled calls

/-- Every query was made on an idle connection. -/
def Synchronized (calls : List Call) : Prop :=
  ∀ before query after, calls = before ++ .mysql_real_query query :: after → Idle before

/-- What the program keeps of a connection, but for a result that is just in use. -/
structure Tidy (conn : MYSQL) : Prop where
  synchronized : Synchronized conn.calls
  stored : ∀ handle, conn.calls.count (.mysql_store_result (some handle)) =
    if handle < conn.handles then 1 else 0
  freed : ∀ handle, conn.calls.count (.mysql_free_result handle) =
    if handle < conn.handles then 1 else 0

/-- A result has been stored and not been freed. -/
structure Leaking (conn : MYSQL) : Prop where
  synchronized : Synchronized conn.calls
  leaked : ∃ handle, .mysql_store_result (some handle) ∈ conn.calls ∧
    .mysql_free_result handle ∉ conn.calls

/-- The results of the last query have all been taken. -/
structure Finished (conn : MYSQL) : Prop where
  pending : conn.pending = []
  settled : Settled conn.calls

section
variable {calls : List Call} {call : Call} {conn : MYSQL}

theorem Synchronized.concat (h : Synchronized calls) (hcall : call.IsQuery → Idle calls) :
    Synchronized (calls ++ [call]) := by
  intro before query after heq
  rcases List.append_eq_append_iff.mp heq with ⟨l, hl, hr⟩ | ⟨l, hl, hr⟩
  · cases l with
    | nil =>
      rw [List.append_nil] at hl
      rw [hl]
      exact hcall ⟨query, (List.cons.inj hr).1⟩
    | cons c l =>
      have hlength := congrArg List.length hr
      simp at hlength
  · cases l with
    | nil =>
      rw [List.append_nil] at hl
      rw [← hl]
      exact hcall ⟨query, (List.cons.inj hr).1.symm⟩
    | cons c l =>
      obtain ⟨rfl, _⟩ := List.cons.inj hr
      exact h before query l hl

theorem settled_concat {code : Int} (hcode : code ≠ 0) : Settled (calls ++ [.mysql_next_result code]) :=
  ⟨calls, code, [], rfl, hcode, fun _ h => absurd h List.not_mem_nil⟩

theorem count_concat_of_ne {other : Call} (h : call ≠ other) :
    (calls ++ [call]).count other = calls.count other := by
  simp [List.count_append, h]

/-! ### The calls -/

theorem Tidy.real_query (h : Tidy conn) (hidle : Idle conn.calls) (query : Str) (reply : Reply) :
    Tidy (mysql_real_query conn query reply).1 := by
  obtain ⟨hsync, hstored, hfreed⟩ := h
  refine ⟨hsync.concat fun _ => hidle, fun handle => ?_, fun handle => ?_⟩
  · exact (count_concat_of_ne (by simp)).trans (hstored handle)
  · exact (count_concat_of_ne (by simp)).trans (hfreed handle)

theorem Tidy.concat (h : Tidy conn) {conn' : MYSQL} (hquery : ¬ call.IsQuery)
    (hstore : ∀ handle, call ≠ .mysql_store_result (some handle))
    (hfree : ∀ handle, call ≠ .mysql_free_result handle) (hcalls : conn'.calls = conn.calls ++ [call])
    (hhandles : conn'.handles = conn.handles) : Tidy conn' := by
  obtain ⟨hsync, hstored, hfreed⟩ := h
  refine ⟨?_, fun handle => ?_, fun handle => ?_⟩
  · rw [hcalls]
    exact hsync.concat fun hq => absurd hq hquery
  · rw [hcalls, hhandles, count_concat_of_ne (hstore handle), hstored]
  · rw [hcalls, hhandles, count_concat_of_ne (hfree handle), hfreed]

theorem not_isQuery_store (handle : Option Nat) : ¬ (Call.mysql_store_result handle).IsQuery := by
  rintro ⟨query, hquery⟩
  cases hquery

theorem not_isQuery_free (handle : Nat) : ¬ (Call.mysql_free_result handle).IsQuery := by
  rintro ⟨query, hquery⟩
  cases hquery

theorem not_isQuery_next (code : Int) : ¬ (Call.mysql_next_result code).IsQuery := by
  rintro ⟨query, hquery⟩
  cases hquery

theorem Tidy.store_none (h : Tidy conn) (hnone : (mysql_store_result conn).2 = none) :
    Tidy (mysql_store_result conn).1 := by
  unfold mysql_store_result at hnone ⊢
  split at hnone
  · cases hnone
  · exact h.concat (not_isQuery_store none) (by simp) (by simp) rfl rfl

theorem Tidy.store_free (h : Tidy conn) {result : MYSQL_RES}
    (hsome : (mysql_store_result conn).2 = some result) :
    Tidy (mysql_free_result (mysql_store_result conn).1 result) := by
  obtain ⟨hsync, hstored, hfreed⟩ := h
  unfold mysql_store_result at hsome ⊢
  split at hsome
  · obtain rfl := Option.some.inj hsome
    have hlt : ∀ handle, handle ≠ conn.handles →
        (handle < conn.handles + 1 ↔ handle < conn.handles) := by
      intro handle hne
      omega
    refine ⟨?_, fun handle => ?_, fun handle => ?_⟩
    · refine Synchronized.concat (Synchronized.concat hsync fun hq => ?_) fun hq => ?_
      · exact absurd hq (not_isQuery_store _)
      · exact absurd hq (not_isQuery_free _)
    · show ((conn.calls ++ [Call.mysql_store_result (some conn.handles)]) ++
        [Call.mysql_free_result conn.handles]).count _ = if handle < conn.handles + 1 then 1 else 0
      rw [count_concat_of_ne (by simp)]
      by_cases heq : handle = conn.handles
      · rw [heq, List.count_append, hstored, List.count_singleton_self, if_neg (by omega),
          if_pos (by omega)]
      · rw [count_concat_of_ne (by simpa using Ne.symm heq), hstored, if_congr (hlt handle heq) rfl rfl]
    · show ((conn.calls ++ [Call.mysql_store_result (some conn.handles)]) ++
        [Call.mysql_free_result conn.handles]).count _ = if handle < conn.handles + 1 then 1 else 0
      by_cases heq : handle = conn.handles
      · rw [heq, List.count_append, count_concat_of_ne (by simp), hfreed, List.count_singleton_self,
          if_neg (by omega), if_pos (by omega)]
      · rw [count_concat_of_ne (by simpa using Ne.symm heq), count_concat_of_ne (by simp), hfreed,
          if_congr (hlt handle heq) rfl rfl]
  · cases hsome

theorem Tidy.store_leaves (h : Tidy conn) {result : MYSQL_RES}
    (hsome : (mysql_store_result conn).2 = some result) : Leaking (mysql_store_result conn).1 := by
  obtain ⟨hsync, -, hfreed⟩ := h
  unfold mysql_store_result at hsome ⊢
  split at hsome
  · refine ⟨hsync.concat fun hq => absurd hq (not_isQuery_store _), conn.handles, by simp, ?_⟩
    have hnone : (.mysql_free_result conn.handles) ∉ conn.calls := by
      rw [← List.count_eq_zero, hfreed, if_neg (Nat.lt_irrefl _)]
    simpa using hnone
  · cases hsome

theorem Tidy.discard (h : Tidy conn) : Tidy (Mysql.discard conn) ∧ (Mysql.discard conn).current = none := by
  unfold Mysql.discard
  cases hstored : (mysql_store_result conn).2 with
  | some pending =>
    simp only [hstored]
    exact ⟨h.store_free hstored, current_store⟩
  | none =>
    simp only [hstored]
    exact ⟨h.store_none hstored, current_store⟩

theorem Tidy.next (h : Tidy conn) : Tidy (mysql_next_result conn).1 := by
  unfold mysql_next_result
  cases conn.following with
  | nil => exact h.concat (not_isQuery_next _) (by simp) (by simp) rfl rfl
  | cons result following => exact h.concat (not_isQuery_next _) (by simp) (by simp) rfl rfl

theorem finished_next (hcurrent : conn.current = none) (hcode : (mysql_next_result conn).2 ≠ 0) :
    Finished (mysql_next_result conn).1 := by
  unfold mysql_next_result at hcode ⊢
  cases hfollowing : conn.following with
  | nil =>
    refine ⟨?_, settled_concat conn.last.2⟩
    simp [MYSQL.pending, hcurrent]
  | cons result following =>
    rw [hfollowing] at hcode
    exact absurd rfl hcode

/-! ### `processQueryOutput` -/

theorem Tidy.drain (h : Tidy conn) (hcurrent : conn.current = none) :
    Tidy (Mysql.drain conn) ∧ Finished (Mysql.drain conn) := by
  induction conn using drain.induct with
  | case1 conn next hcode ih =>
    have hzero : (mysql_next_result conn).2 = 0 := hcode
    obtain ⟨htidy, hnone⟩ := h.next.discard
    rw [Mysql.drain]
    simp only [dif_pos hzero]
    exact ih htidy hnone
  | case2 conn next hcode =>
    have hnonzero : (mysql_next_result conn).2 ≠ 0 := hcode
    rw [Mysql.drain]
    simp only [dif_neg hnonzero]
    exact ⟨h.next, finished_next hcurrent hnonzero⟩

/-- The outer loop leaves nothing pending at any of its exits, and a stored result where it throws. -/
theorem Tidy.processResults (h : Tidy conn) (throwsAt : Option Nat) (queryResult : Str) :
    ((Mysql.processResults throwsAt conn queryResult).2 ≠ none →
        Tidy (Mysql.processResults throwsAt conn queryResult).1 ∧
          Finished (Mysql.processResults throwsAt conn queryResult).1) ∧
      ((Mysql.processResults throwsAt conn queryResult).2 = none →
        Leaking (Mysql.processResults throwsAt conn queryResult).1) := by
  induction throwsAt, conn, queryResult using processResults_induction with
  | skipped throwsAt conn queryResult hnone _ _ hloop ih =>
    rw [hloop]
    exact ih (h.store_none hnone).next
  | skippedLast throwsAt conn queryResult hnone _ hcode hloop =>
    rw [hloop]
    refine ⟨fun _ => ⟨(h.store_none hnone).next, finished_next current_store hcode⟩, ?_⟩
    exact fun hthrew => absurd hthrew (Option.some_ne_none _)
  | unreadable throwsAt conn queryResult hnone _ hloop =>
    rw [hloop]
    refine ⟨fun _ => (h.store_none hnone).drain current_store, ?_⟩
    exact fun hthrew => absurd hthrew (Option.some_ne_none _)
  | throws throwsAt conn queryResult result hsome _ hloop =>
    rw [hloop]
    exact ⟨fun hcalm => absurd rfl hcalm, fun _ => h.store_leaves hsome⟩
  | shown throwsAt conn queryResult result hsome _ _ hloop ih =>
    rw [hloop]
    exact ih (h.store_free hsome).next
  | shownLast throwsAt conn queryResult result hsome _ hcode hloop =>
    rw [hloop]
    refine ⟨fun _ => ⟨(h.store_free hsome).next, finished_next current_store hcode⟩, ?_⟩
    exact fun hthrew => absurd hthrew (Option.some_ne_none _)

end

/-! ### The loop of a thread -/

section
variable (w : Worker)

/-- A write to the log of the thread throws, before the output of the query is processed. -/
def logThrows (query_number : Nat) (a : Answer) : Bool :=
  a.failsAt.any (· < (threadTexts w query_number a).length)

/-- What the loop is answered in a pass over this connection. The output is processed behind the
writes to the log of the thread; it throws where a write to `queryResult` does and nowhere else. -/
def answer (a : Answer) (reply : Reply) (l : Loop) (conn : MYSQL) : Answer :=
  let query_number := queryNumber w a l
  let sent := performRealQuery conn (w.query query_number) reply
  let a := { a with success := sent.2 }
  let behind := (threadTexts w query_number a).length
  match (processQueryOutput reply.throwsAt sent.1).2 with
  | none =>
    { a with
      queryResult := []
      failsAt := if logThrows w query_number a then a.failsAt else some behind }
  | some queryResult =>
    { a with
      queryResult := queryResult
      failsAt := if a.failsAt = some behind then none else a.failsAt }

/-- The connection after a pass: the query may not be made, and its output may not be processed. -/
def connectionAfter (a : Answer) (reply : Reply) (l : Loop) (conn : MYSQL) : MYSQL :=
  let query_number := queryNumber w a l
  let sent := performRealQuery conn (w.query query_number) reply
  let a := answer w a reply l conn
  if w.params.queries_per_thread ≤ l.i ∨ a.queryThrows then conn
  else if maxConFailures ≤ (l.perform w a).db.consecutive_failures ∨
      logThrows w query_number a then sent.1
  else (processQueryOutput reply.throwsAt sent.1).1

variable (answers : Nat → Answer) (replies : Nat → Reply)

/-- The loop and the connection after `n` passes, or as they were left before. -/
def runConnected : Nat → (Loop × Option Exit) × MYSQL
  | 0 => ((.initial, none), .connected)
  | n + 1 =>
    match runConnected n with
    | ((l, none), conn) =>
      (loopStep w (answer w (answers n) (replies n) l conn) l,
        connectionAfter w (answers n) (replies n) l conn)
    | r => r

/-- What the loop is answered in each pass. -/
def loopAnswers (n : Nat) : Answer :=
  match runConnected w answers replies n with
  | ((l, none), conn) => answer w (answers n) (replies n) l conn
  | _ => answers n

end

section
variable {w : Worker} {answers : Nat → Answer} {replies : Nat → Reply} {a : Answer} {reply : Reply}
  {l : Loop} {conn : MYSQL}

/-- The loop over a connection is the loop over what the connection answers. -/
theorem runConnected_loop (n : Nat) :
    (runConnected w answers replies n).1 = runLoop w (loopAnswers w answers replies) n := by
  induction n with
  | zero => rfl
  | succ n ih =>
    rw [runConnected, runLoop, ← ih]
    rcases hr : runConnected w answers replies n with ⟨⟨l, _ | exit⟩, conn⟩
    · simp only [loopAnswers, hr]
    · rfl

/-- The connection between two passes. -/
structure Ready (conn : MYSQL) : Prop where
  pending : conn.pending = []
  idle : Idle conn.calls

theorem tidy_connected : Tidy .connected := by
  refine ⟨?_, fun handle => rfl, fun handle => rfl⟩
  intro before query after heq
  cases before <;> cases heq

theorem ready_connected : Ready .connected :=
  ⟨rfl, .inl fun _ h => absurd h List.not_mem_nil⟩

/-- A pass that stands at `l` makes its query and comes to process the output, where a write to
`queryResult` throws: there are more writes to make for the results than are let through. -/
def OutputThrows (w : Worker) (a : Answer) (reply : Reply) (l : Loop) : Prop :=
  l.i < w.params.queries_per_thread ∧ a.queryThrows = false ∧
    logThrows w (queryNumber w a l) { a with success := true } = false ∧
    ∃ k ∈ reply.throwsAt, k < (shownTexts reply.results).length

theorem performRealQuery_success (query : Str) :
    (performRealQuery conn query reply).2 = decide (reply.results ≠ []) := by
  unfold performRealQuery mysql_real_query
  by_cases h : reply.results = [] <;> simp [h]

theorem processQueryOutput_sent (query : Str) :
    (processQueryOutput reply.throwsAt (performRealQuery conn query reply).1).2 =
      if ∃ k ∈ reply.throwsAt, k < (shownTexts reply.results).length then none
      else some (shownTexts reply.results).flatten := by
  obtain ⟨hcurrent, hpending⟩ := current_real_query conn query reply
  have houtput := processResults_output reply.throwsAt _ [] hcurrent
  rw [hpending, List.nil_append] at houtput
  refine houtput.trans (if_congr ?_ rfl rfl)
  simp [Option.any_eq_true]

/-! ### One pass -/

/-- The answer of a pass up to its query. -/
def queried (a : Answer) (reply : Reply) : Answer := { a with success := decide (reply.results ≠ []) }

theorem answer_of_none
    (h : (processQueryOutput reply.throwsAt
      (performRealQuery conn (w.query (queryNumber w a l)) reply).1).2 = none) :
    answer w a reply l conn = { queried a reply with
      queryResult := []
      failsAt :=
        if logThrows w (queryNumber w a l) (queried a reply) then a.failsAt
        else some (threadTexts w (queryNumber w a l) (queried a reply)).length } := by
  unfold queried
  rw [← @performRealQuery_success reply conn (w.query (queryNumber w a l))]
  simp only [answer, h]

theorem answer_of_some {queryResult : Str}
    (h : (processQueryOutput reply.throwsAt
      (performRealQuery conn (w.query (queryNumber w a l)) reply).1).2 = some queryResult) :
    answer w a reply l conn = { queried a reply with
      queryResult := queryResult
      failsAt :=
        if a.failsAt = some (threadTexts w (queryNumber w a l) (queried a reply)).length then none
        else a.failsAt } := by
  unfold queried
  rw [← @performRealQuery_success reply conn (w.query (queryNumber w a l))]
  simp only [answer, h]

theorem answer_eq : ∃ queryResult failsAt, answer w a reply l conn =
    { queried a reply with queryResult := queryResult, failsAt := failsAt } := by
  cases houtput : (processQueryOutput reply.throwsAt
      (performRealQuery conn (w.query (queryNumber w a l)) reply).1).2 with
  | none => exact ⟨_, _, answer_of_none houtput⟩
  | some queryResult => exact ⟨_, _, answer_of_some houtput⟩

theorem logThrows_answer : logThrows w (queryNumber w a l) (answer w a reply l conn) =
    logThrows w (queryNumber w a l) (queried a reply) := by
  cases houtput : (processQueryOutput reply.throwsAt
      (performRealQuery conn (w.query (queryNumber w a l)) reply).1).2 with
  | none =>
    rw [answer_of_none houtput]
    cases hlog : logThrows w (queryNumber w a l) (queried a reply) with
    | true => exact hlog
    | false => exact decide_eq_false (Nat.lt_irrefl _)
  | some queryResult =>
    rw [answer_of_some houtput]
    by_cases hbehind : a.failsAt = some (threadTexts w (queryNumber w a l) (queried a reply)).length
    · simp only [if_pos hbehind]
      have hnot : logThrows w (queryNumber w a l) (queried a reply) = false := by
        have hsame : (queried a reply).failsAt = a.failsAt := rfl
        rw [logThrows, hsame, hbehind]
        exact decide_eq_false (Nat.lt_irrefl _)
      rw [hnot]
      rfl
    · simp only [if_neg hbehind]
      rfl

theorem bodyThrows_of_logThrows {query_number : Nat} (h : logThrows w query_number a = true) :
    BodyThrows w a := by
  unfold logThrows at h
  rw [Option.any_eq_true] at h
  obtain ⟨k, hk, hlt⟩ := h
  have hlength : (threadTexts w query_number a).length ≤ (bodyOps w query_number a).length := by
    simp only [bodyOps, List.length_append, List.length_map]
    omega
  rw [length_bodyOps] at hlength
  exact ⟨k, hk, Nat.lt_of_lt_of_le (of_decide_eq_true hlt) hlength⟩

theorem bodyThrows_of_output
    (houtput : (processQueryOutput reply.throwsAt
      (performRealQuery conn (w.query (queryNumber w a l)) reply).1).2 = none) :
    BodyThrows w (answer w a reply l conn) := by
  cases hlog : logThrows w (queryNumber w a l) (answer w a reply l conn) with
  | true => exact bodyThrows_of_logThrows hlog
  | false =>
    rw [logThrows_answer] at hlog
    rw [answer_of_none houtput, hlog]
    refine ⟨_, rfl, ?_⟩
    rw [← length_bodyOps (queryNumber w a l)]
    simp only [bodyOps, List.length_append, List.length_map, List.length_singleton]
    show (threadTexts w (queryNumber w a l) (queried a reply)).length <
      (threadTexts w (queryNumber w a l) (queried a reply)).length + 1 + _ + 1
    omega

theorem results_ne_nil {k : Nat} (h : k < (shownTexts reply.results).length) : reply.results ≠ [] := by
  intro hnil
  rw [hnil] at h
  exact absurd h (Nat.not_lt_zero k)

theorem OutputThrows.queried (h : OutputThrows w a reply l) :
    Mysql.queried a reply = { a with success := true } := by
  obtain ⟨-, -, -, k, -, hlt⟩ := h
  rw [Mysql.queried, decide_eq_true (results_ne_nil hlt)]

theorem output_eq_none_iff (query : Str) :
    (processQueryOutput reply.throwsAt (performRealQuery conn query reply).1).2 = none ↔
      ∃ k ∈ reply.throwsAt, k < (shownTexts reply.results).length := by
  rw [processQueryOutput_sent]
  split
  · rename_i hthrows
    exact iff_of_true rfl hthrows
  · rename_i hcalm
    exact iff_of_false (Option.some_ne_none _) hcalm

theorem processes_iff : ¬ (w.params.queries_per_thread ≤ l.i ∨ (answer w a reply l conn).queryThrows = true) ↔
    l.i < w.params.queries_per_thread ∧ a.queryThrows = false := by
  obtain ⟨_, _, hanswer⟩ := @answer_eq w a reply l conn
  rw [hanswer, not_or, Nat.not_le, Bool.not_eq_true]
  rfl

/-- What a pass does to the connection, unless a write to `queryResult` throws. -/
theorem Ready.connectionAfter (htidy : Tidy conn) (h : Ready conn) (hcalm : ¬ OutputThrows w a reply l) :
    Tidy (connectionAfter w a reply l conn) ∧
      ((loopStep w (answer w a reply l conn) l).2 = none →
        Ready (Mysql.connectionAfter w a reply l conn)) := by
  have hsent : Tidy (performRealQuery conn (w.query (queryNumber w a l)) reply).1 :=
    htidy.real_query h.idle _ _
  unfold Mysql.connectionAfter
  by_cases hmade : w.params.queries_per_thread ≤ l.i ∨ (answer w a reply l conn).queryThrows = true
  · simp only [if_pos hmade]
    exact ⟨htidy, fun _ => h⟩
  · simp only [if_neg hmade]
    split
    · -- the thread leaves the loop with the output of its last query
      rename_i hleaves
      refine ⟨hsent, fun hnone => ?_⟩
      obtain ⟨_, ⟨_, hlow, hbody⟩, _⟩ := loopStep_none (Prod.ext rfl hnone)
      rcases hleaves with hfailures | hlog
      · omega
      · exact absurd (bodyThrows_of_logThrows hlog) hbody
    · rename_i hgoes
      rw [not_or, logThrows_answer, Bool.not_eq_true] at hgoes
      obtain ⟨hi, hquery⟩ := processes_iff.mp hmade
      have hshown : (processQueryOutput reply.throwsAt
          (performRealQuery conn (w.query (queryNumber w a l)) reply).1).2 ≠ none := by
        intro hnone
        obtain ⟨k, hk, hlt⟩ := (output_eq_none_iff _).mp hnone
        rw [queried, decide_eq_true (results_ne_nil hlt)] at hgoes
        exact hcalm ⟨hi, hquery, hgoes.2, k, hk, hlt⟩
      obtain ⟨hprocessed, hfinished⟩ := (hsent.processResults reply.throwsAt []).1 hshown
      exact ⟨hprocessed, fun _ => ⟨hfinished.pending, .inr hfinished.settled⟩⟩

/-- A result is left behind by a pass in which a write to `queryResult` throws. -/
theorem Ready.leaks (htidy : Tidy conn) (h : Ready conn) (hthrows : OutputThrows w a reply l) :
    Leaking (Mysql.connectionAfter w a reply l conn) ∧
      (loopStep w (answer w a reply l conn) l).2 ≠ none := by
  obtain ⟨hi, hquery, hlog, hwrites⟩ := id hthrows
  have hsent : Tidy (performRealQuery conn (w.query (queryNumber w a l)) reply).1 :=
    htidy.real_query h.idle _ _
  have hnone := (@output_eq_none_iff reply conn (w.query (queryNumber w a l))).mpr hwrites
  have hcalm : ¬ (maxConFailures ≤ (l.perform w (answer w a reply l conn)).db.consecutive_failures ∨
      logThrows w (queryNumber w a l) (answer w a reply l conn) = true) := by
    rw [logThrows_answer, hthrows.queried, hlog]
    obtain ⟨_, _, hanswer⟩ := @answer_eq w a reply l conn
    rw [hanswer, hthrows.queried]
    simp [Loop.perform, Database.performQuery, maxConFailures]
  refine ⟨?_, fun hgoes => ?_⟩
  · unfold Mysql.connectionAfter
    simp only [if_neg (processes_iff.mpr ⟨hi, hquery⟩), if_neg hcalm]
    exact (hsent.processResults reply.throwsAt []).2 hnone
  · obtain ⟨_, ⟨_, _, hbody⟩, _⟩ := loopStep_none (Prod.ext rfl hgoes)
    exact hbody (bodyThrows_of_output hnone)

/-! ### Every run -/

/-- No write to `queryResult` throws in the passes of a run. -/
def Collects (w : Worker) (answers : Nat → Answer) (replies : Nat → Reply) (n : Nat) : Prop :=
  ∀ m < n, ∀ l, (runConnected w answers replies m).1 = (l, none) →
    ¬ OutputThrows w (answers m) (replies m) l

theorem collects_succ {n : Nat} : Collects w answers replies (n + 1) ↔ Collects w answers replies n ∧
    ∀ l, (runConnected w answers replies n).1 = (l, none) →
      ¬ OutputThrows w (answers n) (replies n) l := by
  unfold Collects
  constructor
  · exact fun h => ⟨fun m hm => h m (by omega), h n (by omega)⟩
  · rintro ⟨hbefore, hlast⟩ m hm
    rcases Nat.lt_succ_iff_lt_or_eq.mp hm with hm | rfl
    · exact hbefore m hm
    · exact hlast

theorem runConnected_spec (n : Nat) :
    (Collects w answers replies n → Tidy (runConnected w answers replies n).2 ∧
      ((runConnected w answers replies n).1.2 = none → Ready (runConnected w answers replies n).2)) ∧
    (¬ Collects w answers replies n → Leaking (runConnected w answers replies n).2 ∧
      (runConnected w answers replies n).1.2 ≠ none) := by
  induction n with
  | zero =>
    refine ⟨fun _ => ⟨tidy_connected, fun _ => ready_connected⟩, fun h => absurd ?_ h⟩
    exact fun m hm => absurd hm (Nat.not_lt_zero m)
  | succ n ih =>
    rw [collects_succ, runConnected]
    rcases hr : runConnected w answers replies n with ⟨⟨l, _ | exit⟩, conn⟩
    · -- a result that was left behind has ended the loop
      rw [hr] at ih
      have hcollects : Collects w answers replies n := by
        by_contra hnot
        exact (ih.2 hnot).2 rfl
      obtain ⟨htidy, hready⟩ := ih.1 hcollects
      by_cases hthrows : OutputThrows w (answers n) (replies n) l
      · refine ⟨fun h => absurd hthrows (h.2 l rfl), fun _ => (hready rfl).leaks htidy hthrows⟩
      · refine ⟨fun _ => (hready rfl).connectionAfter htidy hthrows, fun hnot => absurd ⟨hcollects, ?_⟩ hnot⟩
        intro l' hl'
        obtain ⟨rfl, -⟩ := Prod.mk.inj hl'
        exact hthrows
    · rw [hr] at ih
      refine ⟨fun h => ih.1 h.1, fun hnot => ih.2 fun h => hnot ⟨h, ?_⟩⟩
      intro l' hl'
      cases (Prod.mk.inj hl').2

theorem synchronized_runConnected (n : Nat) : Synchronized (runConnected w answers replies n).2.calls := by
  obtain ⟨hcollects, hthrows⟩ := @runConnected_spec w answers replies n
  by_cases h : Collects w answers replies n
  · exact (hcollects h).1.synchronized
  · exact (hthrows h).1.synchronized

end

/-- What is asked of a connection: no result is pending between two passes of the loop; every query is
the first one or comes after a `mysql_next_result` that has returned something other than 0 since the
last one; and every result that was stored has been freed once. -/
structure InSync (r : (Loop × Option Exit) × MYSQL) : Prop where
  pending : r.1.2 = none → r.2.pending = []
  queries : ∀ before query after, r.2.calls = before ++ .mysql_real_query query :: after →
    (∀ call ∈ before, ¬ call.IsQuery) ∨
      ∃ earlier code later, before = earlier ++ .mysql_next_result code :: later ∧ code ≠ 0 ∧
        ∀ call ∈ later, ¬ call.IsQuery ∧ ∀ code, call ≠ .mysql_next_result code
  freed : ∀ handle, .mysql_store_result (some handle) ∈ r.2.calls →
    r.2.calls.count (.mysql_free_result handle) = 1

/-- **The connection stays in sync.** Whatever the server answers, after any number of passes of the
query loop the connection is in sync if and only if no write to `queryResult` has thrown. -/
theorem connection_in_sync (w : Worker) (answers : Nat → Answer) (replies : Nat → Reply) (n : Nat) :
    InSync (runConnected w answers replies n) ↔ Collects w answers replies n := by
  obtain ⟨hcollects, hthrows⟩ := @runConnected_spec w answers replies n
  refine ⟨fun h => ?_, fun h => ?_⟩
  · by_contra hnot
    obtain ⟨-, handle, hstored, hkept⟩ := (hthrows hnot).1
    have hfreed := h.freed handle hstored
    rw [List.count_eq_zero.mpr hkept] at hfreed
    cases hfreed
  · obtain ⟨htidy, hready⟩ := hcollects h
    refine ⟨fun hnone => (hready hnone).pending, synchronized_runConnected n, fun handle hmem => ?_⟩
    have hpos := List.count_pos_iff.mpr hmem
    rw [htidy.stored] at hpos
    rw [htidy.freed]
    by_cases hlt : handle < (runConnected w answers replies n).2.handles
    · rw [if_pos hlt]
    · rw [if_neg hlt] at hpos
      omega

/-- One query for one thread. -/
def oneShown : Worker :=
  { params := { queries_per_thread := 1 }, queryList := ["SELECT 1".toList] }

/-- The query returns a row, and there is no memory for the text of its field. -/
theorem not_in_sync : ¬ InSync (runConnected oneShown (fun _ => .quiet)
    (fun _ => ⟨[.rows 1 [#v[some "1".toList]]], MYSQL.connected.last, 0, some 0⟩) 1) := by
  intro h
  have hfreed := h.freed 0 (by decide +kernel)
  exact absurd hfreed (by decide +kernel)

end PQuery.Mysql

import PQuery.Text

/-!
# The MySQL connection

`MysqlDatabase` over the client library. The results of a query form a queue: `mysql_store_result`
takes the current one, and `mysql_next_result` makes the next one current and returns 0 where there
is one. A connection keeps, besides, the history of the calls that matter for its state. Where the
library runs out of memory, it cannot retrieve a result; where `processQueryOutput` does, a write to
`queryResult` throws, and what is stored at that time is not freed any more.
-/

namespace PQuery.Mysql

/-- A result as the server sends it; the rows of the last kind cannot be retrieved. -/
inductive ServerResult
  | rows (num_fields : Nat) (rows : List (Vector (Option Str) num_fields))
  | ok
  | unreadable (num_fields : Nat)

def ServerResult.num_fields : ServerResult → Nat
  | .rows num_fields _ => num_fields
  | .ok => 0
  | .unreadable num_fields => num_fields

/-- What is answered to a query: its results in turn, none where the query fails, what
`mysql_next_result` returns after the last one, and what `mysql_field_count` says of a query that
has failed. `throwsAt` says which of the writes to `queryResult` throws, where one does. -/
structure Reply where
  results : List ServerResult
  last : { code : Int // code ≠ 0 }
  field_count : Nat
  throwsAt : Option Nat

/-- A call of the client library, with what it returns; a result that is stored is known by a number
that no other has. -/
inductive Call
  | mysql_real_query (query : Str)
  | mysql_store_result (handle : Option Nat)
  | mysql_free_result (handle : Nat)
  | mysql_next_result (code : Int)
deriving DecidableEq, Repr

/-- `MYSQL`: `handles` results have been stored so far. -/
structure MYSQL where
  current : Option ServerResult
  following : List ServerResult
  last : { code : Int // code ≠ 0 }
  field_count : Nat
  handles : Nat
  calls : List Call

/-- A connection on which nothing has been asked yet. -/
def MYSQL.connected : MYSQL :=
  { current := none, following := [], last := ⟨-1, by decide⟩, field_count := 0, handles := 0,
    calls := [] }

/-- The results of the last query that have not been taken. -/
def MYSQL.pending (conn : MYSQL) : List ServerResult := conn.current.toList ++ conn.following

structure MYSQL_RES where
  handle : Nat
  num_fields : Nat
  rows : List (Vector (Option Str) num_fields)

def mysql_real_query (conn : MYSQL) (query : Str) (reply : Reply) : MYSQL × Int :=
  ({ conn with
    current := reply.results.head?
    following := reply.results.tail
    last := reply.last
    field_count := (reply.results.head?.map ServerResult.num_fields).getD reply.field_count
    calls := conn.calls ++ [.mysql_real_query query] },
   if reply.results = [] then 1 else 0)

def mysql_store_result (conn : MYSQL) : MYSQL × Option MYSQL_RES :=
  match conn.current with
  | some (.rows num_fields rows) =>
    ({ conn with
      current := none
      handles := conn.handles + 1
      calls := conn.calls ++ [.mysql_store_result (some conn.handles)] },
     some { handle := conn.handles, num_fields := num_fields, rows := rows })
  | _ => ({ conn with current := none, calls := conn.calls ++ [.mysql_store_result none] }, none)

def mysql_free_result (conn : MYSQL) (result : MYSQL_RES) : MYSQL :=
  { conn with calls := conn.calls ++ [.mysql_free_result result.handle] }

def mysql_next_result (conn : MYSQL) : MYSQL × Int :=
  match conn.following with
  | [] => ({ conn with calls := conn.calls ++ [.mysql_next_result conn.last] }, conn.last)
  | result :: following =>
    ({ conn with
      current := some result
      following := following
      field_count := result.num_fields
      calls := conn.calls ++ [.mysql_next_result 0] }, 0)

theorem length_following_next {conn : MYSQL} (h : (mysql_next_result conn).2 = 0) :
    (mysql_next_result conn).1.following.length < conn.following.length := by
  unfold mysql_next_result at h ⊢
  cases hfollowing : conn.following with
  | nil =>
    rw [hfollowing] at h
    exact absurd h conn.last.2
  | cons result following => simp

@[simp] theorem following_store (conn : MYSQL) :
    (mysql_store_result conn).1.following = conn.following := by
  unfold mysql_store_result
  split <;> rfl

/-! ### `MysqlDatabase` -/

def performRealQuery (conn : MYSQL) (query : Str) (reply : Reply) : MYSQL × Bool :=
  let sent := mysql_real_query conn query reply
  (sent.1, sent.2 == 0)

/-- A field of a row as it is written to the output. -/
def fieldText : Option Str → Str
  | none => "NULL".toList
  | some [] => "EMPTY".toList
  | some text => text

/-- The writes to the output for a row. -/
def rowTexts {num_fields : Nat} (row : Vector (Option Str) num_fields) : List Str :=
  (row.toList.map fieldText).intersperse ['\t'] ++ [['\n']]

def MYSQL_RES.texts (result : MYSQL_RES) : List Str := result.rows.flatMap rowTexts

def MYSQL_RES.text (result : MYSQL_RES) : Str := result.texts.flatten

/-- The result, if there is one, is stored and freed. -/
def discard (conn : MYSQL) : MYSQL :=
  let stored := mysql_store_result conn
  match stored.2 with
  | some pending => mysql_free_result stored.1 pending
  | none => stored.1

@[simp] theorem following_discard (conn : MYSQL) : (discard conn).following = conn.following := by
  rw [← following_store conn, discard]
  cases (mysql_store_result conn).2 with
  | some pending => rfl
  | none => rfl

/-- The inner loop of `processQueryOutput`, where a result could not be retrieved. -/
def drain (conn : MYSQL) : MYSQL :=
  let next := mysql_next_result conn
  if _h : next.2 = 0 then drain (discard next.1) else next.1
termination_by conn.following.length
decreasing_by
  rw [following_discard]
  exact length_following_next _h

/-- The loop of `processQueryOutput`, with what `queryResult` is so far and which of the writes to it
that are still to come throws; nothing where it does. -/
def processResults (throwsAt : Option Nat) (conn : MYSQL) (queryResult : Str) : MYSQL × Option Str :=
  let stored := mysql_store_result conn
  match stored.2 with
  | none =>
    if stored.1.field_count = 0 then
      let next := mysql_next_result stored.1
      if _h : next.2 = 0 then processResults throwsAt next.1 queryResult
      else (next.1, some queryResult)
    else (drain stored.1, some queryResult)
  | some result =>
    -- the exception leaves the function before `mysql_free_result`
    if throwsAt.any (· < result.texts.length) then (stored.1, none)
    else
      let next := mysql_next_result (mysql_free_result stored.1 result)
      let queryResult := queryResult ++ result.text
      let throwsAt := throwsAt.map (· - result.texts.length)
      if _h : next.2 = 0 then processResults throwsAt next.1 queryResult
      else (next.1, some queryResult)
termination_by conn.following.length
decreasing_by
  · rw [← following_store conn]
    exact length_following_next _h
  · rw [← following_store conn]
    exact length_following_next _h

def processQueryOutput (throwsAt : Option Nat) (conn : MYSQL) : MYSQL × Option Str :=
  processResults throwsAt conn []

/-- Induction over the results, with a case for each way through the loop. -/
theorem processResults_induction {motive : Option Nat → MYSQL → Str → Prop}
    (skipped : ∀ throwsAt conn queryResult, (mysql_store_result conn).2 = none →
      (mysql_store_result conn).1.field_count = 0 → (mysql_next_result (mysql_store_result conn).1).2 = 0 →
      processResults throwsAt conn queryResult =
        processResults throwsAt (mysql_next_result (mysql_store_result conn).1).1 queryResult →
      motive throwsAt (mysql_next_result (mysql_store_result conn).1).1 queryResult →
      motive throwsAt conn queryResult)
    (skippedLast : ∀ throwsAt conn queryResult, (mysql_store_result conn).2 = none →
      (mysql_store_result conn).1.field_count = 0 → (mysql_next_result (mysql_store_result conn).1).2 ≠ 0 →
      processResults throwsAt conn queryResult =
        ((mysql_next_result (mysql_store_result conn).1).1, some queryResult) →
      motive throwsAt conn queryResult)
    (unreadable : ∀ throwsAt conn queryResult, (mysql_store_result conn).2 = none →
      (mysql_store_result conn).1.field_count ≠ 0 →
      processResults throwsAt conn queryResult = (drain (mysql_store_result conn).1, some queryResult) →
      motive throwsAt conn queryResult)
    (throws : ∀ throwsAt conn queryResult result, (mysql_store_result conn).2 = some result →
      throwsAt.any (· < result.texts.length) = true →
      processResults throwsAt conn queryResult = ((mysql_store_result conn).1, none) →
      motive throwsAt conn queryResult)
    (shown : ∀ throwsAt conn queryResult result, (mysql_store_result conn).2 = some result →
      ¬ throwsAt.any (· < result.texts.length) = true →
      (mysql_next_result (mysql_free_result (mysql_store_result conn).1 result)).2 = 0 →
      processResults throwsAt conn queryResult = processResults (throwsAt.map (· - result.texts.length))
        (mysql_next_result (mysql_free_result (mysql_store_result conn).1 result)).1
        (queryResult ++ result.text) →
      motive (throwsAt.map (· - result.texts.length))
        (mysql_next_result (mysql_free_result (mysql_store_result conn).1 result)).1
        (queryResult ++ result.text) →
      motive throwsAt conn queryResult)
    (shownLast : ∀ throwsAt conn queryResult result, (mysql_store_result conn).2 = some result →
      ¬ throwsAt.any (· < result.texts.length) = true →
      (mysql_next_result (mysql_free_result (mysql_store_result conn).1 result)).2 ≠ 0 →
      processResults throwsAt conn queryResult =
        ((mysql_next_result (mysql_free_result (mysql_store_result conn).1 result)).1,
          some (queryResult ++ result.text)) →
      motive throwsAt conn queryResult)
    (throwsAt : Option Nat) (conn : MYSQL) (queryResult : Str) : motive throwsAt conn queryResult := by
  induction throwsAt, conn, queryResult using processResults.induct with
  | case1 throwsAt conn queryResult stored hstored hcount next hcode ih =>
    have hnone : (mysql_store_result conn).2 = none := hstored
    have hcolumns : (mysql_store_result conn).1.field_count = 0 := hcount
    have hzero : (mysql_next_result (mysql_store_result conn).1).2 = 0 := hcode
    refine skipped _ _ _ hnone hcolumns hzero ?_ ih
    rw [processResults]
    simp only [hnone, if_pos hcolumns, dif_pos hzero]
  | case2 throwsAt conn queryResult stored hstored hcount next hcode =>
    have hnone : (mysql_store_result conn).2 = none := hstored
    have hcolumns : (mysql_store_result conn).1.field_count = 0 := hcount
    have hnonzero : (mysql_next_result (mysql_store_result conn).1).2 ≠ 0 := hcode
    refine skippedLast _ _ _ hnone hcolumns hnonzero ?_
    rw [processResults]
    simp only [hnone, if_pos hcolumns, dif_neg hnonzero]
  | case3 throwsAt conn queryResult stored hstored hcount =>
    have hnone : (mysql_store_result conn).2 = none := hstored
    have hcolumns : (mysql_store_result conn).1.field_count ≠ 0 := hcount
    refine unreadable _ _ _ hnone hcolumns ?_
    rw [processResults]
    simp only [hnone, if_neg hcolumns]
  | case4 throwsAt conn queryResult stored result hstored hthrows =>
    have hsome : (mysql_store_result conn).2 = some result := hstored
    refine throws _ _ _ result hsome hthrows ?_
    rw [processResults]
    simp only [hsome, if_pos hthrows]
  | case5 throwsAt conn queryResult stored result hstored hcalm next text rest hcode ih =>
    have hsome : (mysql_store_result conn).2 = some result := hstored
    have hzero : (mysql_next_result (mysql_free_result (mysql_store_result conn).1 result)).2 = 0 := hcode
    refine shown _ _ _ result hsome hcalm hzero ?_ ih
    rw [processResults]
    simp only [hsome, if_neg hcalm, dif_pos hzero]
  | case6 throwsAt conn queryResult stored result hstored hcalm next hcode =>
    have hsome : (mysql_store_result conn).2 = some result := hstored
    have hnonzero : (mysql_next_result (mysql_free_result (mysql_store_result conn).1 result)).2 ≠ 0 :=
      hcode
    refine shownLast _ _ _ result hsome hcalm hnonzero ?_
    rw [processResults]
    simp only [hsome, if_neg hcalm, dif_neg hnonzero]

/-! ### What is written to `queryResult` -/

/-- The writes for the results of a query, up to the first one that cannot be retrieved. -/
def shownTexts : List ServerResult → List Str
  | [] => []
  | .rows _ rows :: results => rows.flatMap rowTexts ++ shownTexts results
  | .ok :: results => shownTexts results
  | .unreadable num_fields :: results => if num_fields = 0 then shownTexts results else []

/-- What `mysql_field_count` says is that of the current result, and there is one where more follow. -/
structure Current (conn : MYSQL) : Prop where
  field_count : ∀ result ∈ conn.current, conn.field_count = result.num_fields
  following : conn.current = none → conn.following = []

theorem current_real_query (conn : MYSQL) (query : Str) (reply : Reply) :
    Current (mysql_real_query conn query reply).1 ∧
      (mysql_real_query conn query reply).1.pending = reply.results := by
  refine ⟨⟨fun result hresult => ?_, fun hnone => ?_⟩, ?_⟩
  · simp only [mysql_real_query, Option.mem_def] at hresult ⊢
    rw [hresult]
    rfl
  · simp only [mysql_real_query, List.head?_eq_none_iff] at hnone ⊢
    rw [hnone]
    rfl
  · cases hresults : reply.results <;> simp [MYSQL.pending, mysql_real_query, hresults]

section
variable {conn : MYSQL}

theorem current_store : (mysql_store_result conn).1.current = none := by
  unfold mysql_store_result
  split
  · rfl
  · rfl

theorem field_count_store : (mysql_store_result conn).1.field_count = conn.field_count := by
  unfold mysql_store_result
  split <;> rfl

theorem current_next (hcurrent : conn.current = none) :
    Current (mysql_next_result conn).1 ∧ (mysql_next_result conn).1.pending = conn.following := by
  unfold mysql_next_result
  cases hfollowing : conn.following with
  | nil =>
    refine ⟨⟨fun result hresult => ?_, fun _ => rfl⟩, ?_⟩
    · have hsome : result ∈ conn.current := hresult
      rw [hcurrent] at hsome
      cases hsome
    · show conn.current.toList ++ [] = []
      rw [hcurrent]
      rfl
  | cons result following => exact ⟨⟨by simp, by simp⟩, by simp [MYSQL.pending]⟩

theorem following_eq_nil (hcode : (mysql_next_result conn).2 ≠ 0) : conn.following = [] := by
  cases hfollowing : conn.following with
  | nil => rfl
  | cons result following =>
    unfold mysql_next_result at hcode
    rw [hfollowing] at hcode
    exact absurd rfl hcode

theorem shownTexts_of_some {result : MYSQL_RES} (hsome : (mysql_store_result conn).2 = some result) :
    shownTexts conn.pending = result.texts ++ shownTexts conn.following := by
  unfold mysql_store_result at hsome
  split at hsome
  · rename_i num_fields rows hcurrent
    obtain rfl := Option.some.inj hsome
    rw [MYSQL.pending, hcurrent]
    rfl
  · cases hsome

theorem shownTexts_of_none (h : Current conn) (hnone : (mysql_store_result conn).2 = none) :
    shownTexts conn.pending = if conn.field_count = 0 then shownTexts conn.following else [] := by
  cases hcurrent : conn.current with
  | none =>
    rw [MYSQL.pending, hcurrent, h.following hcurrent]
    split <;> rfl
  | some result =>
    rw [MYSQL.pending, hcurrent, h.field_count result hcurrent]
    cases result with
    | rows num_fields rows =>
      unfold mysql_store_result at hnone
      rw [hcurrent] at hnone
      cases hnone
    | ok => rfl
    | unreadable num_fields => rfl

end

theorem any_sub_lt {throwsAt : Option Nat} {m : Nat} (h : ¬ throwsAt.any (· < m) = true) (n : Nat) :
    (throwsAt.map (· - m)).any (· < n) = throwsAt.any (· < m + n) := by
  cases throwsAt with
  | none => rfl
  | some k =>
    have hge : ¬ k < m := by simpa using h
    have hiff : k - m < n ↔ k < m + n := by omega
    simpa using hiff

/-- What `processQueryOutput` collects: all that it has to write, unless one of the writes throws. -/
theorem processResults_output (throwsAt : Option Nat) (conn : MYSQL) (queryResult : Str)
    (h : Current conn) : (processResults throwsAt conn queryResult).2 =
      if throwsAt.any (· < (shownTexts conn.pending).length) then none
      else some (queryResult ++ (shownTexts conn.pending).flatten) := by
  induction throwsAt, conn, queryResult using processResults_induction with
  | skipped throwsAt conn queryResult hnone hcolumns _ hloop ih =>
    obtain ⟨hnext, hpending⟩ := @current_next (mysql_store_result conn).1 current_store
    have hshown : shownTexts conn.pending =
        shownTexts (mysql_next_result (mysql_store_result conn).1).1.pending := by
      rw [shownTexts_of_none h hnone, if_pos (field_count_store ▸ hcolumns), hpending, following_store]
    rw [hloop, hshown]
    exact ih hnext
  | skippedLast throwsAt conn queryResult hnone _ hcode hloop =>
    have hfollowing : conn.following = [] := (following_store conn).symm.trans (following_eq_nil hcode)
    have hshown : shownTexts conn.pending = [] := by
      rw [shownTexts_of_none h hnone, hfollowing]
      split <;> rfl
    simp [hloop, hshown]
  | unreadable throwsAt conn queryResult hnone hcolumns hloop =>
    have hshown : shownTexts conn.pending = [] := by
      rw [shownTexts_of_none h hnone, if_neg (field_count_store ▸ hcolumns)]
    simp [hloop, hshown]
  | throws throwsAt conn queryResult result hsome hthrows hloop =>
    have hmore : throwsAt.any (· < (shownTexts conn.pending).length) = true := by
      rw [Option.any_eq_true] at hthrows ⊢
      obtain ⟨k, hk, hlt⟩ := hthrows
      refine ⟨k, hk, decide_eq_true ?_⟩
      have hwrites := of_decide_eq_true hlt
      rw [shownTexts_of_some hsome, List.length_append]
      omega
    rw [hloop, if_pos hmore]
  | shown throwsAt conn queryResult result hsome hcalm _ hloop ih =>
    obtain ⟨hnext, hpending⟩ :=
      @current_next (mysql_free_result (mysql_store_result conn).1 result) current_store
    have hshown : shownTexts conn.pending = result.texts ++ shownTexts
        (mysql_next_result (mysql_free_result (mysql_store_result conn).1 result)).1.pending := by
      rw [shownTexts_of_some hsome, hpending]
      exact congrArg (fun following => _ ++ shownTexts following) (following_store conn).symm
    rw [hloop, hshown, ih hnext, any_sub_lt hcalm, List.length_append, List.flatten_append,
      ← List.append_assoc]
    rfl
  | shownLast throwsAt conn queryResult result hsome hcalm hcode hloop =>
    have hfollowing : (mysql_store_result conn).1.following = [] :=
      @following_eq_nil (mysql_free_result (mysql_store_result conn).1 result) hcode
    have hshown : shownTexts conn.pending = result.texts := by
      rw [shownTexts_of_some hsome, ← following_store, hfollowing]
      exact List.append_nil _
    rw [hloop, hshown, if_neg hcalm]
    rfl

end PQuery.Mysql

import Mathlib.Data.List.Forall2
import PQuery.DbWorker.Replay

/-!
# The log of the queries

What a thread writes to its own log is made of records, one for each pass that comes to the logging
(`records`, `threadLog_eq_records`). The log is complete if its statements are those of the
performed queries that are to be logged, in order. It is, but for the pass that completes a series
of too many failures, which returns before it has logged its query, and for the number of the query
at position 2 ^ 32 (`completeLog_iff`).
-/

namespace PQuery.DbWorker

open Config

/-- A record of the thread log: the statement, where it is logged, and what is written behind it. -/
structure LogRecord where
  statement : Option Str
  annotation : List Str

def LogRecord.texts (r : LogRecord) : List Str :=
  r.statement.toList ++ r.annotation ++ ["\n".toList]

/-- The configuration asks for the statement of a query with this outcome. -/
def logged (p : workerParams) (success : Bool) : Bool :=
  p.log_all_queries || (p.log_succeeded_queries && success) || (p.log_failed_queries && !success)

section
variable (w : Worker)

/-- The record of one pass. -/
def logRecord (query_number : Nat) (a : Answer) : LogRecord :=
  { statement := if logged w.params a.success then some (w.query query_number) else none
    annotation := annotationTexts w query_number a }

/-- The pass comes to the logging of its query. -/
def Logs (a : Answer) (l : Loop) : Prop :=
  l.i < w.params.queries_per_thread ∧ a.queryThrows = false ∧
    (l.perform w a).db.consecutive_failures < maxConFailures

instance (a : Answer) (l : Loop) : Decidable (Logs w a l) :=
  inferInstanceAs (Decidable (_ ∧ _ ∧ _))

/-- The record of the pass that begins with `l`, where it writes one. -/
def passRecords (a : Answer) (l : Loop) : List LogRecord :=
  if logsThread w.params ∧ Logs w a l then [logRecord w (queryNumber w a l) a] else []

/-- The records of the first passes. -/
def records (answers : Nat → Answer) : Nat → List LogRecord
  | 0 => []
  | n + 1 => records answers n ++
    match runLoop w answers n with
    | (l, none) => passRecords w (answers n) l
    | (_, some _) => []

/-- The writes of the pass to the thread log succeed. -/
def WritesSucceed (a : Answer) : Prop := ∀ k, a.failsAt = some k → (threadTexts w 0 a).length ≤ k

/-- The record has the statement of the query and, with `log-query-numbers`, its position in the
list. -/
def Carries (r : LogRecord) (q : Nat × Bool) : Prop :=
  r.statement = some (w.query q.1) ∧ (w.params.log_query_numbers = true →
    ["#".toList, to_string (q.1 + 1 : Nat)] <:+ r.annotation)

/-- The statements of the log are those of the queries to be logged, in order. -/
def CompleteLog (rs : List LogRecord) (performed : List (Nat × Bool)) : Prop :=
  List.Forall₂ (Carries w) (rs.filter (·.statement.isSome))
    (performed.filter fun q => logged w.params q.2)

/-- If the pass that begins with `l` performs a query that is to be logged, it does not complete a
series of too many failures, and the position of the query is below 2 ^ 32. -/
def KeepsRecord (a : Answer) (l : Loop) : Prop :=
  l.i < w.params.queries_per_thread → a.queryThrows = false → logged w.params a.success = true →
    (a.success = true ∨ l.db.consecutive_failures + 1 < maxConFailures) ∧
      (w.params.log_query_numbers = true → queryNumber w a l + 1 < 2 ^ 32)

end

/-! ### The records are what is written -/

section
variable {w : Worker} {a : Answer} {l l' : Loop}

theorem logsThread_of_logged {p : workerParams} {success : Bool} (h : logged p success = true) :
    logsThread p = true := by
  simp only [logged, Bool.or_eq_true, Bool.and_eq_true] at h
  rcases h with (hall | ⟨hsucceeded, _⟩) | ⟨hfailed, _⟩ <;> simp [logsThread, *]

theorem texts_logRecord (query_number : Nat) (hlogs : logsThread w.params = true) :
    (logRecord w query_number a).texts = threadTexts w query_number a := by
  rw [threadTexts, if_pos hlogs]
  have hquery : (logRecord w query_number a).statement.toList = queryTexts w query_number a := by
    show (if logged w.params a.success then _ else _ : Option Str).toList =
      if logged w.params a.success then _ else _
    split <;> rfl
  rw [LogRecord.texts, hquery]
  rfl

theorem length_threadTexts (query_number : Nat) :
    (threadTexts w query_number a).length = (threadTexts w 0 a).length := by
  simp only [threadTexts, annotationTexts, queryTexts, List.length_append,
    apply_ite List.length, List.length_cons, List.length_nil]

theorem foldl_threadLog_of_ne {ops : List Op} (h : ∀ op ∈ ops, ∀ text, op ≠ .threadLog text) :
    ∀ l : Loop, (ops.foldl Loop.apply l).threadLog = l.threadLog := by
  induction ops with
  | nil => exact fun _ => rfl
  | cons op ops ih =>
    intro l
    rw [List.foldl_cons, ih fun o ho => h o (List.mem_cons_of_mem op ho)]
    cases op with
    | threadLog text => exact absurd rfl (h _ List.mem_cons_self text)
    | _ => rfl

theorem madeOps_eq_append (hwrites : WritesSucceed w a) :
    ∃ rest, (∀ op ∈ rest, ∀ text, op ≠ .threadLog text) ∧
      madeOps w a l = (threadTexts w (queryNumber w a l) a).map .threadLog ++ rest := by
  obtain ⟨after, hafter, hbody⟩ : ∃ after : List Op, (∀ op ∈ after, ∀ text, op ≠ .threadLog text) ∧
      bodyOps w (queryNumber w a l) a =
        (threadTexts w (queryNumber w a l) a).map .threadLog ++ after := by
    refine ⟨[.processQueryOutput] ++ (outputTexts w (queryNumber w a l) a).map .outputLog ++
      [.cleanupResult], ?_, ?_⟩
    · rintro op hop text rfl
      simp at hop
    · simp only [bodyOps, List.append_assoc]
  unfold madeOps
  rw [hbody]
  cases hk : a.failsAt with
  | none => exact ⟨after, hafter, rfl⟩
  | some k =>
    have hle : (threadTexts w (queryNumber w a l) a).length ≤ k := by
      rw [length_threadTexts]
      exact hwrites k hk
    refine ⟨after.take (k - (threadTexts w (queryNumber w a l) a).length),
      fun op hop => hafter op (List.mem_of_mem_take hop), ?_⟩
    simp only [List.take_append, List.length_map]
    rw [List.take_of_length_le (by rwa [List.length_map])]

theorem madeOps_threadLog (hwrites : WritesSucceed w a) :
    ((madeOps w a l).foldl Loop.apply (l.perform w a)).threadLog =
      l.threadLog ++ threadTexts w (queryNumber w a l) a := by
  obtain ⟨rest, hrest, hmade⟩ := madeOps_eq_append (l := l) hwrites
  rw [hmade, List.foldl_append, foldl_threadLog, foldl_threadLog_of_ne hrest]
  rfl

theorem passRecords_of_logs (h : Logs w a l) :
    (passRecords w a l).flatMap LogRecord.texts = threadTexts w (queryNumber w a l) a := by
  unfold passRecords
  by_cases hlogs : logsThread w.params = true
  · rw [if_pos ⟨hlogs, h⟩, List.flatMap_singleton, texts_logRecord _ hlogs]
  · rw [if_neg fun hboth => hlogs hboth.1, threadTexts, if_neg hlogs]
    rfl

theorem passRecords_of_not_logs (h : ¬ Logs w a l) : passRecords w a l = [] :=
  if_neg fun hboth => h hboth.2

theorem loopStep_log (hwrites : WritesSucceed w a) :
    (loopStep w a l).1.threadLog = l.threadLog ++ (passRecords w a l).flatMap LogRecord.texts := by
  unfold loopStep
  by_cases hi : l.i < w.params.queries_per_thread
  · rw [if_pos hi]
    rcases iteration_cases (w := w) (a := a) (l := l) with ⟨hquery, hr⟩ | ⟨_, habort, hr⟩ |
      ⟨hquery, hlow, _, hr⟩ | ⟨hquery, hlow, hbody, hr⟩
    · rw [hr, passRecords_of_not_logs fun h => by simp [h.2.1] at hquery]
      simp
    · rw [hr, passRecords_of_not_logs fun h => absurd h.2.2 (by omega)]
      simp [Loop.perform]
    · rw [hr, passRecords_of_logs ⟨hi, hquery, hlow⟩]
      exact madeOps_threadLog hwrites
    · rw [hr, passRecords_of_logs ⟨hi, hquery, hlow⟩]
      exact completed_threadLog a l
  · rw [if_neg hi, passRecords_of_not_logs fun h => hi h.1]
    simp

end

/-- The thread log is made of the records. -/
theorem threadLog_eq_records {w : Worker} {answers : Nat → Answer}
    (hwrites : ∀ k, WritesSucceed w (answers k)) (passes : Nat) :
    (runLoop w answers passes).1.threadLog =
      (records w answers passes).flatMap LogRecord.texts := by
  induction passes with
  | zero => rfl
  | succ n ih =>
    rw [records, List.flatMap_append, ← ih]
    match hr : runLoop w answers n with
    | (l, none) =>
      rw [runLoop_succ hr]
      exact loopStep_log (hwrites n)
    | (l, some exit) =>
      rw [runLoop, hr]
      simp

/-! ### Which log is complete -/

theorem forall₂_concat {α β : Type} {R : α → β → Prop} {xs : List α} {ys : List β} {x : α} {y : β}
    (hlength : xs.length = ys.length) :
    List.Forall₂ R (xs ++ [x]) (ys ++ [y]) ↔ List.Forall₂ R xs ys ∧ R x y := by
  induction xs generalizing ys with
  | nil =>
    obtain rfl : ys = [] := List.length_eq_zero_iff.mp hlength.symm
    simp
  | cons a xs ih =>
    cases ys with
    | nil => simp at hlength
    | cons b ys =>
      rw [List.cons_append, List.cons_append, List.forall₂_cons, List.forall₂_cons,
        ih (Nat.succ.inj hlength), and_assoc]

section
variable {w : Worker} {a : Answer} {l : Loop}

/-- The record of a query that is to be logged carries it unless its position does not fit. -/
theorem carries_logRecord (query_number : Nat) (success : Bool) (h : logged w.params a.success = true) :
    Carries w (logRecord w query_number a) (query_number, success) ↔
      (w.params.log_query_numbers = true → query_number + 1 < 2 ^ 32) := by
  unfold Carries logRecord
  rw [if_pos h]
  refine (and_iff_right rfl).trans (forall_congr' fun hnumbers => ?_)
  have hlast : [("#".toList : Str), numberText query_number] <:+ annotationTexts w query_number a := by
    simp only [annotationTexts, hnumbers, if_true]
    exact List.suffix_append _ _
  have hsame : ["#".toList, to_string (query_number + 1 : Nat)] <:+ annotationTexts w query_number a ↔
      to_string (query_number + 1 : Nat) = numberText query_number := by
    constructor
    · intro hsuffix
      have := List.suffix_of_suffix_length_le hsuffix hlast (Nat.le_refl 2)
      simpa using this.eq_of_length rfl
    · intro heq
      rw [heq]
      exact hlast
  show ["#".toList, to_string (query_number + 1 : Nat)] <:+ annotationTexts w query_number a ↔ _
  rw [hsame, numberText, to_string_inj]
  omega

/-- A pass that begins with `l` performs a query. -/
def Performs (w : Worker) (a : Answer) (l : Loop) : Prop :=
  l.i < w.params.queries_per_thread ∧ a.queryThrows = false

instance : Decidable (Performs w a l) := inferInstanceAs (Decidable (_ ∧ _))

theorem loopStep_performed : (loopStep w a l).1.performed =
    l.performed ++ if Performs w a l then [(queryNumber w a l, a.success)] else [] := by
  unfold loopStep
  by_cases hi : l.i < w.params.queries_per_thread
  · rw [if_pos hi]
    rcases iteration_cases (w := w) (a := a) (l := l) with ⟨hquery, hr⟩ | ⟨hquery, _, hr⟩ |
      ⟨hquery, _, _, hr⟩ | ⟨hquery, _, _, hr⟩
    · rw [hr, if_neg fun h => by simp [h.2] at hquery]
      exact (List.append_nil _).symm
    · rw [hr, if_pos ⟨hi, hquery⟩]
      rfl
    · rw [hr, if_pos ⟨hi, hquery⟩]
      exact (foldl_apply _ _).2.2
    · rw [hr, if_pos ⟨hi, hquery⟩]
      exact (foldl_apply _ _).2.2
  · rw [if_neg hi, if_neg fun h => hi h.1]
    exact (List.append_nil _).symm

theorem consecutive_perform_lt (hlow : l.db.consecutive_failures < maxConFailures) :
    (l.perform w a).db.consecutive_failures < maxConFailures ↔
      a.success = true ∨ l.db.consecutive_failures + 1 < maxConFailures := by
  unfold maxConFailures at hlow ⊢
  simp only [Loop.perform, Database.performQuery]
  cases a.success with
  | true => simp
  | false =>
    have hmod : (l.db.consecutive_failures + 1) % 2 ^ 16 = l.db.consecutive_failures + 1 :=
      Nat.mod_eq_of_lt (by omega)
    simp only [Bool.false_eq_true, if_false, false_or, hmod]

/-- The two lists that `CompleteLog` compares have one length. -/
def SameLength (w : Worker) (rs : List LogRecord) (performed : List (Nat × Bool)) : Prop :=
  (rs.filter (·.statement.isSome)).length = (performed.filter fun q => logged w.params q.2).length

theorem completeLog_step {rs : List LogRecord} (hlow : l.db.consecutive_failures < maxConFailures)
    (hlength : SameLength w rs l.performed) :
    (CompleteLog w (rs ++ passRecords w a l) (loopStep w a l).1.performed ↔
      CompleteLog w rs l.performed ∧ KeepsRecord w a l) ∧
    ((loopStep w a l).2 = none →
      SameLength w (rs ++ passRecords w a l) (loopStep w a l).1.performed) := by
  rw [loopStep_performed]
  unfold SameLength at hlength
  unfold CompleteLog SameLength
  rw [List.filter_append, List.filter_append]
  by_cases hperforms : Performs w a l
  · rw [if_pos hperforms]
    obtain ⟨hi, hquery⟩ := hperforms
    cases hlogged : logged w.params a.success with
    | false =>
      -- whether or not the pass comes to the logging, its record has no statement
      have hnone : (passRecords w a l).filter (·.statement.isSome) = [] := by
        unfold passRecords logRecord
        split <;> simp [hlogged]
      have hkeeps : KeepsRecord w a l := fun _ _ h => by simp [hlogged] at h
      rw [hnone]
      simp [hlogged, hkeeps, hlength]
    | true =>
      have hlogs := logsThread_of_logged hlogged
      by_cases hcount : (l.perform w a).db.consecutive_failures < maxConFailures
      · have hrecord : (passRecords w a l).filter (·.statement.isSome) =
            [logRecord w (queryNumber w a l) a] := by
          rw [passRecords, if_pos ⟨hlogs, hi, hquery, hcount⟩]
          simp [logRecord, hlogged]
        have hkeeps : KeepsRecord w a l ↔
            (w.params.log_query_numbers = true → queryNumber w a l + 1 < 2 ^ 32) :=
          ⟨fun h => (h hi hquery hlogged).2,
            fun h _ _ _ => ⟨(consecutive_perform_lt hlow).mp hcount, h⟩⟩
        rw [hrecord, List.filter_singleton, hlogged, hkeeps,
          ← carries_logRecord (queryNumber w a l) a.success hlogged]
        exact ⟨forall₂_concat hlength, fun _ => by simp [hlength]⟩
      · have hnone : passRecords w a l = [] := passRecords_of_not_logs fun h => hcount h.2.2
        have hnot : ¬ KeepsRecord w a l := fun h =>
          hcount ((consecutive_perform_lt hlow).mpr (h hi hquery hlogged).1)
        rw [hnone, List.filter_singleton, hlogged]
        refine ⟨⟨fun h => ?_, fun h => absurd h.2 hnot⟩, fun hexit => ?_⟩
        · have := h.length_eq
          simp [hlength] at this
        · rw [loopStep, if_pos hi] at hexit
          exact absurd (iteration_none.mp hexit).2.1 hcount
  · have hnone : passRecords w a l = [] :=
      passRecords_of_not_logs fun h => hperforms ⟨h.1, h.2.1⟩
    have hkeeps : KeepsRecord w a l := fun hi hquery => absurd ⟨hi, hquery⟩ hperforms
    rw [if_neg hperforms, hnone]
    simp [hkeeps, hlength]

end

/-- The log is complete as long as every pass keeps its record. -/
theorem completeLog_iff (w : Worker) (answers : Nat → Answer) (passes : Nat) :
    (CompleteLog w (records w answers passes) (runLoop w answers passes).1.performed ↔
      ∀ k < passes, ∀ l, runLoop w answers k = (l, none) → KeepsRecord w (answers k) l) ∧
    ((runLoop w answers passes).2 = none →
      SameLength w (records w answers passes) (runLoop w answers passes).1.performed) := by
  induction passes with
  | zero =>
    exact ⟨⟨fun _ k hk => absurd hk (Nat.not_lt_zero k), fun _ => List.Forall₂.nil⟩, fun _ => rfl⟩
  | succ n ih =>
    obtain ⟨hcomplete, hlength⟩ := ih
    match hr : runLoop w answers n with
    | (l, none) =>
      rw [hr] at hcomplete hlength
      have hhead := atHead_of_runLoop hr
      have hlow : l.db.consecutive_failures < maxConFailures := by
        rw [hhead.counted.consecutive]
        exact Nat.lt_of_le_of_lt (Nat.mod_le _ _) hhead.low
      obtain ⟨hstep, hnext⟩ := completeLog_step (w := w) (a := answers n) hlow (hlength rfl)
      rw [runLoop_succ hr, records, hr]
      refine ⟨hstep.trans ?_, hnext⟩
      rw [hcomplete]
      constructor
      · rintro ⟨hbefore, hlast⟩ k hk l' hl'
        rcases Nat.lt_succ_iff_lt_or_eq.mp hk with hk | rfl
        · exact hbefore k hk l' hl'
        · obtain rfl : l = l' := congrArg Prod.fst (hr.symm.trans hl')
          exact hlast
      · intro hall
        exact ⟨fun k hk => hall k (Nat.lt_succ_of_lt hk), hall n (Nat.lt_succ_self n) l hr⟩
    | (l, some exit) =>
      rw [hr] at hcomplete
      rw [runLoop, records, hr]
      simp only [List.append_nil]
      refine ⟨hcomplete.trans ⟨fun hbefore k hk l' hl' => ?_, fun hall k hk => ?_⟩, fun h => by cases h⟩
      · rcases Nat.lt_succ_iff_lt_or_eq.mp hk with hk | rfl
        · exact hbefore k hk l' hl'
        · rw [hr] at hl'
          cases hl'
      · exact hall k (Nat.lt_succ_of_lt hk)

/-- **The log of the queries.** Where the writes to it succeed, the thread log is made of the records
of the passes. Its statements are those of the performed queries that are to be logged, in order and
each with its position where positions are logged, if and only if no pass so far has performed such
a query as the last of too many failures or at a position from 2 ^ 32 on. -/
theorem complete_query_log (w : Worker) (answers : Nat → Answer) (passes : Nat)
    (hwrites : ∀ k, WritesSucceed w (answers k)) :
    (runLoop w answers passes).1.threadLog = (records w answers passes).flatMap LogRecord.texts ∧
      (CompleteLog w (records w answers passes) (runLoop w answers passes).1.performed ↔
        ∀ k < passes, ∀ l, runLoop w answers k = (l, none) → KeepsRecord w (answers k) l) :=
  ⟨threadLog_eq_records hwrites passes, (completeLog_iff w answers passes).1⟩

/-- A worker that draws 300 queries from a list of one and logs those that fail. -/
def failuresLogged : Worker :=
  { params :=
      { dbtype := .eMYSQL, infiletype := .eSQL, shuffle := true, queries_per_thread := 300,
        log_failed_queries := true, log_query_numbers := true }
    queryList := ["SELECT 1".toList] }

/-- The query fails, and nothing throws. -/
def Answer.failed : Answer :=
  { Answer.quiet with success := false, errorString := "server has gone away".toList }

/-- Two queries that fail are in the log. -/
theorem complete_query_log_two :
    CompleteLog failuresLogged (records failuresLogged (fun _ => .failed) 2)
      (runLoop failuresLogged (fun _ => .failed) 2).1.performed := by
  refine (complete_query_log failuresLogged (fun _ => .failed) 2 fun _ _ h => by cases h).2.mpr ?_
  intro k hk l hl _ _ _
  have hhead := atHead_of_runLoop hl
  refine ⟨.inr ?_, fun _ => show (0 % 2 ^ 32 + 1 : Nat) < 2 ^ 32 by decide⟩
  have hlow : failing l.outcomes ≤ k := by
    rw [← hhead.length_performed, ← List.length_map Prod.snd]
    exact (List.rtakeWhile_suffix (! ·) l.outcomes).length_le
  have hcount : l.db.consecutive_failures ≤ failing l.outcomes := by
    rw [hhead.counted.consecutive]
    exact Nat.mod_le _ _
  unfold maxConFailures
  omega

/-- The query that completes a series of 250 failures is performed and is not in the log. -/
theorem not_complete_query_log :
    (∀ k, WritesSucceed failuresLogged ((fun _ => Answer.failed : Nat → Answer) k)) ∧
      (runLoop failuresLogged (fun _ => .failed) 250).1.performed.length = 250 ∧
      ¬ CompleteLog failuresLogged (records failuresLogged (fun _ => .failed) 250)
        (runLoop failuresLogged (fun _ => .failed) 250).1.performed := by
  have hgoes : ∀ k < 249, ¬ ForcesExit failuresLogged (fun _ => .failed) k := by
    rintro k hk (hthrows | ⟨_, hfails, _⟩ | ⟨hends, _⟩)
    · cases hthrows
    · cases hfails
    · unfold maxConFailures at hends
      omega
  obtain ⟨l, hl⟩ := @runLoop_of_not_forcesExit failuresLogged (fun _ => .failed) 249
    (fun k hk => Nat.lt_of_le_of_lt (Nat.mod_le k _) (Nat.lt_trans hk (by decide))) hgoes
  have hhead := atHead_of_runLoop hl
  have hcount : l.db.consecutive_failures = 249 := by
    have hlow := hhead.low
    have hall : 249 ≤ failing l.outcomes := by
      rw [hhead.outcomes, le_failing_outcomesOf]
      exact ⟨Nat.le_refl _, fun _ _ _ => rfl⟩
    unfold maxConFailures at hlow
    rw [hhead.counted.consecutive, Nat.mod_eq_of_lt (by omega)]
    omega
  have hi : l.i < failuresLogged.params.queries_per_thread := by
    rw [hhead.counter]
    decide
  refine ⟨fun _ _ h => (by cases h), ?_, fun hcomplete => ?_⟩
  · rw [runLoop_succ hl, loopStep_performed, if_pos ⟨hi, rfl⟩, List.length_append,
      hhead.length_performed]
    rfl
  · have hkeeps := (completeLog_iff failuresLogged (fun _ => .failed) 250).1.mp hcomplete 249
      (by decide) l hl hi rfl rfl
    rcases hkeeps.1 with hsuccess | hlow
    · cases hsuccess
    · rw [hcount] at hlow
      exact absurd hlow (by decide)

end PQuery.DbWorker

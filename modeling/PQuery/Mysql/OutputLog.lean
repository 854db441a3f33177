import PQuery.DbWorker.Replay
import PQuery.Mysql.Sync

/-!
# The client output log

With `log-client-output` a thread writes what `processQueryOutput` has collected of each query to its
`.out` file: the rows of its results up to the first one that cannot be retrieved (`shown`), a line each,
then the number of the query, where it is asked for, and a newline. The file can be read back where the
fields are told apart from the separators and from the two words that stand for NULL and for an empty
field (`output_log_reads_back`).
-/

namespace PQuery.DbWorker

theorem outputLog_of_runLoop {w : Worker} {answers : Nat → Answer} {n : Nat} {l : Loop}
    (h : runLoop w answers n = (l, none)) : l.performed.length = n ∧
      l.outputLog = (List.range n).flatMap fun k => outputTexts w (numberAt w answers k) (answers k) := by
  refine ⟨(atHead_of_runLoop h).length_performed, ?_⟩
  refine (runLoop_induction (motive := fun n l => AtHead answers n l ∧
    l.outputLog = (List.range n).flatMap fun k => outputTexts w (numberAt w answers k) (answers k))
    ⟨atHead_initial, rfl⟩ ?_ h).2
  rintro n l ⟨hhead, hlog⟩ _ hc
  have hnumber : queryNumber w (answers n) l = numberAt w answers n := by
    rw [queryNumber, numberAt, hhead.counter]
  refine ⟨hhead.completed hc, ?_⟩
  have hpass : (l.completed w (answers n)).outputLog =
      l.outputLog ++ outputTexts w (queryNumber w (answers n) l) (answers n) := by
    simp only [Loop.completed, bodyOps, List.foldl_append, foldl_threadLog, foldl_outputLog]
    rfl
  rw [hpass, hlog, hnumber, List.range_succ, List.flatMap_append, List.flatMap_singleton]

end PQuery.DbWorker

namespace PQuery.Mysql

open DbWorker ListScan

/-! ### What is written -/

/-- A row of a result: in each field a text, or NULL. -/
abbrev Row := List (Option Str)

/-- The rows of the results, up to the first result that cannot be retrieved. -/
def shown : List ServerResult → List Row
  | [] => []
  | .rows _ rows :: results => rows.map Vector.toList ++ shown results
  | .ok :: results => shown results
  | .unreadable num_fields :: results => if num_fields = 0 then shown results else []

/-- A row in a line. -/
def rowLine (row : Row) : Str := ['\t'].intercalate (row.map fieldText)

theorem flatten_rowTexts {num_fields : Nat} (row : Vector (Option Str) num_fields) :
    (rowTexts row).flatten = rowLine row.toList ++ ['\n'] := by
  rw [rowTexts, List.flatten_append, rowLine, List.intercalate]
  rfl

theorem flatten_shownTexts (results : List ServerResult) :
    (shownTexts results).flatten = (shown results).flatMap (rowLine · ++ ['\n']) := by
  induction results with
  | nil => rfl
  | cons result results ih =>
    cases result with
    | rows num_fields rows =>
      have hrows : (rows.flatMap rowTexts).flatten = (rows.map Vector.toList).flatMap (rowLine · ++ ['\n']) := by
        rw [List.flatten_eq_flatMap, List.flatMap_assoc, List.flatMap_map]
        refine List.flatMap_congr fun row _ => ?_
        rw [← flatten_rowTexts, List.flatten_eq_flatMap]
      rw [shownTexts, shown, List.flatten_append, List.flatMap_append, hrows, ih]
    | ok => exact ih
    | unreadable num_fields =>
      rw [shownTexts, shown]
      split
      · exact ih
      · rfl

/-! ### Reading it back -/

/-- A field as it stands in the log. -/
def readField (text : Str) : Option Str :=
  if text = "NULL".toList then none else if text = "EMPTY".toList then some [] else some text

def readRow (line : Str) : Row := (line.splitOn '\t').map readField

/-- The line behind the rows of a query: its number, or nothing. -/
def endsOutput (line : Str) : Bool := line.isEmpty || line.head? == some '#'

/-- The rows of each query, and the line behind them. -/
def readOutput (log : Str) : List (List Row × Str) :=
  (groups endsOutput [] (lines '\n' log)).map fun entry => (entry.1.map readRow, entry.2)

/-- A text that is told apart from the separators, from the number of a query and from the words that stand
for NULL and for an empty field. -/
@[mk_iff] structure Clean (text : Str) : Prop where
  tab : '\t' ∉ text
  newline : '\n' ∉ text
  number : text.head? ≠ some '#'
  null : text ≠ "NULL".toList
  empty : text ≠ "EMPTY".toList

instance (text : Str) : Decidable (Clean text) := decidable_of_iff' _ (clean_iff text)

/-- A row that has a field, and clean texts in them. -/
def CleanRow (row : Row) : Prop := row ≠ [] ∧ ∀ field ∈ row, ∀ text ∈ field, Clean text

instance (row : Row) : Decidable (CleanRow row) :=
  inferInstanceAs (Decidable (row ≠ [] ∧ ∀ field ∈ row, ∀ text ∈ field, Clean text))

section
variable {row : Row} {text : Str}

theorem readField_fieldText {field : Option Str} (h : ∀ text ∈ field, Clean text) :
    readField (fieldText field) = field := by
  cases field with
  | none => rfl
  | some text =>
    cases text with
    | nil => rfl
    | cons c text =>
      obtain ⟨-, -, -, hnull, hempty⟩ := h _ rfl
      exact (if_neg hnull).trans (if_neg hempty)

theorem fieldText_clean {field : Option Str} (h : ∀ text ∈ field, Clean text) :
    fieldText field ≠ [] ∧ '\t' ∉ fieldText field ∧ '\n' ∉ fieldText field ∧ (fieldText field).head? ≠ some '#' := by
  cases field with
  | none => decide
  | some text =>
    cases text with
    | nil => decide
    | cons c text =>
      obtain ⟨htab, hnewline, hnumber, -, -⟩ := h _ rfl
      exact ⟨List.cons_ne_nil c text, htab, hnewline, hnumber⟩

theorem readRow_rowLine (h : CleanRow row) : readRow (rowLine row) = row := by
  obtain ⟨hne, hclean⟩ := h
  have htab : ∀ text ∈ row.map fieldText, '\t' ∉ text := by
    rw [List.forall_mem_map]
    exact fun field hfield => (fieldText_clean (hclean field hfield)).2.1
  rw [readRow, rowLine, List.splitOn_intercalate '\t' htab (by simpa using hne), List.map_map]
  refine (List.map_congr_left fun field hfield => ?_).trans (List.map_id row)
  exact readField_fieldText (hclean field hfield)

theorem rowLine_clean (h : CleanRow row) : endsOutput (rowLine row) = false ∧ '\n' ∉ rowLine row := by
  obtain ⟨hne, hclean⟩ := h
  refine ⟨?_, ?_⟩
  · obtain ⟨field, row, rfl⟩ := List.exists_cons_of_ne_nil hne
    obtain ⟨hfirst, -, -, hnumber⟩ := fieldText_clean (hclean field List.mem_cons_self)
    obtain ⟨c, text, htext⟩ := List.exists_cons_of_ne_nil hfirst
    rw [htext] at hnumber
    rw [rowLine, List.map_cons, htext, List.intercalate_cons_cons_left]
    simpa [endsOutput] using hnumber
  · refine notMem_intercalate (by decide) ?_
    rw [List.forall_mem_map]
    exact fun field hfield => (fieldText_clean (hclean field hfield)).2.2.1

end

/-! ### The log of a run -/

/-- The line behind the rows of a query. -/
def numberLine (w : Worker) (query_number : Nat) : Str :=
  if w.params.log_query_numbers then '#' :: numberText query_number else []

/-- What the first queries of a run have shown, those that show no row left out. -/
def outputEntries (w : Worker) (answers : Nat → Answer) (replies : Nat → Reply) (n : Nat) : List (List Row × Str) :=
  (List.range n).filterMap fun k =>
    let rows := shown (replies k).results
    if rows = [] then none else some (rows, numberLine w (numberAt w answers k))

section
variable {w : Worker} {answers : Nat → Answer} {replies : Nat → Reply}

theorem flatten_outputTexts (hlog : w.params.log_client_output = true) (query_number : Nat) {a : Answer}
    {rows : List Row} (hresult : a.queryResult = rows.flatMap (rowLine · ++ ['\n'])) :
    (outputTexts w query_number a).flatten =
      if rows = [] then []
      else (rows.map rowLine ++ [numberLine w query_number]).flatMap (· ++ ['\n']) := by
  have hlines : (rows.map rowLine).flatMap (· ++ ['\n']) = a.queryResult := by
    rw [hresult, List.flatMap_map]
  unfold outputTexts
  by_cases hrows : rows = []
  · rw [hrows] at hresult
    simp [hresult, hrows]
  · have hne : a.queryResult.isEmpty = false := by
      obtain ⟨row, rows, rfl⟩ := List.exists_cons_of_ne_nil hrows
      simp [hresult]
    rw [if_neg hrows, List.flatMap_append, hlines, if_pos (by simp [hne, hlog])]
    unfold numberLine
    cases w.params.log_query_numbers <;> simp

theorem runLoop_before {n : Nat} {l : Loop} (h : runLoop w answers n = (l, none)) {k : Nat} (hk : k ≤ n) :
    ∃ l', runLoop w answers k = (l', none) := by
  induction n generalizing l with
  | zero =>
    obtain rfl := Nat.le_zero.mp hk
    exact ⟨l, h⟩
  | succ n ih =>
    rcases Nat.lt_or_eq_of_le hk with hk | rfl
    · match hr : runLoop w answers n with
      | (l', none) => exact ih hr (Nat.le_of_lt_succ hk)
      | (l', some exit) =>
        rw [runLoop, hr] at h
        cases h
    · exact ⟨l, h⟩

theorem queryResult_loopAnswers {k : Nat} {l : Loop}
    (h : runLoop w (loopAnswers w answers replies) (k + 1) = (l, none)) :
    (loopAnswers w answers replies k).queryResult =
      (shown (replies k).results).flatMap (rowLine · ++ ['\n']) := by
  rw [← runConnected_loop, runConnected] at h
  rcases hr : runConnected w answers replies k with ⟨⟨l', _ | exit⟩, conn⟩
  · rw [hr] at h
    obtain ⟨-, ⟨-, -, hbody⟩, -⟩ := loopStep_none h
    have hsent := @processQueryOutput_sent (replies k) conn (w.query (queryNumber w (answers k) l'))
    simp only [loopAnswers, hr]
    split at hsent
    · exact absurd (bodyThrows_of_output hsent) hbody
    · rw [answer_of_some hsent, flatten_shownTexts]
  · rw [hr] at h
    cases h

theorem numberAt_loopAnswers (k : Nat) :
    numberAt w (loopAnswers w answers replies) k = numberAt w answers k := by
  have hdrawn : (loopAnswers w answers replies k).drawn = (answers k).drawn := by
    unfold loopAnswers
    split
    · obtain ⟨_, _, hanswer⟩ := answer_eq
      rw [hanswer]
      rfl
    · rfl
  unfold numberAt
  rw [hdrawn]

theorem outputEntries_clean (hclean : ∀ k, ∀ row ∈ shown (replies k).results, CleanRow row) (n : Nat) :
    ∀ entry ∈ outputEntries w answers replies n, (∀ row ∈ entry.1, CleanRow row) ∧
      endsOutput entry.2 = true ∧ '\n' ∉ entry.2 := by
  intro entry hentry
  obtain ⟨k, -, hk⟩ := List.mem_filterMap.mp hentry
  dsimp only at hk
  split at hk
  · cases hk
  · obtain rfl := Option.some.inj hk
    refine ⟨hclean k, ?_⟩
    unfold numberLine
    split
    · refine ⟨rfl, ?_⟩
      rw [List.mem_cons, not_or]
      exact ⟨by decide, fun hmem => absurd ((to_string_digits _).2 _ hmem) (by decide)⟩
    · exact ⟨rfl, List.not_mem_nil⟩

theorem outputLog_lines (hlog : w.params.log_client_output = true) {n : Nat} {l : Loop}
    (h : runLoop w (loopAnswers w answers replies) n = (l, none)) :
    l.outputLog.flatten = ((outputEntries w answers replies n).flatMap fun entry =>
      entry.1.map rowLine ++ [entry.2]).flatMap (· ++ ['\n']) := by
  rw [(outputLog_of_runLoop h).2, List.flatten_eq_flatMap, List.flatMap_assoc, outputEntries,
    List.filterMap_eq_flatMap_toList, List.flatMap_assoc, List.flatMap_assoc]
  refine List.flatMap_congr fun k hk => ?_
  obtain ⟨l', hcompleted⟩ := runLoop_before h (List.mem_range.mp hk)
  rw [List.flatMap_id, numberAt_loopAnswers, flatten_outputTexts hlog _ (queryResult_loopAnswers hcompleted)]
  by_cases hrows : shown (replies k).results = []
  · simp [hrows]
  · simp [hrows]

/-- What was written by then is read back, whatever follows it. -/
theorem readOutput_append (hlog : w.params.log_client_output = true)
    (hclean : ∀ k, ∀ row ∈ shown (replies k).results, CleanRow row) {n : Nat} {l : Loop}
    (h : runLoop w (loopAnswers w answers replies) n = (l, none)) (rest : Str) :
    readOutput (l.outputLog.flatten ++ rest) = outputEntries w answers replies n ++ readOutput rest := by
  have hentries := @outputEntries_clean w answers replies hclean n
  have hlines : ∀ line ∈ (outputEntries w answers replies n).flatMap fun entry =>
      entry.1.map rowLine ++ [entry.2], '\n' ∉ line := by
    intro line hline
    obtain ⟨entry, hentry, hline⟩ := List.mem_flatMap.mp hline
    obtain ⟨hrows, -, hnewline⟩ := hentries entry hentry
    rcases List.mem_append.mp hline with hline | hline
    · obtain ⟨row, hrow, rfl⟩ := List.mem_map.mp hline
      exact (rowLine_clean (hrows row hrow)).2
    · rwa [List.mem_singleton.mp hline]
  have hends : ∀ group ∈ (outputEntries w answers replies n).map fun entry => (entry.1.map rowLine, entry.2),
      (∀ line ∈ group.1, endsOutput line = false) ∧ endsOutput group.2 = true := by
    rw [List.forall_mem_map]
    intro entry hentry
    obtain ⟨hrows, hend, -⟩ := hentries entry hentry
    rw [List.forall_mem_map]
    exact ⟨fun row hrow => (rowLine_clean (hrows row hrow)).1, hend⟩
  have hgroups := groups_flatMap hends (lines '\n' rest)
  rw [List.flatMap_map] at hgroups
  rw [readOutput, outputLog_lines hlog h, lines_flatMap_append hlines, hgroups, List.map_append, List.map_map]
  refine congrArg (· ++ readOutput rest) ((List.map_congr_left fun entry hentry => ?_).trans (List.map_id _))
  have hrows : (entry.1.map rowLine).map readRow = entry.1 := by
    rw [List.map_map]
    refine (List.map_congr_left fun row hrow => ?_).trans (List.map_id _)
    exact readRow_rowLine ((hentries entry hentry).1 row hrow)
  exact congrArg (·, entry.2) hrows

theorem outputLog_foldl (ops : List Op) (l : Loop) :
    ∃ texts, (ops.foldl Loop.apply l).outputLog = l.outputLog ++ texts := by
  induction ops generalizing l with
  | nil => exact ⟨[], (List.append_nil _).symm⟩
  | cons op ops ih =>
    obtain ⟨texts, htexts⟩ := ih (l.apply op)
    rw [List.foldl_cons, htexts]
    cases op with
    | outputLog text =>
      refine ⟨text :: texts, ?_⟩
      show (l.outputLog ++ [text]) ++ texts = _
      rw [List.append_assoc, List.singleton_append]
    | _ => exact ⟨texts, rfl⟩

/-- A client output log is read back as the queries of the run and their rows: of every query that was
completed, in their order, and of these only, unless an exception has ended the run in the middle of a
query. -/
theorem output_log_reads_back (w : Worker) (answers : Nat → Answer) (replies : Nat → Reply) (n : Nat)
    (hlog : w.params.log_client_output = true)
    (hclean : ∀ k, ∀ row ∈ shown (replies k).results, CleanRow row) :
    let run := (runConnected w answers replies n).1
    ∃ m, outputEntries w answers replies m <+: readOutput run.1.outputLog.flatten ∧
      (run.1.performed.length = m ∨ run.1.performed.length = m + 1) ∧
      (run.2 ≠ some .threw → readOutput run.1.outputLog.flatten = outputEntries w answers replies m ∧
        (run.1.performed.length = m ↔ run.2 ≠ some .aborted)) := by
  intro run
  have hrun : run = runLoop w (loopAnswers w answers replies) n := runConnected_loop n
  rcases hr : run with ⟨l, _ | exit⟩
  · -- the loop goes on
    rw [hr] at hrun
    have hread := readOutput_append hlog hclean hrun.symm []
    rw [List.append_nil, show readOutput [] = [] from rfl, List.append_nil] at hread
    have hlength := (outputLog_of_runLoop hrun.symm).1
    exact ⟨n, hread ▸ List.prefix_rfl, .inl hlength, fun _ => ⟨hread, by simp [hlength]⟩⟩
  · rw [hr] at hrun
    obtain ⟨m, l₀, hbefore, hstep⟩ := exited_of_runLoop hrun.symm
    have hlength := (outputLog_of_runLoop hbefore).1
    have hread := readOutput_append hlog hclean hbefore []
    rw [List.append_nil, show readOutput [] = [] from rfl, List.append_nil] at hread
    have hperform (a : Answer) : (l₀.perform w a).performed.length = m + 1 := by
      simp [Loop.perform, hlength]
    refine ⟨m, ?_⟩
    unfold loopStep at hstep
    by_cases hi : l₀.i < w.params.queries_per_thread
    · rw [if_pos hi] at hstep
      rcases iteration_cases (w := w) (a := loopAnswers w answers replies m) (l := l₀) with ⟨_, hpass⟩ |
        ⟨_, _, hpass⟩ | ⟨_, _, _, hpass⟩ | ⟨_, _, _, hpass⟩
      · -- the query throws
        rw [hpass] at hstep
        cases hstep
        exact ⟨hread ▸ List.prefix_rfl, .inl hlength, fun h => absurd rfl h⟩
      · -- the failures are too many
        rw [hpass] at hstep
        cases hstep
        have haborted : readOutput (l₀.perform w (loopAnswers w answers replies m)).outputLog.flatten =
            outputEntries w answers replies m := hread
        exact ⟨haborted ▸ List.prefix_rfl, .inr (hperform _), fun _ => ⟨haborted, by simp [hperform]⟩⟩
      · -- a write or the processing of the output throws
        rw [hpass] at hstep
        cases hstep
        obtain ⟨texts, htexts⟩ := outputLog_foldl (madeOps w (loopAnswers w answers replies m) l₀)
          (l₀.perform w (loopAnswers w answers replies m))
        have hall : readOutput (l₀.outputLog ++ texts).flatten =
            outputEntries w answers replies m ++ readOutput texts.flatten := by
          rw [List.flatten_append, readOutput_append hlog hclean hbefore]
        refine ⟨⟨readOutput texts.flatten, ?_⟩, .inr ?_, fun h => absurd rfl h⟩
        · rw [htexts]
          exact hall.symm
        · rw [(foldl_apply _ _).2.2]
          exact hperform _
      · rw [hpass] at hstep
        cases hstep
    · -- the queries are all made
      rw [if_neg hi] at hstep
      cases hstep
      exact ⟨hread ▸ List.prefix_rfl, .inl hlength, fun _ => ⟨hread, by simp [hlength]⟩⟩

end

/-- A worker of one thread that logs what the client is shown. -/
def shownQueries : Worker :=
  { params := { threads := 1, queries_per_thread := 2, log_client_output := true, log_query_numbers := true }
    queryList := ["CALL p()".toList, "SELECT 2".toList] }

/-- A procedure that returns two results; then a query whose result cannot be retrieved after its first. -/
def shownReplies : Nat → Reply
  | 0 => ⟨[.rows 2 [#v[some "a".toList, none], #v[some [], some "b".toList]], .rows 1 [#v[some "c".toList]], .ok],
      MYSQL.connected.last, 0, none⟩
  | _ => ⟨[.rows 1 [#v[some "2".toList]], .unreadable 1, .rows 1 [#v[none]]], MYSQL.connected.last, 0, none⟩

theorem output_log_reads_back_two :
    let run := (runConnected shownQueries (fun _ => .quiet) shownReplies 3).1
    readOutput run.1.outputLog.flatten =
        [([[some "a".toList, none], [some [], some "b".toList], [some "c".toList]], "#1".toList),
          ([[some "2".toList]], "#2".toList)] ∧
      ∃ m, outputEntries shownQueries (fun _ => .quiet) shownReplies m <+: readOutput run.1.outputLog.flatten ∧
        (run.1.performed.length = m ∨ run.1.performed.length = m + 1) ∧
        (run.2 ≠ some .threw → readOutput run.1.outputLog.flatten =
            outputEntries shownQueries (fun _ => .quiet) shownReplies m ∧
          (run.1.performed.length = m ↔ run.2 ≠ some .aborted)) := by
  have hclean : ∀ k, ∀ row ∈ shown (shownReplies k).results, CleanRow row := by
    intro k
    match k with
    | 0 => decide
    | k + 1 => exact (by decide : ∀ row ∈ shown (shownReplies 1).results, CleanRow row)
  exact ⟨by decide +kernel, output_log_reads_back shownQueries (fun _ => .quiet) shownReplies 3 rfl hclean⟩

end PQuery.Mysql

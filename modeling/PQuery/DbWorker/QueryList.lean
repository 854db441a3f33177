import PQuery.Config.Options
import PQuery.DbWorker.ExecuteTests
import PQuery.SqlFile.Conservation
import PQuery.SqlFile.Written

/-!
# The list of queries in memory

What the limit on the size of the infile says of the list: it takes no more than the file does
(`memory_limit`), and has at most half as many statements as the file has characters. The random
choice of a statement narrows the length of the list to 32 bits, so it depends on that number
(`random_choice_iff`).
-/

namespace PQuery.DbWorker

open Config SqlFile ListScan

/-! ### The limit -/

/-- The list takes no more than the file, and nothing of the file is in it twice. -/
structure WithinFile (queryList : List Str) (file : Str) : Prop where
  size : (queryList.map List.length).sum + queryList.length - 1 ≤ file.length
  count : queryList.length ≤ (file.length + 1) / 2
  order : queryList.flatten.Sublist file
  scattered : Scattered queryList file
  made : ∃ ps : List Piece, ps.flatMap Piece.text = terminated '\n' file ∧
    queryList = statementsFrom [] ps

theorem withinFile (dollarQuoting : Bool) (file : Str) :
    WithinFile (SqlFile.loadQueriesFromFile dollarQuoting [] file) file := by
  rw [splitStatements_pieces, List.nil_append]
  have hscattered := statements_scattered dollarQuoting file
  have hsize := hscattered.length_add_le
  have hcount := hscattered.two_mul_length_le fun q hq => (mem_statementsFrom hq).2
  exact ⟨by omega, by omega, hscattered.flatten_sublist, hscattered, _, pieces_text _ _ _ _, rfl⟩

/-- **Memory limit.** The statements of an infile that passes the check and a character between any
two of them fit into the limit; they are cut out of the file in its order, without overlap. -/
theorem memory_limit {mParams : workerParams} {file : Str} (dollarQuoting : Bool)
    (hsize : validateInfileSize mParams (some file) = true) :
    WithinFile (SqlFile.loadQueriesFromFile dollarQuoting [] file) file ∧
      file.length ≤ mParams.query_list_maxsize ∧
      ∀ testConnection previous w, prepare mParams testConnection (some file) previous = some w →
        (w.queryList.map List.length).sum + w.queryList.length - 1 ≤ mParams.query_list_maxsize := by
  have hlimit := validateInfileSize_le hsize
  refine ⟨withinFile dollarQuoting file, hlimit, fun testConnection previous w hw => ?_⟩
  rw [(prepare_eq_some hw).1]
  exact (withinFile _ file).size.trans hlimit

/-- A file of five characters and its three statements. -/
theorem memory_limit_five : WithinFile ["a".toList, "b".toList, "c".toList] "a;b;c".toList := by
  have hwithin := (@memory_limit { query_list_maxsize := 5 } "a;b;c".toList true (by decide)).1
  have hlist : SqlFile.loadQueriesFromFile true [] "a;b;c".toList =
      ["a".toList, "b".toList, "c".toList] := by decide
  rwa [hlist] at hwithin

/-! ### The random choice -/

/-- `queryList->size() - 1`, converted to the `int` that the distribution takes. -/
def lastNumber (w : Worker) : Int := Int.bmod (w.queryList.length - 1 : Nat) (2 ^ 32)

/-- The bounds `0` and `queryList->size() - 1` are the first and the last position of the list, and the
numbers drawn between them are its positions; `dis a b n` says that the distribution on `a`, `b` can
draw `n`. -/
structure RandomChoice (dis : Int → Int → Int → Prop) (w : Worker) : Prop where
  bounds : lastNumber w = w.queryList.length - 1
  le : 0 ≤ lastNumber w
  valid : w.params.shuffle = true → ∀ a l, dis 0 (lastNumber w) a.drawn →
    queryNumber w a l < w.queryList.length
  covers : w.params.shuffle = true → ∀ k < w.queryList.length, ∃ n : Nat, dis 0 (lastNumber w) n ∧
    ∀ a l, a.drawn = n → queryNumber w a l = k

theorem lastNumber_eq_iff {w : Worker} (hne : w.queryList ≠ []) :
    lastNumber w = w.queryList.length - 1 ↔ w.queryList.length ≤ 2 ^ 31 := by
  have hpos := List.length_pos_iff.mpr hne
  unfold lastNumber
  generalize w.queryList.length = n at hpos ⊢
  have hcast : ((n - 1 : Nat) : Int) = n - 1 := by omega
  rw [hcast]
  constructor
  · intro h
    have hlt : ((n : Int) - 1).bmod (2 ^ 32) < ((2 ^ 32 : Nat) + 1) / 2 := Int.bmod_lt (by decide)
    rw [h] at hlt
    omega
  · intro h
    exact Int.bmod_eq_of_le (by omega) (by omega)

theorem randomChoice_of_le {dis : Int → Int → Int → Prop}
    (hdis : ∀ a b, a ≤ b → ∀ n, dis a b n ↔ a ≤ n ∧ n ≤ b) {w : Worker} (hne : w.queryList ≠ [])
    (hlength : w.queryList.length ≤ 2 ^ 31) : RandomChoice dis w := by
  have hbounds := (lastNumber_eq_iff hne).mpr hlength
  have hpos := List.length_pos_iff.mpr hne
  have hle : 0 ≤ lastNumber w := by omega
  have hnumber : w.params.shuffle = true → ∀ a l, a.drawn < w.queryList.length →
      queryNumber w a l = a.drawn := by
    intro hshuffle a l hdrawn
    rw [queryNumber, if_pos hshuffle, Nat.mod_eq_of_lt (by omega)]
  refine ⟨hbounds, hle, fun hshuffle a l hdrawn => ?_, fun hshuffle k hk => ⟨k, ?_, ?_⟩⟩
  · obtain ⟨-, hmax⟩ := (hdis 0 _ hle _).mp hdrawn
    have hlt : a.drawn < w.queryList.length := by omega
    rwa [hnumber hshuffle a l hlt]
  · exact (hdis 0 _ hle _).mpr ⟨by omega, by omega⟩
  · rintro a l rfl
    exact hnumber hshuffle a l hk

/-- **Random choice.** The bounds of the distribution are those of the list, and it draws all of its
positions and no others, if and only if the list has at most `2 ^ 31` statements. A file of at most
`2 ^ 32` characters has no more of them. -/
theorem random_choice_iff {dis : Int → Int → Int → Prop}
    (hdis : ∀ a b, a ≤ b → ∀ n, dis a b n ↔ a ≤ n ∧ n ≤ b) {mParams : workerParams}
    {testConnection : Bool} {file : Str} {previous : Option (List Str)} {w : Worker}
    (hprepare : prepare mParams testConnection (some file) previous = some w) (hne : w.queryList ≠ []) :
    (RandomChoice dis w ↔ w.queryList.length ≤ 2 ^ 31) ∧ (file.length ≤ 2 ^ 32 → RandomChoice dis w) := by
  have hcount := (withinFile (mParams.dbtype == .ePGSQL) file).count
  rw [← (prepare_eq_some hprepare).1] at hcount
  refine ⟨⟨fun h => (lastNumber_eq_iff hne).mp h.bounds, randomChoice_of_le hdis hne⟩, fun hfile => ?_⟩
  exact randomChoice_of_le hdis hne (by omega)

/-- A list of two statements. -/
theorem random_choice_iff_two : ∃ w, prepare
      { dbtype := .eMYSQL, infiletype := .eSQL, query_list_maxsize := 1073741824, shuffle := true }
      true (some "a;b".toList) none = some w ∧
    RandomChoice (fun a b n => a ≤ n ∧ n ≤ b) w := by
  refine ⟨_, rfl, ?_⟩
  exact (@random_choice_iff (fun a b n => a ≤ n ∧ n ≤ b) (fun a b _ n => Iff.rfl)
    { dbtype := .eMYSQL, infiletype := .eSQL, query_list_maxsize := 1073741824, shuffle := true }
    true "a;b".toList none _ rfl (by decide)).2 (by decide)

theorem prepare_written {p : workerParams} (hdbtype : p.dbtype = .eMYSQL) (hinfiletype : p.infiletype = .eSQL)
    {queries : List Str} (hqueries : ∀ q ∈ queries, q ≠ [] ∧ trim q = q ∧ selfContained false q = true)
    (hne : queries ≠ []) (hsize : (written queries).length ≤ p.query_list_maxsize) :
    prepare p true (some (written queries)) none =
      some { params := adjustRuntimeParams p queries, queryList := queries } := by
  have hload : SqlFile.loadQueriesFromFile false [] (written queries) = queries := by
    rw [splitStatements_pieces, List.nil_append, statements_written hqueries]
  have hlength : (written queries).length ≠ 0 := by
    obtain ⟨q, queries, rfl⟩ := List.exists_cons_of_ne_nil hne
    simp [written]
  simp [prepare, loadQueryList, createInfileParser, hdbtype, hinfiletype, validateInfileSize, getInfileSize,
    hlength, Nat.not_lt.mpr hsize, InfileParser.loadQueriesFromFile, hload]

theorem written_replicate_length (n : Nat) (q : Str) :
    (written (List.replicate n q)).length = n * (q.length + 2) := by
  induction n with
  | zero => simp [written]
  | succ n ih =>
    rw [written] at ih ⊢
    rw [List.replicate_succ, List.flatMap_cons, List.length_append, ih, Nat.succ_mul, Nat.add_comm]
    simp

/-- A limit of 8 gigabytes admits a file with one statement too many: the upper bound is negative. -/
theorem not_random_choice : ∃ p file w,
    setupWorkerParams ⟨true, true⟩ (INIReader.open (some
      "[w]\nshuffle = yes\nquery-list-maxsize = 8G\n".toList)) "w".toList = .ok p ∧
    prepare p true (some file) none = some w ∧ w.queryList ≠ [] ∧ lastNumber w = -2 ^ 31 ∧
    ∀ dis, ¬ RandomChoice dis w := by
  have hfields : (setupWorkerParams ⟨true, true⟩ (INIReader.open (some
      "[w]\nshuffle = yes\nquery-list-maxsize = 8G\n".toList)) "w".toList).map
        (fun p => (p.dbtype, p.infiletype, p.query_list_maxsize)) = .ok (.eMYSQL, .eSQL, 8589934592) := by
    decide +kernel
  obtain ⟨p, hp, hfields⟩ := map_eq_ok.mp hfields
  simp only [Prod.mk.injEq] at hfields
  obtain ⟨hdbtype, hinfiletype, hmaxsize⟩ := hfields
  -- the number of statements is kept a variable, so that nothing evaluates the list
  obtain ⟨n, hn⟩ : ∃ n, n = 2 ^ 31 + 1 := ⟨_, rfl⟩
  have hne : List.replicate n "a".toList ≠ [] := by
    rw [ne_eq, List.replicate_eq_nil_iff]
    omega
  have hqueries : ∀ q ∈ List.replicate n "a".toList, q ≠ [] ∧ trim q = q ∧ selfContained false q = true := by
    intro q hq
    obtain rfl := List.eq_of_mem_replicate hq
    decide
  have hsize : (written (List.replicate n "a".toList)).length ≤ p.query_list_maxsize := by
    rw [written_replicate_length, hmaxsize, hn]
    decide
  have hlast : lastNumber ⟨adjustRuntimeParams p (List.replicate n "a".toList),
      List.replicate n "a".toList⟩ = -2 ^ 31 := by
    have hcast : (((List.replicate n "a".toList).length - 1 : Nat) : Int) = 2147483648 := by
      rw [List.length_replicate]
      omega
    have hnarrow : Int.bmod 2147483648 (2 ^ 32) = -2 ^ 31 := by decide
    rw [← hcast] at hnarrow
    exact hnarrow
  refine ⟨p, _, _, hp, prepare_written hdbtype hinfiletype hqueries hne hsize, hne, hlast, ?_⟩
  intro dis hchoice
  have hle := hchoice.le
  rw [hlast] at hle
  exact absurd hle (by decide)

end PQuery.DbWorker

import PQuery.SqlFile.Refinement

/-!
# Scripts one after the other

The scan of a file followed by another one is the scan of the second file from the variables that the
first one left. Two scans of the same lines that differ in the statements sent before and in blanks
before the pending statement go on doing so (`Behind`, `scanLines_behind`), so where the first file
ends in the Normal state with only blanks pending, its delimiter is all that the second file sees of
it, and a DELIMITER line sets that delimiter again.
-/

namespace PQuery.SqlFile

open ListScan

/-- The variables `s` differ from `t` by the statements `sent` before and by blanks before the pending
statement. -/
structure Behind (sent : List Str) (s t : Splitter) : Prop where
  state : s.state = t.state
  delimiter : s.delimiter = t.delimiter
  dollarTag : s.dollarTag = t.dollarTag
  queryList : s.queryList = sent ++ t.queryList
  statement : ∃ blanks, (∀ c ∈ blanks, isBlank c = true) ∧ s.statement = blanks ++ t.statement

section behind
variable {sent : List Str} {s t : Splitter}

theorem pushStatement_behind (h : Behind sent s t) : Behind sent (pushStatement s) (pushStatement t) := by
  obtain ⟨blanks, hblanks, hstatement⟩ := h.statement
  refine ⟨h.state, h.delimiter, h.dollarTag, ?_, [], by simp, rfl⟩
  simp only [pushStatement, hstatement, trim_blank_append hblanks, h.queryList]
  split
  · rfl
  · rw [List.append_assoc]

theorem consumeChar_behind (dollarQuoting : Bool) (text : Str) (pos : Nat) (h : Behind sent s t) :
    (consumeChar dollarQuoting text pos s).2 = (consumeChar dollarQuoting text pos t).2 ∧
      Behind sent (consumeChar dollarQuoting text pos s).1 (consumeChar dollarQuoting text pos t).1 := by
  have hpush := pushStatement_behind h
  obtain ⟨state, statement, delimiter, dollarTag, queryList⟩ := s
  obtain ⟨state', pending, delimiter', dollarTag', queryList'⟩ := t
  obtain ⟨hstate, hdelimiter, htag, hqueries, blanks, hblanks, hstatement⟩ := h
  simp only at hstate hdelimiter htag hqueries hstatement
  subst hstate hdelimiter htag hqueries hstatement
  have hbehind : ∀ (state : ScanState) (dollarTag u : Str),
      Behind sent ⟨state, blanks ++ pending ++ u, delimiter, dollarTag, sent ++ queryList'⟩
        ⟨state, pending ++ u, delimiter, dollarTag, queryList'⟩ := fun state dollarTag u =>
    ⟨rfl, rfl, rfl, rfl, blanks, hblanks, List.append_assoc blanks pending u⟩
  have hsame := fun state dollarTag => hbehind state dollarTag []
  simp only [List.append_nil] at hsame
  cases state <;> simp only [consumeChar]
  case Normal =>
    simp only [consumeNormalChar]
    split_ifs
    · exact ⟨rfl, hpush⟩
    · exact ⟨rfl, hsame _ _⟩
    · exact ⟨rfl, hsame _ _⟩
    · exact ⟨rfl, hsame _ _⟩
    all_goals exact ⟨rfl, hbehind _ _ _⟩
  case LineComment =>
    simp only [consumeLineCommentChar]
    split_ifs <;> exact ⟨rfl, hsame _ _⟩
  case BlockComment =>
    simp only [consumeBlockCommentChar]
    split_ifs <;> exact ⟨rfl, hsame _ _⟩
  case SingleQuote | DoubleQuote =>
    simp only [consumeQuotedChar, List.append_assoc (blanks ++ pending), List.append_assoc pending]
    split_ifs <;> exact ⟨rfl, hbehind _ _ _⟩
  case Backtick =>
    simp only [consumeBacktickChar]
    split_ifs <;> exact ⟨rfl, hbehind _ _ _⟩
  case DollarQuote =>
    simp only [consumeDollarQuoteChar]
    split_ifs <;> exact ⟨rfl, hbehind _ _ _⟩

theorem scanLine_behind (dollarQuoting : Bool) (line : Str) (fuel pos : Nat) (h : Behind sent s t) :
    Behind sent (scanLine dollarQuoting line fuel pos s) (scanLine dollarQuoting line fuel pos t) := by
  induction fuel generalizing pos s t with
  | zero => exact h
  | succ fuel ih =>
    obtain ⟨hpos, hstep⟩ := consumeChar_behind dollarQuoting line pos h
    simp only [scanLine, hpos]
    split
    · exact ih _ hstep
    · exact h

theorem scanLines_behind (dollarQuoting : Bool) (ls : List Str) (h : Behind sent s t) :
    Behind sent (scanLines dollarQuoting ls s) (scanLines dollarQuoting ls t) := by
  induction ls generalizing s t with
  | nil => exact h
  | cons line rest ih =>
    have hcmd : delimiterCommand s line = delimiterCommand t line := by
      rw [delimiterCommand, delimiterCommand, h.state]
    rw [scanLines, scanLines, hcmd]
    split
    · exact ih ⟨h.state, rfl, h.dollarTag, h.queryList, h.statement⟩
    · exact ih (scanLine_behind dollarQuoting _ _ _ h)

end behind

/-! ### The delimiter in force -/

theorem consumeChar_delimiter (dollarQuoting : Bool) (text : Str) (pos : Nat) (s : Splitter) :
    (consumeChar dollarQuoting text pos s).1.delimiter = s.delimiter := by
  rcases hstate : s.state <;> simp only [consumeChar, hstate, consumeNormalChar, consumeQuotedChar,
    consumeBacktickChar, consumeLineCommentChar, consumeBlockCommentChar, consumeDollarQuoteChar]
  all_goals split_ifs <;> rfl

theorem scanLine_delimiter (dollarQuoting : Bool) (line : Str) (fuel pos : Nat) (s : Splitter) :
    (scanLine dollarQuoting line fuel pos s).delimiter = s.delimiter := by
  induction fuel generalizing pos s with
  | zero => rfl
  | succ fuel ih =>
    rw [scanLine]
    split
    · exact (ih _ _).trans (consumeChar_delimiter dollarQuoting line pos s)
    · rfl

theorem scanLines_delimiter (dollarQuoting : Bool) (ls : List Str) (s : Splitter) :
    (scanLines dollarQuoting ls s).delimiter = s.delimiter ∨
      ∃ line ∈ ls, isDelimiterCommand line = some (scanLines dollarQuoting ls s).delimiter := by
  induction ls generalizing s with
  | nil => exact Or.inl rfl
  | cons line rest ih =>
    rw [scanLines]
    split
    · rename_i newDelimiter hcmd
      rcases ih { s with delimiter := newDelimiter } with h | ⟨l, hl, h⟩
      · refine Or.inr ⟨line, by simp, ?_⟩
        rw [h, ← hcmd, delimiterCommand, if_pos (Option.ite_none_right_eq_some.mp hcmd).1]
      · exact Or.inr ⟨l, by simp [hl], h⟩
    · rcases ih (scanLine dollarQuoting (line ++ ['\n']) (line ++ ['\n']).length 0 s) with h | ⟨l, hl, h⟩
      · exact Or.inl (h.trans (scanLine_delimiter _ _ _ _ _))
      · exact Or.inr ⟨l, by simp [hl], h⟩

theorem scanLines_delimiter_trim (dollarQuoting : Bool) (ls : List Str) (queryList : List Str) :
    (scanLines dollarQuoting ls (initial queryList)).delimiter ≠ [] ∧
      trim (scanLines dollarQuoting ls (initial queryList)).delimiter =
        (scanLines dollarQuoting ls (initial queryList)).delimiter := by
  rcases scanLines_delimiter dollarQuoting ls (initial queryList) with h | ⟨line, -, h⟩
  · rw [h]
    exact ⟨show ";".toList ≠ [] by decide, show trim ";".toList = ";".toList by decide⟩
  · refine ⟨(isDelimiterCommand_mem h).1, ?_⟩
    generalize (scanLines dollarQuoting ls (initial queryList)).delimiter = delimiter at h
    simp only [isDelimiterCommand] at h
    split_ifs at h
    obtain rfl := Option.some.inj h
    exact strip_strip isBlank _

theorem isDelimiterCommand_delimiter {delimiter : Str} (hne : delimiter ≠ [])
    (htrim : trim delimiter = delimiter) :
    isDelimiterCommand ("DELIMITER ".toList ++ delimiter) = some delimiter := by
  have hlast : ∀ c ∈ ("DELIMITER ".toList ++ delimiter).getLast?, isBlank c = false := by
    rw [List.getLast?_append_of_ne_nil _ hne, ← htrim]
    exact getLast?_strip isBlank delimiter
  have hline : trim ("DELIMITER ".toList ++ delimiter) = "DELIMITER ".toList ++ delimiter := by
    simpa [trim] using strip_append (by simp) (by simp [isBlank]) hlast [] []
  have hpos := List.length_pos_iff.mpr hne
  have hlen : ¬ ("DELIMITER ".toList ++ delimiter).length ≤ "DELIMITER ".toList.length := by
    rw [List.length_append]
    omega
  simp only [isDelimiterCommand, hline, if_neg hlen, List.prefix_append, List.drop_left, htrim]
  simpa using hne

/-- Where no line of a file is read as a command, the semicolon stays in force. -/
theorem Reaches.delimiter_initial {dollarQuoting : Bool} {queryList : List Str} {file : Str}
    (hnone : ∀ line rest s, Reaches dollarQuoting queryList file (.reading (line :: rest) s) →
      delimiterCommand s line = none) {m : Moment} (h : Reaches dollarQuoting queryList file m) :
    m.variables.delimiter = ";".toList := by
  induction h with
  | refl => rfl
  | @tail m m' h hnext ih =>
    rcases m with ⟨_ | ⟨line, rest⟩, s⟩ | ⟨line, pos, rest, s⟩
    · simp [Moment.next] at hnext
    · rw [Moment.next, hnone line rest s h] at hnext
      obtain rfl := Option.some.inj hnext
      exact ih
    · rw [Moment.next] at hnext
      split at hnext
      · obtain rfl := Option.some.inj hnext
        exact (consumeChar_delimiter _ _ _ _).trans ih
      · obtain rfl := Option.some.inj hnext
        exact ih

/-! ### One file after the other -/

theorem scanLines_append (dollarQuoting : Bool) (ls ls' : List Str) (s : Splitter) :
    scanLines dollarQuoting (ls ++ ls') s =
      scanLines dollarQuoting ls' (scanLines dollarQuoting ls s) := by
  induction ls generalizing s with
  | nil => rfl
  | cons line rest ih =>
    rw [List.cons_append, scanLines, scanLines]
    split
    · exact ih _
    · exact ih _

theorem splitStatements_behind {sent : List Str} {s t : Splitter} (dollarQuoting : Bool)
    (ls : List Str) (h : Behind sent s t) :
    (pushStatement (scanLines dollarQuoting ls s)).queryList =
      sent ++ (pushStatement (scanLines dollarQuoting ls t)).queryList :=
  (pushStatement_behind (scanLines_behind dollarQuoting ls h)).queryList

theorem loadQueriesFromFile_queryList (dollarQuoting : Bool) (queryList : List Str) (file : Str) :
    loadQueriesFromFile dollarQuoting queryList file =
      queryList ++ loadQueriesFromFile dollarQuoting [] file :=
  splitStatements_behind dollarQuoting _
    ⟨rfl, rfl, rfl, (List.append_nil queryList).symm, [], by simp, rfl⟩

section concatenation
variable {dollarQuoting : Bool} {file : Str}

theorem behind_initial {s : Splitter} (hsound : s.Sound) (hstate : s.state = .Normal)
    (hblank : ∀ c ∈ s.statement, isBlank c = true) :
    Behind (pushStatement s).queryList s { initial [] with delimiter := s.delimiter } := by
  have hpush : (pushStatement s).queryList = s.queryList := by
    have htrim : trim s.statement = [] := strip_eq_nil.mpr hblank
    rw [pushStatement_queryList, emit, if_pos htrim, List.append_nil]
  refine ⟨hstate, rfl, hsound.tag_nil (by simp [hstate]), ?_, s.statement, hblank, ?_⟩
  · rw [hpush]
    exact (List.append_nil _).symm
  · exact (List.append_nil _).symm

/-- **Concatenation.** A file whose scan ends between two statements, followed by another one, gives its
own statements and those of the other one behind a line that issues its delimiter again; that line is
not needed where the file has no DELIMITER command. Loading into a list only appends. -/
theorem loadQueriesFromFile_append {s : Splitter} (hfile : file = [] ∨ file.getLast? = some '\n')
    (hs : scanLines dollarQuoting (lines '\n' file) (initial []) = s) (hstate : s.state = .Normal)
    (hblank : ∀ c ∈ s.statement, isBlank c = true) (file' : Str) :
    loadQueriesFromFile dollarQuoting [] (file ++ file') =
        loadQueriesFromFile dollarQuoting [] file ++
          loadQueriesFromFile dollarQuoting []
            ("DELIMITER ".toList ++ s.delimiter ++ '\n' :: file') ∧
      ((∀ line rest t, Reaches dollarQuoting [] file (.reading (line :: rest) t) →
          delimiterCommand t line = none) →
        loadQueriesFromFile dollarQuoting [] (file ++ file') =
          loadQueriesFromFile dollarQuoting [] file ++ loadQueriesFromFile dollarQuoting [] file') ∧
      ∀ queryList text, loadQueriesFromFile dollarQuoting queryList text =
        queryList ++ loadQueriesFromFile dollarQuoting [] text := by
  have hreach : Reaches dollarQuoting [] file (.reading [] s) := by
    rw [← hs]
    exact reaches_scanLines Relation.ReflTransGen.refl
  have hsound : s.Sound := by
    cases hreach.stands with
    | reading _ h => exact h.sound
  have hbehind := splitStatements_behind dollarQuoting (lines '\n' file')
    (behind_initial hsound hstate hblank)
  have happend : loadQueriesFromFile dollarQuoting [] (file ++ file') =
      loadQueriesFromFile dollarQuoting [] file ++ (pushStatement (scanLines dollarQuoting
        (lines '\n' file') { initial [] with delimiter := s.delimiter })).queryList := by
    rw [loadQueriesFromFile, splitStatements, lines_append hfile, scanLines_append, hs, hbehind]
    rw [loadQueriesFromFile, splitStatements, hs]
  refine ⟨?_, ?_, loadQueriesFromFile_queryList dollarQuoting⟩
  · obtain ⟨hne, htrim⟩ := scanLines_delimiter_trim dollarQuoting (lines '\n' file) []
    rw [hs] at hne htrim
    have hline : '\n' ∉ "DELIMITER ".toList ++ s.delimiter := by
      simpa using hsound.delimiter_line
    have hcmd : delimiterCommand (initial []) ("DELIMITER ".toList ++ s.delimiter) = some s.delimiter :=
      isDelimiterCommand_delimiter hne htrim
    rw [happend, loadQueriesFromFile, loadQueriesFromFile, splitStatements, splitStatements]
    rw [lines_append_cons hline, scanLines, hcmd]
  · intro hnone
    have hd := hreach.delimiter_initial hnone
    rw [happend]
    rw [show s.delimiter = ";".toList from hd]
    rfl

/-- The first file sets a delimiter, which the second one ends its statement with. -/
theorem loadQueriesFromFile_append_custom :
    loadQueriesFromFile true [] "DELIMITER //\nSELECT 1 //\nSELECT 2; //\n".toList =
      loadQueriesFromFile true [] "DELIMITER //\nSELECT 1 //\n".toList ++
        loadQueriesFromFile true [] "DELIMITER //\nSELECT 2; //\n".toList := by
  have hs : scanLines true (lines '\n' "DELIMITER //\nSELECT 1 //\n".toList) (initial []) =
      { initial [] with
        delimiter := "//".toList, statement := "\n".toList, queryList := ["SELECT 1".toList] } := by
    decide
  exact (loadQueriesFromFile_append (Or.inr rfl) hs rfl (forall_mem_of_all (by decide))
    "SELECT 2; //\n".toList).1

end concatenation

end PQuery.SqlFile

import PQuery.SqlFile.Records

/-!
# Files written statement by statement

A statement is self-contained when the scan of its text alone (`scansAlone`) meets no delimiter, no
comment and no DELIMITER line, and ends in the Normal state. Such a scan takes the same steps where
a `;` follows the text, since no look-ahead is completed by a `;` (`consumeChar_before`), and every
step keeps what it takes (`consumeChar_takes`). So the pieces of a file that starts with the
statement and a `;` are kept ones that spell the statement, and the delimiter (`pieces_alone`).
-/

namespace PQuery.SqlFile

open ListScan

/-- What a statement must not have where the scan of it is in the Normal state: a delimiter, a
comment, or a DELIMITER command where a line starts. -/
def interrupts (atStart : Bool) (delimiter text : Str) : Bool :=
  startsWithDelimiter text 0 delimiter || startsLineComment text 0 || startsBlockComment text 0 ||
    (atStart && (isDelimiterCommand (firstLine text)).isSome)

/-- The scan of a text alone, in at most `fuel` steps: nothing interrupts it, and it ends in the
Normal state. -/
def scansAlone (dollarQuoting : Bool) : Nat → Bool → Splitter → Str → Bool
  | _, _, s, [] => s.state == .Normal
  | 0, _, _, _ :: _ => false
  | fuel + 1, atStart, s, c :: rest =>
    let text := c :: rest
    let r := consumeChar dollarQuoting text 0 s
    !(s.state == .Normal && interrupts atStart s.delimiter text) &&
      scansAlone dollarQuoting fuel (charAt text r.2 == '\n') r.1 (text.drop (r.2 + 1))

/-- Scanned from the Normal state with the delimiter `;`, the statement is read to its end. -/
def selfContained (dollarQuoting : Bool) (statement : Str) : Bool :=
  scansAlone dollarQuoting statement.length true (initial []) statement

/-- The file of the statements, each with its delimiter and a newline. -/
def written (queries : List Str) : Str := queries.flatMap fun q => q ++ [';', '\n']

/-! ### What a `;` behind the text changes -/

section before
variable {dollarQuoting : Bool} {u : Str}

theorem lineCommentOpener_before (hu : u ≠ []) (rest : Str) :
    lineCommentOpener (u ++ ';' :: rest) = lineCommentOpener u := by
  rcases u with _ | ⟨a, _ | ⟨b, _ | ⟨c, u⟩⟩⟩
  · exact absurd rfl hu
  · by_cases ha : a = '#'
    · simp [ha, lineCommentOpener]
    · simp [lineCommentOpener, ha]
  · by_cases ha : a = '#'
    · simp [ha, lineCommentOpener]
    · by_cases hs : a = '/' ∧ b = '/'
      · simp [hs, lineCommentOpener]
      · by_cases hd : a = '-' ∧ b = '-'
        · simp [hd, lineCommentOpener, isBlank]
        · simp only [List.cons_append, List.nil_append]
          unfold lineCommentOpener
          split <;> split <;> simp_all
  · exact lineCommentOpener_local (.inl (by simp)) _

theorem blockComment_before (hu : u ≠ []) (rest : Str) :
    ['/', '*'] <+: u ++ ';' :: rest ↔ ['/', '*'] <+: u := by
  rcases u with _ | ⟨a, _ | ⟨b, u⟩⟩
  · exact absurd rfl hu
  · simp [List.cons_prefix_cons]
  · simp [List.cons_prefix_cons]

theorem dollarOpener_before (hu : u ≠ []) (rest : Str) :
    dollarOpener (u ++ ';' :: rest) = dollarOpener u := by
  obtain ⟨a, v, rfl⟩ := List.exists_cons_of_ne_nil hu
  by_cases ha : a = '$'
  · subst ha
    have htake : (v ++ ';' :: rest).takeWhile isTagChar = v.takeWhile isTagChar :=
      takeWhile_append_cons (by decide)
    have hhead : ((v ++ ';' :: rest).dropWhile isTagChar).head? = some '$' ↔
        (v.dropWhile isTagChar).head? = some '$' := by
      rw [dropWhile_append_of_head (by simp) (by simpa using by decide)]
      cases v.dropWhile isTagChar with
      | nil => simp
      | cons x v => rfl
    simp only [List.cons_append, dollarOpener, htake, hhead]
  · simp only [List.cons_append]
    unfold dollarOpener
    split <;> split <;> simp_all

theorem look_before (hu : u ≠ []) (rest : Str) :
    look dollarQuoting semicolon.text (u ++ ';' :: rest) = look dollarQuoting semicolon.text u := by
  have hdelim : semicolon.text <+: u ++ ';' :: rest ↔ semicolon.text <+: u :=
    prefix_append_of_length_le (List.length_pos_iff.mpr hu)
  have hchar : charAt (u ++ ';' :: rest) 0 = charAt u 0 :=
    charAt_append_of_lt u _ (List.length_pos_iff.mpr hu)
  simp only [look, hdelim, lineCommentOpener_before hu, blockComment_before hu,
    dollarOpener_before hu, hchar]

theorem consumeChar_before {s : Splitter} (hdelim : s.delimiter = semicolon.text)
    (hkeep : s.state.dropping = false) (htag : ';' ∉ s.dollarTag) (hu : u ≠ [])
    (hslash : s.state = .SingleQuote ∨ s.state = .DoubleQuote → u ≠ ['\\']) (rest : Str) :
    consumeChar dollarQuoting (u ++ ';' :: rest) 0 s = consumeChar dollarQuoting u 0 s := by
  have hpos := List.length_pos_iff.mpr hu
  have hchar : charAt (u ++ ';' :: rest) 0 = charAt u 0 := charAt_append_of_lt u _ hpos
  have hquoted : u ≠ ['\\'] → ∀ quote : Char,
      consumeQuotedChar (u ++ ';' :: rest) 0 s quote = consumeQuotedChar u 0 s quote := by
    intro hne quote
    rcases u with _ | ⟨a, _ | ⟨b, u⟩⟩
    · exact absurd rfl hu
    · have ha : a ≠ '\\' := fun ha => hne (by rw [ha])
      simp [consumeQuotedChar, charAt, ha]
    · simp [consumeQuotedChar, charAt]
  rcases hstate : s.state with _ | _ | _ | _ | _ | _ | _ <;> simp only [consumeChar, hstate]
  case Normal =>
    rw [consumeNormalChar_eq, consumeNormalChar_eq, hdelim, look_before hu]
    cases look dollarQuoting semicolon.text u <;> simp only [Look.step, hchar]
  case SingleQuote => exact hquoted (hslash (.inl hstate)) _
  case DoubleQuote => exact hquoted (hslash (.inr hstate)) _
  case Backtick => simp only [consumeBacktickChar, hchar]
  case LineComment => simp [hstate, ScanState.dropping] at hkeep
  case BlockComment => simp [hstate, ScanState.dropping] at hkeep
  case DollarQuote =>
    have hcmp : compareAt (u ++ ';' :: rest) 0 s.dollarTag = compareAt u 0 s.dollarTag := by
      rw [Bool.eq_iff_iff, compareAt_iff, compareAt_iff, List.drop_zero, List.drop_zero,
        prefix_append_cons htag]
    simp only [consumeDollarQuoteChar, hchar, hcmp]

end before

/-! ### What an uninterrupted step takes -/

/-- The step has kept what it took, and goes on keeping. -/
structure Takes (s s' : Splitter) (taken : Str) : Prop where
  statement : s'.statement = s.statement ++ taken
  queryList : s'.queryList = s.queryList
  keeping : s'.state.dropping = false
  tag : ';' ∉ s'.dollarTag

section takes
variable {dollarQuoting atStart : Bool} {s : Splitter} {u : Str}

theorem Look.step_takes (hstate : s.state = .Normal) (htag : ';' ∉ s.dollarTag) (hu : u ≠ [])
    (hquiet : interrupts atStart s.delimiter u = false) :
    Takes s ((look dollarQuoting s.delimiter u).step u s).1
      (u.take (((look dollarQuoting s.delimiter u).step u s).2 + 1)) := by
  simp only [interrupts, Bool.or_eq_false_iff] at hquiet
  obtain ⟨⟨⟨hdelim, hline⟩, hblock⟩, -⟩ := hquiet
  have hkeep : s.state.dropping = false := by simp [hstate, ScanState.dropping]
  have hspec := look_spec dollarQuoting s.delimiter u
  cases hl : look dollarQuoting s.delimiter u <;> rw [hl] at hspec <;>
    simp only [Look.Holds] at hspec <;> simp only [Look.step]
  case delimiter =>
    have htrue : startsWithDelimiter u 0 s.delimiter = true :=
      startsWithDelimiter_iff.mpr ⟨hspec.1, hspec.2⟩
    simp [hdelim] at htrue
  case lineComment opener => simp [startsLineComment_eq, hspec] at hline
  case blockComment =>
    have htrue := startsBlockComment_iff.mpr hspec
    simp [hblock] at htrue
  case dollarQuote tag =>
    obtain ⟨name, rest, hname, rfl, rfl⟩ := dollarOpener_eq_some hspec.2
    have hsemi := hname.not_mem (c := ';') (by decide)
    have htake : ('$' :: (name ++ '$' :: rest)).take (('$' :: (name ++ ['$'])).length - 1 + 1) =
        '$' :: (name ++ ['$']) := by
      rw [Nat.sub_add_cancel (by simp), List.length_cons, List.take_succ_cons,
        List.append_cons name '$' rest, List.take_left]
    exact ⟨congrArg (s.statement ++ ·) htake.symm, rfl, rfl, by simpa using hsemi⟩
  case quote c =>
    obtain ⟨c', rest, rfl⟩ := List.exists_cons_of_ne_nil hu
    obtain rfl : c' = c := hspec.1
    have hquote : ((quoteState c').getD .Normal).dropping = false := by
      simp only [quoteState]
      split_ifs <;> rfl
    exact ⟨rfl, rfl, hquote, htag⟩
  case plain =>
    obtain ⟨c, rest, rfl⟩ := List.exists_cons_of_ne_nil hu
    exact ⟨rfl, rfl, hkeep, htag⟩

theorem consumeChar_takes (hs : s.Sound) (hkeep : s.state.dropping = false)
    (htag : ';' ∉ s.dollarTag) (hu : u ≠ [])
    (hquiet : s.state = .Normal → interrupts atStart s.delimiter u = false) :
    Takes s (consumeChar dollarQuoting u 0 s).1
      (u.take ((consumeChar dollarQuoting u 0 s).2 + 1)) := by
  by_cases hstate : s.state = .Normal
  · have hstep : consumeChar dollarQuoting u 0 s =
        (look dollarQuoting s.delimiter u).step u s := by
      rw [← consumeNormalChar_eq, consumeChar, hstate]
    rw [hstep]
    exact Look.step_takes hstate htag hu (hquiet hstate)
  · have hin := consumeChar_inside dollarQuoting hs hstate hu
    have hs' := consumeChar_sound dollarQuoting hs u
    have hstatement := hin.statement
    rw [hkeep, if_neg Bool.false_ne_true] at hstatement
    rcases hin.rest with ⟨hstate', htag', -⟩ | ⟨hstate', -⟩
    · exact ⟨hstatement, hin.queryList, by rw [hstate', hkeep], by rwa [htag']⟩
    · have hnil := hs'.tag_nil (by simp [hstate'])
      exact ⟨hstatement, hin.queryList, by rw [hstate']; rfl, by simp [hnil]⟩

end takes

/-! ### The line that the `;` ends -/

theorem command_before {line : Str} (hline : '\n' ∉ line)
    (hlast : ∀ c ∈ line.getLast?, isBlank c = false) (hnone : command line = none) {rest : Str}
    (hrest : '\n' ∉ rest) : command (line ++ ';' :: rest) = none := by
  have hbarrier : Barrier ';' [] := ⟨by decide, by decide, by decide⟩
  rw [← Option.not_isSome_iff_eq_none] at hnone ⊢
  rw [command_isSome hbarrier (by simp [hline, hrest])]
  intro hword
  refine hnone ?_
  rcases List.eq_nil_or_concat line with rfl | ⟨v, x, rfl⟩
  · exact absurd hword (by decide)
  · rw [List.concat_eq_append] at *
    have hx : isBlank x = false := hlast x (by simp)
    have htrim : ∀ v : Str, trim (v ++ [x]) = v.dropWhile isBlank ++ [x] := fun v => by
      rw [trim_append_cons hx, List.rdropWhile_nil]
    have hdrop : (v ++ [x]).dropWhile isBlank = v.dropWhile isBlank ++ [x] :=
      dropWhile_append_of_head (List.cons_ne_nil _ _) (by simpa using hx) v
    -- the word ends with a blank, so it ends before `x`
    have hbefore : ∀ word : Str, isBlank (word.getLastD x) = true →
        word <+: v.dropWhile isBlank ++ [x] → word <+: v.dropWhile isBlank := by
      intro word hblank hpre
      rcases List.prefix_concat_iff.mp hpre with rfl | hpre
      · simp [hx] at hblank
      · exact hpre
    rw [hdrop] at hword
    have hlong : 10 ≤ (v.dropWhile isBlank).length := by
      rcases hword with hword | hword
      · exact (hbefore _ rfl hword).length_le
      · exact (hbefore _ rfl hword).length_le
    rw [isSome_command, htrim]
    refine ⟨hword, ?_, fun hnl => ?_⟩
    · rw [List.drop_append_of_le_length hlong, htrim]
      simp
    · have hmem := List.mem_of_mem_drop (mem_of_mem_trim hnl)
      rw [← htrim] at hmem
      exact hline (mem_of_mem_trim hmem)

theorem firstLine_before {u : Str} (hlast : ∀ c ∈ u.getLast?, isBlank c = false)
    (hnone : isDelimiterCommand (firstLine u) = none) (rest : Str) :
    command (firstLine (u ++ ';' :: rest)) = none := by
  have hfirst : ∀ text : Str, '\n' ∉ firstLine text := fun text hm => by
    simpa using List.mem_takeWhile_imp hm
  rw [isDelimiterCommand_eq (hfirst u), Option.map_eq_none_iff] at hnone
  by_cases hnl : '\n' ∈ u
  · obtain ⟨l, v, rfl, hl⟩ := List.eq_append_cons_of_mem hnl
    rw [firstLine_append hl] at hnone
    rw [List.append_assoc, List.cons_append, firstLine_append hl]
    exact hnone
  · have hline := firstLine_append_of_not_mem hnl []
    have hnil : firstLine [] = [] := rfl
    rw [List.append_nil, hnil, List.append_nil] at hline
    have hmore : firstLine (u ++ ';' :: rest) = u ++ ';' :: firstLine rest := by
      rw [firstLine_append_of_not_mem hnl]
      rfl
    rw [hline] at hnone
    rw [hmore]
    exact command_before hnl hlast hnone (hfirst rest)

/-! ### The pieces of a statement and its delimiter -/

section alone
variable {dollarQuoting : Bool}

/-- The scan of a file reads a statement as the scan of its text alone does, up to the `;`. -/
theorem Cut.alone {file : Str} {rest : Str} {fuel : Nat} {atStart : Bool} {s : Splitter} {u : Str}
    {ps : List Piece} {part : Str}
    (h : Cut dollarQuoting [] file atStart s (u ++ ';' :: rest) ps part semicolon)
    (hu : scansAlone dollarQuoting fuel atStart s u = true)
    (hlast : ∀ c ∈ u.getLast?, isBlank c = false) (hkeep : s.state.dropping = false)
    (htag : ';' ∉ s.dollarTag) :
    ∃ b s' ps', Cut dollarQuoting [] file b s' (';' :: rest) ps' [] semicolon ∧
      s'.state = .Normal ∧ s'.statement = s.statement ++ u ∧ s'.queryList = s.queryList := by
  induction fuel, atStart, s, u using scansAlone.induct dollarQuoting generalizing ps part with
  | case1 fuel atStart s =>
    have hstate : s.state = .Normal := by simpa [scansAlone] using hu
    obtain rfl := h.normal hstate
    exact ⟨atStart, s, ps, h, hstate, (List.append_nil _).symm, rfl⟩
  | case2 atStart s c u => cases hu
  | case3 fuel atStart s c u text =>
    rename_i r ih
    have hne : c :: u ≠ [] := List.cons_ne_nil c u
    rw [scansAlone, Bool.and_eq_true] at hu
    obtain ⟨hquiet, hu⟩ := hu
    have hquiet : s.state = .Normal → interrupts atStart s.delimiter (c :: u) = false := fun hstate => by
      simpa [hstate] using hquiet
    have hslash : s.state = .SingleQuote ∨ s.state = .DoubleQuote → c :: u ≠ ['\\'] := by
      -- the scan of the text alone would end in the quote
      rintro hstate hback
      obtain ⟨rfl, rfl⟩ := List.cons.inj hback
      rcases hstate with hstate | hstate <;>
        simp [consumeChar, hstate, consumeQuotedChar, charAt, scansAlone] at hu
    have hstep := @consumeChar_before dollarQuoting _ _ h.delimiter hkeep htag hne hslash rest
    have htakes := @consumeChar_takes dollarQuoting atStart _ _ h.sound hkeep htag hne hquiet
    have hlt := consumeChar_lt dollarQuoting s hne
    have hcut : ∃ ps' part', Cut dollarQuoting [] file
        (charAt (c :: u ++ ';' :: rest) (consumeChar dollarQuoting (c :: u ++ ';' :: rest) 0 s).2 == '\n')
        (consumeChar dollarQuoting (c :: u ++ ';' :: rest) 0 s).1
        ((c :: u ++ ';' :: rest).drop ((consumeChar dollarQuoting (c :: u ++ ';' :: rest) 0 s).2 + 1))
        ps' part' semicolon := by
      by_cases hstate : s.state = .Normal
      · refine h.step_normal hstate (by simp) fun hstart => ?_
        have hnone := hquiet hstate
        simp only [interrupts, hstart, Bool.true_and, Bool.or_eq_false_iff] at hnone
        exact firstLine_before hlast (Option.not_isSome_iff_eq_none.mp (by simp [hnone.2])) rest
      · exact h.step_inside hstate (by simp)
    obtain ⟨ps', part', hcut⟩ := hcut
    rw [hstep, charAt_append_of_lt _ _ hlt, List.drop_append_of_le_length hlt] at hcut
    have hlast' : ∀ x ∈ ((c :: u).drop (r.2 + 1)).getLast?, isBlank x = false := by
      intro x hx
      refine hlast x ?_
      have hne' : (c :: u).drop (r.2 + 1) ≠ [] := by
        rintro hnil
        simp [hnil] at hx
      rw [← List.take_append_drop (r.2 + 1) (c :: u), List.getLast?_append_of_ne_nil _ hne']
      exact hx
    obtain ⟨b, s', ps'', hend, hstate', hstatement, hlist⟩ :=
      ih hcut hu hlast' htakes.keeping htakes.tag
    refine ⟨b, s', ps'', hend, hstate', ?_, hlist.trans htakes.queryList⟩
    rw [hstatement, htakes.statement, List.append_assoc]
    exact congrArg (s.statement ++ ·) (List.take_append_drop _ _)

theorem firstPiece_semicolon (atStart : Bool) (rest : Str) :
    firstPiece dollarQuoting atStart semicolon (';' :: rest) = .delimiter [';'] := by
  have hnone := firstLine_before (u := []) (by simp) (by decide) rest
  rw [List.nil_append] at hnone
  have hlook : look dollarQuoting semicolon.text (';' :: rest) = .delimiter :=
    if_pos ⟨semicolon.ne, ⟨rest, rfl⟩⟩
  rw [firstPiece, hnone, ite_self]
  simp only [hlook]
  rfl

theorem pieces_newline (rest : Str) :
    pieces dollarQuoting false semicolon ('\n' :: rest) =
      .kept ['\n'] :: pieces dollarQuoting true semicolon rest := by
  have hlook : look dollarQuoting semicolon.text ('\n' :: rest) = .plain :=
    look_lineEnd (.inl rfl) (by simp [semicolon, List.cons_prefix_cons])
  have hfirst : firstPiece dollarQuoting false semicolon ('\n' :: rest) = .kept ['\n'] := by
    simp only [firstPiece, Bool.false_eq_true, if_false, hlook]
    rfl
  rw [pieces_of_ne (List.cons_ne_nil _ _), hfirst]
  rfl

/-- A self-contained statement is kept as it is, and the `;` behind it is a delimiter. -/
theorem pieces_alone {statement : Str} (hself : selfContained dollarQuoting statement = true)
    (htrim : trim statement = statement) (rest : Str) :
    ∃ ps, (∀ p ∈ ps, p.isKept = true) ∧ ps.flatMap Piece.text = statement ∧
      pieces dollarQuoting true semicolon (statement ++ ';' :: rest) =
        ps ++ .delimiter [';'] :: pieces dollarQuoting false semicolon rest := by
  have hlast : ∀ c ∈ statement.getLast?, isBlank c = false := by
    intro c hc
    rw [← htrim] at hc
    exact getLast?_strip isBlank statement c hc
  obtain ⟨b, s', ps, hcut, hstate, hstatement, hlist⟩ :=
    (Cut.start dollarQuoting [] (statement ++ ';' :: rest)).alone hself hlast rfl (by simp [initial])
  have hpieces := hcut.pieces
  have hspelled := hcut.spelled
  have hcollected := hcut.collected
  rw [List.nil_append] at hspelled
  have htext : ps.flatMap Piece.text = statement := List.append_cancel_right hspelled
  rw [ahead, if_pos hstate, pieces_of_ne (List.cons_ne_nil _ _), firstPiece_semicolon] at hpieces
  rw [hstatement, hlist, hstate] at hcollected
  refine ⟨ps, isKept_of_solid hpieces ?_, htext, hpieces⟩
  -- the statement that the pieces make is the text that they spell
  have hfold := statementsFrom_append ([], []) ps []
  have hcollect : collect (ps.foldl collect ([], [])) (ScanState.Normal.piece []) =
      ps.foldl collect ([], []) := by
    simp [ScanState.piece, ScanState.dropping, collect]
  rw [hcollect] at hcollected
  rw [← hcollected, List.append_nil] at hfold
  have hmake : statementsFrom [] ps = emit statement := by
    simpa [initial, statementsFrom] using hfold
  rw [hmake, solid_emit, htext]

end alone

theorem statementsFrom_written {dollarQuoting : Bool} {queries : List Str}
    (h : ∀ q ∈ queries, q ≠ [] ∧ trim q = q ∧ selfContained dollarQuoting q = true) {pending : Str}
    (hpending : ∀ c ∈ pending, isBlank c = true) :
    statementsFrom pending (pieces dollarQuoting true semicolon (written queries)) = queries := by
  induction queries generalizing pending with
  | nil =>
    have hnil : trim pending = [] := strip_eq_nil.mpr hpending
    rw [written, List.flatMap_nil, pieces_nil, statementsFrom, emit, if_pos hnil]
  | cons q queries ih =>
    obtain ⟨hne, htrim, hself⟩ := h q List.mem_cons_self
    have hqueries : ∀ q ∈ queries, q ≠ [] ∧ trim q = q ∧ selfContained dollarQuoting q = true :=
      fun q' hq' => h q' (List.mem_cons_of_mem q hq')
    have hfile : written (q :: queries) = q ++ ';' :: '\n' :: written queries := by
      simp [written]
    obtain ⟨ps, hkept, htext, hpieces⟩ := pieces_alone hself htrim ('\n' :: written queries)
    have hemit : emit (pending ++ q) = [q] := by
      rw [emit, trim_blank_append hpending, htrim, if_neg hne]
    rw [hfile, hpieces, statementsFrom_kept hkept, htext, statementsFrom, hemit, pieces_newline,
      statementsFrom, ih hqueries (by simp [isBlank]), List.singleton_append]

theorem statements_written {dollarQuoting : Bool} {queries : List Str}
    (h : ∀ q ∈ queries, q ≠ [] ∧ trim q = q ∧ selfContained dollarQuoting q = true) :
    statements dollarQuoting (written queries) = queries := by
  have hlast : terminated '\n' (written queries) = written queries := by
    rcases List.eq_nil_or_concat queries with rfl | ⟨init, q, rfl⟩
    · rfl
    · have hconcat : written (init.concat q) = written init ++ (q ++ [';']) ++ ['\n'] := by
        simp [written]
      rw [hconcat]
      exact terminated_of_getLast
  rw [statements, hlast]
  exact statementsFrom_written h (by simp)

/-- **Writing then splitting is the identity.** The file made of the statements, each non-empty,
trimmed and self-contained, with a `;` and a newline behind each, is split into these statements. -/
theorem loadQueriesFromFile_written (dollarQuoting : Bool) (queries : List Str)
    (h : ∀ q ∈ queries, q ≠ [] ∧ trim q = q ∧ selfContained dollarQuoting q = true) :
    loadQueriesFromFile dollarQuoting [] (written queries) = queries := by
  rw [splitStatements_pieces, List.nil_append, statements_written h]

/-- A literal with a DELIMITER line in it, and a dollar-quoted body with the delimiter in it. -/
theorem loadQueriesFromFile_written_two :
    loadQueriesFromFile true []
        (written ["'\nDELIMITER $\n'".toList, "SELECT $a$ ; $a$".toList]) =
      ["'\nDELIMITER $\n'".toList, "SELECT $a$ ; $a$".toList] :=
  loadQueriesFromFile_written true _ (by decide)

end PQuery.SqlFile

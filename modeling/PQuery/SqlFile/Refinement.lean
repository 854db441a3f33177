import Mathlib.Logic.Relation
import PQuery.SqlFile.Tokens

/-!
# The splitter refines the reference tokenizer

`Cut` says where the splitter stands in a file: which pieces are behind it, how much of the next
one, and that its variables hold what these pieces make. A step in the Normal state starts or takes
the piece that the reference cuts off there (`Cut.step_normal`), a step inside a literal or comment
takes some of its characters and returns to Normal with the last of them (`Cut.step_inside`), and a
DELIMITER line is one piece (`Cut.step_command`). So the cut holds at every moment of the scan
(`Reaches.stands`), and at the last one it is the refinement.
-/

namespace PQuery.SqlFile

open ListScan

theorem isDelimiterCommand_eq {line : Str} (hline : '\n' ∉ line) :
    isDelimiterCommand line = (command line).map Delimiter.text := by
  have hmem : '\n' ∉ trim ((trim line).drop 10) := fun h =>
    hline (mem_of_mem_trim (List.mem_of_mem_drop (mem_of_mem_trim h)))
  have hlength : "DELIMITER ".toList.length = 10 := rfl
  simp only [isDelimiterCommand, command, hlength]
  generalize "DELIMITER ".toList = upper
  generalize "delimiter ".toList = lower
  by_cases hp : upper <+: trim line ∨ lower <+: trim line
  · rw [if_neg (not_not.mpr hp), if_pos hp]
    by_cases hr : trim ((trim line).drop 10) = []
    · simp [hr]
    · -- a rest is only left of a line longer than the word
      have hlen : ¬ (trim line).length ≤ 10 := fun hle => hr (by
        rw [List.drop_of_length_le hle]
        rfl)
      simp [hr, hmem, hlen]
  · rw [if_pos hp, if_neg hp, ite_self]
    rfl

/-- The state is inside a comment, where nothing is kept. -/
def ScanState.dropping (state : ScanState) : Bool :=
  state == .LineComment || state == .BlockComment

/-- A step inside a literal or comment: what it takes, and whether it is the last one. -/
structure Inside (s s' : Splitter) (text taken : Str) : Prop where
  statement : s'.statement = s.statement ++ if s.state.dropping then [] else taken
  delimiter : s'.delimiter = s.delimiter
  queryList : s'.queryList = s.queryList
  rest : (s'.state = s.state ∧ s'.dollarTag = s.dollarTag ∧ restOf s.state s.dollarTag text =
      taken ++ restOf s.state s.dollarTag (text.drop taken.length)) ∨
    (s'.state = .Normal ∧ restOf s.state s.dollarTag text = taken)

theorem consumeQuotedChar_inside {s : Splitter} {quote : Char} (c : Char) (rest : Str)
    (hquote : quote ≠ '\\') (hdrop : s.state.dropping = false)
    (hrest : ∀ text, restOf s.state s.dollarTag text = throughQuote quote text) :
    Inside s (consumeQuotedChar (c :: rest) 0 s quote).1 (c :: rest)
      ((c :: rest).take ((consumeQuotedChar (c :: rest) 0 s quote).2 + 1)) := by
  by_cases hc : c = '\\'
  · -- the backslash takes the next character with it, where there is one
    subst hc
    rcases rest with _ | ⟨b, rest⟩
    · refine ⟨by simp [consumeQuotedChar, charAt, hdrop, Ne.symm hquote], ?_, ?_, Or.inl ?_⟩
      all_goals simp [consumeQuotedChar, charAt, hrest, throughQuote, Ne.symm hquote]
    · refine ⟨by simp [consumeQuotedChar, charAt, hdrop], ?_, ?_, Or.inl ?_⟩
      all_goals simp [consumeQuotedChar, charAt, hrest, throughQuote]
  · have hthrough := @throughQuote_cons quote c hc rest
    by_cases hq : c = quote
    · subst hq
      refine ⟨by simp [consumeQuotedChar, charAt, hdrop, hc], ?_, ?_, Or.inr ?_⟩
      all_goals simp [consumeQuotedChar, charAt, hrest, hthrough, hc]
    · refine ⟨by simp [consumeQuotedChar, charAt, hdrop, hc, hq], ?_, ?_, Or.inl ?_⟩
      all_goals simp [consumeQuotedChar, charAt, hrest, hthrough, hc, hq]

theorem consumeBacktickChar_inside {s : Splitter} (h : s.state = .Backtick) (c : Char) (rest : Str) :
    Inside s (consumeBacktickChar (c :: rest) 0 s).1 (c :: rest)
      ((c :: rest).take ((consumeBacktickChar (c :: rest) 0 s).2 + 1)) := by
  by_cases hc : c = '`'
  · subst hc
    refine ⟨by simp [h, consumeBacktickChar, charAt, ScanState.dropping], ?_, ?_, Or.inr ?_⟩
    all_goals simp [h, consumeBacktickChar, charAt, restOf, through]
  · refine ⟨by simp [h, consumeBacktickChar, charAt, ScanState.dropping, hc], ?_, ?_, Or.inl ?_⟩
    all_goals simp [h, consumeBacktickChar, charAt, restOf, through, hc, List.cons_prefix_cons,
      Ne.symm hc]

theorem consumeLineCommentChar_inside {s : Splitter} (h : s.state = .LineComment) (c : Char)
    (rest : Str) :
    Inside s (consumeLineCommentChar (c :: rest) 0 s).1 (c :: rest)
      ((c :: rest).take ((consumeLineCommentChar (c :: rest) 0 s).2 + 1)) := by
  by_cases hc : c = '\n'
  · subst hc
    refine ⟨by simp [h, consumeLineCommentChar, charAt, ScanState.dropping], ?_, ?_, Or.inr ?_⟩
    all_goals simp [h, consumeLineCommentChar, charAt, restOf, through]
  · refine ⟨by simp [h, consumeLineCommentChar, charAt, ScanState.dropping, hc], ?_, ?_, Or.inl ?_⟩
    all_goals simp [h, consumeLineCommentChar, charAt, restOf, through, hc, List.cons_prefix_cons,
      Ne.symm hc]

theorem consumeBlockCommentChar_inside {s : Splitter} (h : s.state = .BlockComment) (c : Char)
    (rest : Str) :
    Inside s (consumeBlockCommentChar (c :: rest) 0 s).1 (c :: rest)
      ((c :: rest).take ((consumeBlockCommentChar (c :: rest) 0 s).2 + 1)) := by
  by_cases hc : ['*', '/'] <+: c :: rest
  · obtain ⟨rest, hrest⟩ := hc
    rw [← hrest]
    refine ⟨by simp [h, consumeBlockCommentChar, charAt, ScanState.dropping], ?_, ?_, Or.inr ?_⟩
    all_goals simp [h, consumeBlockCommentChar, charAt, restOf, through]
  · have hcond : (charAt (c :: rest) 0 == '*' && 0 + 1 < (c :: rest).length &&
        charAt (c :: rest) (0 + 1) == '/') = false := by
      rcases rest with _ | ⟨b, rest⟩
      · simp
      · simpa [charAt, List.cons_prefix_cons, eq_comm (a := '*'), eq_comm (a := '/')] using hc
    have hstep : consumeBlockCommentChar (c :: rest) 0 s = (s, 0) := by
      simp only [consumeBlockCommentChar, hcond]
      rfl
    rw [hstep]
    refine ⟨by simp [h, ScanState.dropping], rfl, rfl, Or.inl ⟨rfl, rfl, ?_⟩⟩
    simp [h, restOf, through, hc]

theorem consumeDollarQuoteChar_inside {s : Splitter} (hs : s.Sound) (h : s.state = .DollarQuote)
    (c : Char) (rest : Str) :
    Inside s (consumeDollarQuoteChar (c :: rest) 0 s).1 (c :: rest)
      ((c :: rest).take ((consumeDollarQuoteChar (c :: rest) 0 s).2 + 1)) := by
  obtain ⟨t, tag, htag⟩ := List.exists_cons_of_ne_nil (hs.tag_iff.mp h)
  have hdollar : t = '$' := hs.tag_head t (by simp [htag])
  by_cases hc : s.dollarTag <+: c :: rest
  · have hcmp : compareAt (c :: rest) 0 s.dollarTag = true := compareAt_iff.mpr (by simpa using hc)
    have hhead : charAt (c :: rest) 0 = '$' := by
      rw [htag, List.cons_prefix_cons] at hc
      exact hc.1.symm.trans hdollar
    have hstep : consumeDollarQuoteChar (c :: rest) 0 s =
        ({ s with statement := s.statement ++ s.dollarTag, dollarTag := [], state := .Normal },
          s.dollarTag.length - 1) := by
      simp [consumeDollarQuoteChar, hcmp, hhead]
    have htake : (c :: rest).take (s.dollarTag.length - 1 + 1) = s.dollarTag := by
      rw [Nat.sub_add_cancel (by simp [htag])]
      exact (List.prefix_iff_eq_take.mp hc).symm
    rw [hstep, htake]
    refine ⟨by simp [h, ScanState.dropping], rfl, rfl, Or.inr ⟨rfl, ?_⟩⟩
    simp [h, restOf, through, hc]
  · have hcmp : compareAt (c :: rest) 0 s.dollarTag = false := by
      rw [← Bool.not_eq_true, compareAt_iff]
      simpa using hc
    have hstep : consumeDollarQuoteChar (c :: rest) 0 s =
        ({ s with statement := s.statement ++ [c] }, 0) := by
      simp [consumeDollarQuoteChar, hcmp, charAt]
    rw [hstep]
    refine ⟨by simp [h, ScanState.dropping], rfl, rfl, Or.inl ⟨rfl, rfl, ?_⟩⟩
    simp [h, restOf, through, hc]

theorem consumeChar_inside (dollarQuoting : Bool) {s : Splitter} (hs : s.Sound)
    (hstate : s.state ≠ .Normal) {text : Str} (ht : text ≠ []) :
    Inside s (consumeChar dollarQuoting text 0 s).1 text
      (text.take ((consumeChar dollarQuoting text 0 s).2 + 1)) := by
  obtain ⟨c, rest, rfl⟩ := List.exists_cons_of_ne_nil ht
  rcases h : s.state with _ | _ | _ | _ | _ | _ | _ <;> simp only [consumeChar, h]
  case Normal => exact absurd h hstate
  case SingleQuote =>
    exact consumeQuotedChar_inside c rest (by decide) (by simp [h, ScanState.dropping])
      fun text => by rw [h, restOf]
  case DoubleQuote =>
    exact consumeQuotedChar_inside c rest (by decide) (by simp [h, ScanState.dropping])
      fun text => by rw [h, restOf]
  case Backtick => exact consumeBacktickChar_inside h c rest
  case LineComment => exact consumeLineCommentChar_inside h c rest
  case BlockComment => exact consumeBlockCommentChar_inside h c rest
  case DollarQuote => exact consumeDollarQuoteChar_inside hs h c rest

theorem charAt_of_isPrefix {taken text : Str} (h : taken <+: text) (hne : taken ≠ []) :
    (charAt text (taken.length - 1) == '\n') = (taken.getLast? == some '\n') := by
  have hpos := List.length_pos_iff.mpr hne
  obtain ⟨rest, rfl⟩ := h
  rw [charAt_append_of_lt _ _ (by omega), charAt, List.getD_eq_getElem?_getD, List.getLast?_eq_getElem?]
  rw [List.getElem?_eq_getElem (by omega)]
  simp

/-! ### The statements of the pieces read so far -/

/-- What a piece does to the statements sent and to the pending one. -/
def collect (r : List Str × Str) : Piece → List Str × Str
  | .delimiter _ => (r.1 ++ emit r.2, [])
  | .kept text => (r.1, r.2 ++ text)
  | .command _ _ => r
  | .comment _ => r

theorem statementsFrom_append (r : List Str × Str) (ps qs : List Piece) :
    r.1 ++ statementsFrom r.2 (ps ++ qs) =
      (ps.foldl collect r).1 ++ statementsFrom (ps.foldl collect r).2 qs := by
  induction ps generalizing r with
  | nil => rfl
  | cons p ps ih =>
    rw [List.foldl_cons, ← ih]
    cases p <;> simp [collect, statementsFrom]

@[simp] theorem pushStatement_statement (s : Splitter) : (pushStatement s).statement = [] := rfl
@[simp] theorem pushStatement_queryList (s : Splitter) :
    (pushStatement s).queryList = s.queryList ++ emit s.statement := by
  simp only [pushStatement, emit, List.isEmpty_iff]
  split <;> simp

/-- The piece that a state reads, `text` being all of it. -/
def ScanState.piece (state : ScanState) (text : Str) : Piece :=
  if state.dropping then .comment text else .kept text

@[simp] theorem ScanState.piece_text (state : ScanState) (text : Str) :
    (state.piece text).text = text := by
  unfold ScanState.piece
  split <;> rfl

@[simp] theorem ScanState.piece_inForce (state : ScanState) (text : Str) (d : Delimiter) :
    (state.piece text).inForce d = d := by
  unfold ScanState.piece
  split <;> rfl

theorem collect_piece_append (r : List Str × Str) (state : ScanState) (a b : Str) :
    collect r (state.piece (a ++ b)) =
      ((collect r (state.piece a)).1,
        (collect r (state.piece a)).2 ++ if state.dropping then [] else b) := by
  unfold ScanState.piece
  split <;> simp [collect]

/-! ### Where the splitter stands -/

/-- The pieces from a position on, `part` of the first one standing before the position. -/
def ahead (dollarQuoting atStart : Bool) (d : Delimiter) (state : ScanState)
    (dollarTag part text : Str) : List Piece :=
  if state = .Normal then pieces dollarQuoting atStart d text
  else
    state.piece (part ++ restOf state dollarTag text) ::
      pieces dollarQuoting ((part ++ restOf state dollarTag text).getLast? == some '\n') d
        (text.drop (restOf state dollarTag text).length)

/-- The splitter has the pieces `ps` of the file behind it and `part` of the next one, and `text`
before it; a line starts there if `atStart`. -/
structure Cut (dollarQuoting : Bool) (queryList : List Str) (file : Str) (atStart : Bool)
    (s : Splitter) (text : Str) (ps : List Piece) (part : Str) (d : Delimiter) : Prop where
  sound : s.Sound
  delimiter : s.delimiter = d.text
  inForce : ps.foldl Piece.inForce semicolon = d
  spelled : ps.flatMap Piece.text ++ (part ++ text) = file
  pieces : pieces dollarQuoting true semicolon file =
    ps ++ ahead dollarQuoting atStart d s.state s.dollarTag part text
  normal : s.state = .Normal → part = []
  collected : (s.queryList, s.statement) =
    collect (ps.foldl collect (queryList, [])) (s.state.piece part)

section cut
variable {dollarQuoting : Bool} {queryList : List Str} {file : Str} {atStart : Bool}
  {s s' : Splitter} {text : Str} {ps : List Piece} {part : Str} {d : Delimiter}

theorem Cut.start (dollarQuoting : Bool) (queryList : List Str) (file : Str) :
    Cut dollarQuoting queryList file true (initial queryList) file [] [] semicolon :=
  ⟨initial_sound queryList, rfl, rfl, rfl, by simp [ahead, initial], fun _ => rfl, by
    simp [initial, ScanState.piece, ScanState.dropping, collect]⟩

theorem Cut.take (h : Cut dollarQuoting queryList file atStart s text ps [] d)
    (hstate : s.state = .Normal) {p : Piece} (ht : text ≠ [])
    (hp : firstPiece dollarQuoting atStart d text = p) (hs' : s'.Sound)
    (hd' : s'.delimiter = (p.inForce d).text) (hstate' : s'.state = .Normal)
    (hcollect : (s'.queryList, s'.statement) = collect (s.queryList, s.statement) p) :
    Cut dollarQuoting queryList file p.endsLine s' (text.drop p.text.length) (ps ++ [p]) []
      (p.inForce d) := by
  have hpre := (firstPiece_isPrefix dollarQuoting atStart d ht).1
  have hpieces := h.pieces
  have hcollected := h.collected
  rw [ahead, if_pos hstate, pieces_of_ne ht] at hpieces
  rw [hp] at hpre hpieces
  rw [hstate] at hcollected
  have hnil : ∀ r, collect r (ScanState.Normal.piece []) = r := fun r => by
    simp [ScanState.piece, ScanState.dropping, collect]
  refine ⟨hs', hd', ?_, ?_, ?_, fun _ => rfl, ?_⟩
  · rw [List.foldl_append, h.inForce]
    rfl
  · rw [← h.spelled]
    simp [List.prefix_iff_eq_append.mp hpre]
  · rw [hpieces, ahead, if_pos hstate']
    simp
  · rw [hcollect, hstate', hcollected, hnil, hnil]
    simp

theorem Cut.open (h : Cut dollarQuoting queryList file atStart s text ps [] d)
    (hstate : s.state = .Normal) {opener : Str} (ht : text ≠ []) (hpre : opener <+: text)
    (hp : firstPiece dollarQuoting atStart d text =
      s'.state.piece (opener ++ restOf s'.state s'.dollarTag (text.drop opener.length)))
    (hs' : s'.Sound) (hd' : s'.delimiter = d.text) (hstate' : s'.state ≠ .Normal)
    (hcollect : (s'.queryList, s'.statement) =
      collect (s.queryList, s.statement) (s'.state.piece opener)) (b : Bool) :
    Cut dollarQuoting queryList file b s' (text.drop opener.length) ps opener d := by
  have hpieces := h.pieces
  have hcollected := h.collected
  rw [ahead, if_pos hstate, pieces_of_ne ht] at hpieces
  rw [hp] at hpieces
  rw [hstate] at hcollected
  refine ⟨hs', hd', h.inForce, ?_, ?_, fun hn => absurd hn hstate', ?_⟩
  · rw [List.prefix_iff_eq_append.mp hpre, ← h.spelled]
    rfl
  · rw [hpieces, ahead, if_neg hstate']
    simp [List.drop_drop, Piece.endsLine]
  · rw [hcollect, hcollected]
    simp [ScanState.piece, ScanState.dropping, collect]

theorem Cut.step_normal (h : Cut dollarQuoting queryList file atStart s text ps part d)
    (hstate : s.state = .Normal) (ht : text ≠ [])
    (hcmd : atStart = true → command (firstLine text) = none) :
    ∃ ps' part', Cut dollarQuoting queryList file
      (charAt text (consumeChar dollarQuoting text 0 s).2 == '\n')
      (consumeChar dollarQuoting text 0 s).1
      (text.drop ((consumeChar dollarQuoting text 0 s).2 + 1)) ps' part' d := by
  obtain rfl := h.normal hstate
  have hfirst : firstPiece dollarQuoting atStart d text =
      (look dollarQuoting d.text text).piece text d := by
    cases atStart with
    | false => rfl
    | true => rw [firstPiece, if_pos rfl, hcmd rfl]
  have hs' := consumeChar_sound dollarQuoting h.sound text
  have hstep : consumeChar dollarQuoting text 0 s =
      (look dollarQuoting d.text text).step text s := by
    rw [← h.delimiter, ← consumeNormalChar_eq, consumeChar, hstate]
  have hspec := look_spec dollarQuoting d.text text
  have htag := h.sound.tag_nil (by simp [hstate])
  rw [hstep] at hs' ⊢
  cases hl : look dollarQuoting d.text text <;> rw [hl] at hspec hfirst hs' <;>
    simp only [Look.Holds] at hspec <;> simp only [Look.piece, Look.step] at hfirst hs' ⊢
  case delimiter =>
    have hpos := List.length_pos_iff.mpr d.ne
    have hcut := h.take hstate ht hfirst hs' h.delimiter hstate (by simp [collect])
    rw [h.delimiter, charAt_of_isPrefix hspec.2 d.ne, Nat.sub_add_cancel hpos]
    exact ⟨_, _, hcut⟩
  case lineComment opener =>
    obtain ⟨hopener, hpre⟩ := lineCommentOpener_eq_some hspec
    have hne : 0 < opener.length := by rcases hopener with rfl | rfl | ⟨rfl, _⟩ <;> simp
    rw [Nat.sub_add_cancel hne]
    exact ⟨_, _, h.open hstate ht hpre (by rw [hfirst, htag]; rfl) hs' h.delimiter (by simp) rfl _⟩
  case blockComment =>
    exact ⟨_, _, h.open hstate ht hspec (by rw [hfirst, htag]; rfl) hs' h.delimiter (by simp) rfl _⟩
  case dollarQuote tag =>
    obtain ⟨name, rest, hname, rfl, rfl⟩ := dollarOpener_eq_some hspec.2
    rw [Nat.sub_add_cancel (by simp)]
    exact ⟨_, _, h.open hstate ht ⟨rest, by simp⟩ (by rw [hfirst]; rfl) hs' h.delimiter (by simp) rfl _⟩
  case quote c =>
    obtain ⟨state, hq⟩ := Option.isSome_iff_exists.mp hspec.2
    have hne : state ≠ .Normal ∧ state.dropping = false := by
      simp only [quoteState] at hq
      split_ifs at hq with h1 h2 h3 <;> cases hq <;> exact ⟨by simp, rfl⟩
    obtain ⟨c', rest, rfl⟩ := List.exists_cons_of_ne_nil ht
    obtain rfl : c' = c := hspec.1
    rw [hq, Option.getD_some] at hfirst hs' ⊢
    refine ⟨_, _, h.open hstate ht (show [c'] <+: c' :: rest from ⟨rest, rfl⟩) ?_ hs' h.delimiter
      hne.1 ?_ _⟩
    · simp [hfirst, htag, ScanState.piece, hne.2]
    · simp [ScanState.piece, hne.2, collect]
  case plain =>
    obtain ⟨c, rest, rfl⟩ := List.exists_cons_of_ne_nil ht
    have hcut := h.take hstate ht hfirst hs' h.delimiter hstate (by simp [collect, charAt])
    exact ⟨_, _, by simpa [charAt, Piece.endsLine, Piece.text, Piece.inForce] using hcut⟩

theorem Cut.step_inside (h : Cut dollarQuoting queryList file atStart s text ps part d)
    (hstate : s.state ≠ .Normal) (ht : text ≠ []) :
    ∃ ps' part', Cut dollarQuoting queryList file
      (charAt text (consumeChar dollarQuoting text 0 s).2 == '\n')
      (consumeChar dollarQuoting text 0 s).1
      (text.drop ((consumeChar dollarQuoting text 0 s).2 + 1)) ps' part' d := by
  have hs' := consumeChar_sound dollarQuoting h.sound text
  have hin := consumeChar_inside dollarQuoting h.sound hstate ht
  have hlt := consumeChar_lt dollarQuoting s ht
  generalize consumeChar dollarQuoting text 0 s = r at hs' hin hlt ⊢
  have hpre := List.take_prefix (r.2 + 1) text
  have hlen : (text.take (r.2 + 1)).length = r.2 + 1 := by
    rw [List.length_take]
    omega
  have hne : text.take (r.2 + 1) ≠ [] := List.length_pos_iff.mp (by omega)
  have hflag := charAt_of_isPrefix hpre hne
  have hpieces := h.pieces
  rw [ahead, if_neg hstate] at hpieces
  have hdrop := List.prefix_iff_eq_append.mp hpre
  rw [hlen] at hdrop
  rw [hlen, Nat.add_sub_cancel] at hflag
  have hrest := hin.rest
  rw [hlen] at hrest
  have hcollected : (r.1.queryList, r.1.statement) =
      collect (ps.foldl collect (queryList, [])) (s.state.piece (part ++ text.take (r.2 + 1))) := by
    rw [collect_piece_append, ← h.collected, hin.queryList, hin.statement]
  generalize text.take (r.2 + 1) = taken at *
  rcases hrest with ⟨hstate', htag', hrest⟩ | ⟨hstate', hrest⟩
  · -- the construct goes on
    refine ⟨ps, part ++ taken, hs', hin.delimiter.trans h.delimiter, h.inForce, ?_, ?_, ?_, ?_⟩
    · rw [List.append_assoc, hdrop, h.spelled]
    · rw [ahead, hstate', htag', if_neg hstate, hpieces, List.append_assoc, ← hrest]
      rw [List.drop_drop, ← hlen, ← List.length_append, hlen, ← hrest]
    · rw [hstate']
      exact fun hn => absurd hn hstate
    · rw [hstate', hcollected]
  · -- the construct ends
    refine ⟨ps ++ [s.state.piece (part ++ taken)], [], hs', hin.delimiter.trans h.delimiter, ?_, ?_, ?_,
      fun _ => rfl, ?_⟩
    · rw [List.foldl_append, h.inForce]
      simp
    · simp only [List.flatMap_append, List.flatMap_singleton, ScanState.piece_text, List.nil_append,
        List.append_assoc, hdrop]
      exact h.spelled
    · rw [ahead, if_pos hstate', hpieces, hrest, hflag, hlen, List.getLast?_append_of_ne_nil _ hne]
      simp
    · rw [hstate', hcollected, List.foldl_append]
      simp [ScanState.piece, ScanState.dropping, collect]

theorem Cut.step (h : Cut dollarQuoting queryList file false s text ps part d) (ht : text ≠ []) :
    ∃ ps' part', Cut dollarQuoting queryList file
      (charAt text (consumeChar dollarQuoting text 0 s).2 == '\n')
      (consumeChar dollarQuoting text 0 s).1
      (text.drop ((consumeChar dollarQuoting text 0 s).2 + 1)) ps' part' d := by
  by_cases hstate : s.state = .Normal
  · exact h.step_normal hstate ht (by simp)
  · exact h.step_inside hstate ht

theorem Cut.step_command {l v newDelimiter : Str}
    (h : Cut dollarQuoting queryList file true s (l ++ '\n' :: v) ps part d) (hl : '\n' ∉ l)
    (hcmd : delimiterCommand s l = some newDelimiter) :
    ∃ ps' d', Cut dollarQuoting queryList file true { s with delimiter := newDelimiter } v ps' [] d' := by
  have hs' := delimiterCommand_sound h.sound hl hcmd
  obtain ⟨hstate, hcode⟩ := Option.ite_none_right_eq_some.mp hcmd
  rw [isDelimiterCommand_eq hl] at hcode
  obtain ⟨d', hd', rfl⟩ := Option.map_eq_some_iff.mp hcode
  obtain rfl := h.normal hstate
  have hfirst : firstPiece dollarQuoting true d (l ++ '\n' :: v) = .command (l ++ ['\n']) d' := by
    rw [firstPiece, if_pos rfl, firstLine_append hl, hd']
    simp only [through_singleton hl]
  have hcut := h.take hstate (by simp) hfirst hs' rfl hstate rfl
  have hdrop : (l ++ '\n' :: v).drop (l ++ ['\n']).length = v := by
    rw [List.append_cons l '\n' v, List.drop_left]
  simp only [Piece.endsLine, Piece.text, hdrop, List.getLast?_concat, beq_self_eq_true] at hcut
  exact ⟨_, _, hcut⟩

theorem Cut.no_command (h : Cut dollarQuoting queryList file true s text ps part d)
    (hcmd : s.state = .Normal → command (firstLine text) = none) :
    Cut dollarQuoting queryList file false s text ps part d := by
  refine { h with pieces := ?_ }
  rw [h.pieces, ahead, ahead]
  by_cases hstate : s.state = .Normal
  · by_cases ht : text = []
    · simp [ht]
    · have hfirst : firstPiece dollarQuoting true d text = firstPiece dollarQuoting false d text := by
        rw [firstPiece, if_pos rfl, hcmd hstate]
        rfl
      rw [if_pos hstate, if_pos hstate, pieces_of_ne ht, pieces_of_ne ht, hfirst]
  · rw [if_neg hstate, if_neg hstate]

end cut

/-! ### Every moment of the scan -/

/-- A moment of `splitStatements`: the next line is about to be read, or the next character of a
line to be consumed. -/
inductive Moment
  | reading (rest : List Str) (s : Splitter)
  | scanning (line : Str) (pos : Nat) (rest : List Str) (s : Splitter)

/-- The variables at a moment. -/
def Moment.variables : Moment → Splitter
  | .reading _ s => s
  | .scanning _ _ _ s => s

def Moment.next (dollarQuoting : Bool) : Moment → Option Moment
  | .reading [] _ => none
  | .reading (line :: rest) s =>
    match delimiterCommand s line with
    | some newDelimiter => some (.reading rest { s with delimiter := newDelimiter })
    | none => some (.scanning (line ++ ['\n']) 0 rest s)
  | .scanning line pos rest s =>
    if pos < line.length then
      let r := consumeChar dollarQuoting line pos s
      some (.scanning line (r.2 + 1) rest r.1)
    else some (.reading rest s)

/-- The moments that the scan of a file passes through. -/
def Reaches (dollarQuoting : Bool) (queryList : List Str) (file : Str) (m : Moment) : Prop :=
  Relation.ReflTransGen (fun m m' => m.next dollarQuoting = some m')
    (.reading (lines '\n' file) (initial queryList)) m

/-- The `for` loop over a line needs no more iterations than the line has characters, also in a scan
that only differs in how it reads the next line. -/
theorem scanLine_moments {step : Moment → Option Moment} {dollarQuoting : Bool} {line : Str}
    {rest : List Str} {fuel pos : Nat} {s : Splitter}
    (hstep : ∀ line pos rest s, step (.scanning line pos rest s) =
      (Moment.scanning line pos rest s).next dollarQuoting) (hfuel : line.length ≤ pos + fuel) :
    Relation.ReflTransGen (fun m m' => step m = some m') (.scanning line pos rest s)
      (.reading rest (scanLine dollarQuoting line fuel pos s)) := by
  induction fuel generalizing pos s with
  | zero =>
    refine Relation.ReflTransGen.single ?_
    rw [hstep, Moment.next, if_neg (by omega)]
    rfl
  | succ fuel ih =>
    rw [scanLine]
    split
    · rename_i hpos
      refine Relation.ReflTransGen.head ?_ (ih ?_)
      · rw [hstep, Moment.next, if_pos hpos]
      · rw [consumeChar_drop line pos]
        omega
    · rename_i hpos
      refine Relation.ReflTransGen.single ?_
      rw [hstep, Moment.next, if_neg hpos]

section reaches
variable {dollarQuoting : Bool} {queryList : List Str} {file : Str}

theorem Reaches.next {m m' : Moment} (h : Reaches dollarQuoting queryList file m)
    (hnext : m.next dollarQuoting = some m') : Reaches dollarQuoting queryList file m' :=
  Relation.ReflTransGen.tail h hnext

theorem reaches_scanLine {line : Str} {rest : List Str} {fuel pos : Nat} {s : Splitter}
    (h : Reaches dollarQuoting queryList file (.scanning line pos rest s))
    (hfuel : line.length ≤ pos + fuel) :
    Reaches dollarQuoting queryList file
      (.reading rest (scanLine dollarQuoting line fuel pos s)) :=
  h.trans (scanLine_moments (fun _ _ _ _ => rfl) hfuel)

theorem reaches_scanLines {ls : List Str} {s : Splitter}
    (h : Reaches dollarQuoting queryList file (.reading ls s)) :
    Reaches dollarQuoting queryList file (.reading [] (scanLines dollarQuoting ls s)) := by
  induction ls generalizing s with
  | nil => exact h
  | cons line rest ih =>
    rw [scanLines]
    split
    · rename_i newDelimiter hcmd
      refine ih (h.next ?_)
      rw [Moment.next, hcmd]
    · rename_i hcmd
      refine ih (reaches_scanLine (h.next ?_) (by omega))
      rw [Moment.next, hcmd]

/-- The last moment of the scan has the variables that `splitStatements` ends with. -/
theorem reaches_splitStatements (dollarQuoting : Bool) (queryList : List Str) (file : Str) :
    ∃ s, Reaches dollarQuoting queryList file (.reading [] s) ∧
      splitStatements dollarQuoting file queryList = (pushStatement s).queryList :=
  ⟨_, reaches_scanLines Relation.ReflTransGen.refl, rfl⟩

/-- The text that the lines spell. -/
abbrev unlines (rest : List Str) : Str := rest.flatMap (· ++ ['\n'])

/-- Where the splitter stands at a moment. -/
inductive Moment.Stands (dollarQuoting : Bool) (queryList : List Str) (file : Str) : Moment → Prop
  | reading {rest s ps part d} (hrest : ∀ l ∈ rest, '\n' ∉ l)
      (h : Cut dollarQuoting queryList file true s (unlines rest) ps part d) :
      Stands dollarQuoting queryList file (.reading rest s)
  | scanning {l pos rest s ps part d} (hrest : ∀ l ∈ rest, '\n' ∉ l) (hl : '\n' ∉ l)
      (hpos : pos ≤ l.length + 1)
      (h : Cut dollarQuoting queryList file (pos == l.length + 1) s
        ((l ++ ['\n']).drop pos ++ unlines rest) ps part d) :
      Stands dollarQuoting queryList file (.scanning (l ++ ['\n']) pos rest s)

theorem drop_line {l : Str} {pos k : Nat} (hk : pos + k ≤ l.length) (v : Str) :
    (l ++ ['\n']).drop (pos + k + 1) ++ v = (l.drop pos ++ '\n' :: v).drop (k + 1) := by
  have hdrop : (l ++ ['\n']).drop pos = l.drop pos ++ ['\n'] :=
    List.drop_append_of_le_length (by omega)
  have hlen : k + 1 ≤ (l.drop pos ++ ['\n']).length := by
    simp only [List.length_append, List.length_drop, List.length_singleton]
    omega
  rw [Nat.add_assoc, ← List.drop_drop, hdrop, List.append_cons (l.drop pos) '\n' v]
  exact (List.drop_append_of_le_length hlen).symm

theorem line_ends {l : Str} (hl : '\n' ∉ l) {pos k : Nat} (hk : pos + k ≤ l.length) (v : Str) :
    (pos + k + 1 == l.length + 1) = (charAt (l.drop pos ++ '\n' :: v) k == '\n') := by
  rcases Nat.lt_or_ge k (l.length - pos) with hlt | hge
  · have hchar : charAt (l.drop pos ++ '\n' :: v) k ≠ '\n' := by
      rw [charAt_append_of_lt _ _ (by simpa), charAt_drop, charAt, List.getD_eq_getElem?_getD,
        List.getElem?_eq_getElem (by omega), Option.getD_some]
      exact ne_of_mem_of_not_mem (List.getElem_mem _) hl
    rw [beq_false_of_ne hchar, beq_eq_false_iff_ne]
    omega
  · obtain rfl : k = l.length - pos := by omega
    have hchar : charAt (l.drop pos ++ '\n' :: v) (l.length - pos) = '\n' := by
      simp [charAt]
    rw [hchar, beq_self_eq_true, beq_iff_eq]
    omega

theorem Moment.Stands.next {m m' : Moment} (h : m.Stands dollarQuoting queryList file)
    (hnext : m.next dollarQuoting = some m') : m'.Stands dollarQuoting queryList file := by
  cases h with
  | @reading rest s ps part d hrest h =>
    cases rest with
    | nil => simp [Moment.next] at hnext
    | cons l rest =>
      have hl := hrest l (by simp)
      have hrest' : ∀ l ∈ rest, '\n' ∉ l := fun l' hl' => hrest l' (by simp [hl'])
      rw [unlines, List.flatMap_cons, List.append_assoc, List.singleton_append] at h
      rw [Moment.next] at hnext
      split at hnext
      · rename_i newDelimiter hcmd
        obtain rfl := Option.some.inj hnext
        obtain ⟨ps', d', h'⟩ := h.step_command hl hcmd
        exact .reading hrest' h'
      · rename_i hcmd
        obtain rfl := Option.some.inj hnext
        have h' := h.no_command fun hstate => by
          rw [delimiterCommand, if_pos hstate, isDelimiterCommand_eq hl, Option.map_eq_none_iff] at hcmd
          rwa [firstLine_append hl]
        refine @Stands.scanning _ _ _ l 0 rest s ps part d hrest' hl (by omega) ?_
        have hflag : (0 == l.length + 1) = false := rfl
        rw [hflag, List.drop_zero, List.append_assoc, List.singleton_append]
        exact h'
  | @scanning l pos rest s ps part d hrest hl hpos h =>
    rw [Moment.next] at hnext
    split at hnext
    · rename_i hlt
      obtain rfl := Option.some.inj hnext
      rw [List.length_append, List.length_singleton] at hlt
      have hflag : (pos == l.length + 1) = false := by
        rw [beq_eq_false_iff_ne]
        omega
      have hdrop : (l ++ ['\n']).drop pos = l.drop pos ++ ['\n'] :=
        List.drop_append_of_le_length (by omega)
      rw [hflag, hdrop, List.append_assoc, List.singleton_append] at h
      obtain ⟨ps', part', h'⟩ := h.step (by simp)
      -- the step saw the whole text, the code's step sees the line
      rw [consumeChar_line _ _ h.sound] at h'
      rw [consumeChar_drop _ pos, hdrop]
      have hk := consumeChar_lt dollarQuoting s (show l.drop pos ++ ['\n'] ≠ [] by simp)
      generalize consumeChar dollarQuoting (l.drop pos ++ ['\n']) 0 s = r at hk h'
      simp only [List.length_append, List.length_drop, List.length_singleton] at hk
      refine @Stands.scanning _ _ _ l _ rest r.1 ps' part' d hrest hl (by omega) ?_
      rw [drop_line (by omega), line_ends hl (by omega) (unlines rest)]
      exact h'
    · rename_i hge
      obtain rfl := Option.some.inj hnext
      rw [List.length_append, List.length_singleton] at hge
      obtain rfl : pos = l.length + 1 := by omega
      rw [beq_self_eq_true, List.drop_of_length_le (by simp), List.nil_append] at h
      exact .reading hrest h

theorem Reaches.stands {m : Moment} (h : Reaches dollarQuoting queryList file m) :
    m.Stands dollarQuoting queryList (terminated '\n' file) := by
  induction h with
  | refl => exact .reading (fun _ => not_mem_of_mem_lines) (Cut.start _ _ _)
  | tail _ hnext ih => exact ih.next hnext

end reaches

theorem splitStatements_pieces (dollarQuoting : Bool) (queryList : List Str) (file : Str) :
    loadQueriesFromFile dollarQuoting queryList file = queryList ++ statements dollarQuoting file := by
  obtain ⟨s, hs, hrun⟩ := reaches_splitStatements dollarQuoting queryList file
  obtain ⟨ps, part, d, h⟩ : ∃ ps part d,
      Cut dollarQuoting queryList (terminated '\n' file) true s [] ps part d := by
    cases hs.stands with
    | reading hrest h => exact ⟨_, _, _, h⟩
  have hpieces : (pieces dollarQuoting true semicolon (terminated '\n' file)).foldl collect
      (queryList, []) = (s.queryList, s.statement) := by
    rw [h.pieces, List.foldl_append, h.collected, ahead]
    split
    · rename_i hstate
      rw [h.normal hstate, hstate]
      simp [ScanState.piece, ScanState.dropping, collect]
    · have hrest := List.prefix_nil.mp (restOf_isPrefix s.state s.dollarTag [])
      simp [hrest]
  have hall := statementsFrom_append (queryList, [])
    (pieces dollarQuoting true semicolon (terminated '\n' file)) []
  rw [hpieces, List.append_nil] at hall
  rw [loadQueriesFromFile, hrun, pushStatement_queryList]
  exact hall.symm

/-- **The splitter computes the reference.** For every file and both quoting modes the statements
that `loadQueriesFromFile` appends to an empty list are those of the reference tokenizer over the
whole text. -/
theorem loadQueriesFromFile_refines (dollarQuoting : Bool) (file : Str) :
    loadQueriesFromFile dollarQuoting [] file = statements dollarQuoting file :=
  splitStatements_pieces dollarQuoting [] file

end PQuery.SqlFile

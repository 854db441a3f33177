import PQuery.SqlFile.Locality

/-!
# Literals and comments are opaque

A literal or comment is one piece whatever its body is, as long as the body does not end it
(`Construct.firstPiece_eq`). The pieces before it do not depend on the body (`pieces_local`), those
after it start in the same state, and a piece without its closer inside contributes to one statement
or to none: `loadQueriesFromFile_opaque`.
-/

namespace PQuery.SqlFile

open ListScan

inductive Construct
  | singleQuoted
  | doubleQuoted
  | backtick
  | dollar (name : Str)
  | hash
  | slashes
  | dashes (blank : Char)
  | block

namespace Construct

/-- What a construct starts with; for two dashes with the blank that must follow them. -/
def opener : Construct → Str
  | singleQuoted => ['\'']
  | doubleQuoted => ['"']
  | backtick => ['`']
  | dollar name => '$' :: (name ++ ['$'])
  | hash => ['#']
  | slashes => ['/', '/']
  | dashes blank => ['-', '-', blank]
  | block => ['/', '*']

def closer : Construct → Str
  | singleQuoted => ['\'']
  | doubleQuoted => ['"']
  | backtick => ['`']
  | dollar name => '$' :: (name ++ ['$'])
  | hash => ['\n']
  | slashes => ['\n']
  | dashes _ => ['\n']
  | block => ['*', '/']

/-- The state the splitter is in inside the construct. -/
def state : Construct → ScanState
  | singleQuoted => .SingleQuote
  | doubleQuoted => .DoubleQuote
  | backtick => .Backtick
  | dollar _ => .DollarQuote
  | hash => .LineComment
  | slashes => .LineComment
  | dashes _ => .LineComment
  | block => .BlockComment

/-- The dollar tag inside the construct. -/
def dollarTag : Construct → Str
  | dollar name => '$' :: (name ++ ['$'])
  | _ => []

/-- Whether the opener is one in this mode. -/
def Legal (dollarQuoting : Bool) : Construct → Prop
  | dollar name => dollarQuoting = true ∧ TagName name
  | dashes blank => isBlank blank = true ∧ blank ≠ '\n'
  | _ => True

end Construct

/-- A body between quotes: every backslash has a character after it, and no other character is the
quote. -/
def QuotedBody (quote : Char) : Str → Prop
  | [] => True
  | '\\' :: _ :: rest => QuotedBody quote rest
  | c :: rest => c ≠ '\\' ∧ c ≠ quote ∧ QuotedBody quote rest

theorem QuotedBody.cons {quote c : Char} {rest : Str} (hc : c ≠ '\\') :
    QuotedBody quote (c :: rest) ↔ c ≠ quote ∧ QuotedBody quote rest := by
  rw [QuotedBody]
  · exact and_iff_right hc
  · exact fun _ _ hcc _ => hc hcc

theorem quotedBody_of_not_mem {quote : Char} {w : Str} (hquote : quote ∉ w) (hslash : '\\' ∉ w) :
    QuotedBody quote w := by
  induction w with
  | nil => trivial
  | cons c w ih =>
    simp only [List.mem_cons, not_or] at hquote hslash
    rw [QuotedBody.cons (Ne.symm hslash.1)]
    exact ⟨Ne.symm hquote.1, ih hquote.2 hslash.2⟩

theorem QuotedBody.throughQuote {quote : Char} (hquote : quote ≠ '\\') {w : Str}
    (hw : QuotedBody quote w) (post : Str) :
    throughQuote quote (w ++ quote :: post) = w ++ [quote] := by
  fun_induction QuotedBody quote w with
  | case1 => rw [List.nil_append, throughQuote_cons hquote, if_pos rfl, List.nil_append]
  | case2 c rest ih => simp [SqlFile.throughQuote, ih hw]
  | case3 c rest hc ih =>
    rw [List.cons_append, throughQuote_cons hw.1, if_neg hw.2.1, ih hw.2.2, List.cons_append]

namespace Construct

/-- The bodies that the closer after them ends, and nothing before it. -/
def Body : Construct → Str → Prop
  | singleQuoted, w => QuotedBody '\'' w
  | doubleQuoted, w => QuotedBody '"' w
  | backtick, w => Closes ['`'] w
  | dollar name, w => Closes ('$' :: (name ++ ['$'])) w
  | hash, w => Closes ['\n'] w
  | slashes, w => Closes ['\n'] w
  | dashes _, w => Closes ['\n'] w
  | block, w => Closes ['*', '/'] w

/-- The rule of the reference that reads the construct. -/
def rule : Construct → Look
  | singleQuoted => .quote '\''
  | doubleQuoted => .quote '"'
  | backtick => .quote '`'
  | dollar name => .dollarQuote ('$' :: (name ++ ['$']))
  | hash => .lineComment ['#']
  | slashes => .lineComment ['/', '/']
  | dashes _ => .lineComment ['-', '-']
  | block => .blockComment

theorem exists_getLast_closer {k : Construct} (hk : k.state.dropping = false) :
    ∃ c, k.closer.getLast? = some c ∧ isBlank c = false := by
  cases k with
  | dollar name => exact ⟨'$', by rw [closer, ← List.cons_append, List.getLast?_concat], rfl⟩
  | hash => simp [state, ScanState.dropping] at hk
  | slashes => simp [state, ScanState.dropping] at hk
  | dashes blank => simp [state, ScanState.dropping] at hk
  | block => simp [state, ScanState.dropping] at hk
  | _ => exact ⟨_, rfl, rfl⟩

theorem exists_barrier (k : Construct) :
    ∃ c o, k.opener = c :: o ∧ Barrier c o ∧ ¬ Inert c := by
  cases k <;> refine ⟨_, _, rfl, ⟨by decide, by decide, by simp⟩, fun h => h.2 (by decide)⟩

theorem look_eq {k : Construct} {dollarQuoting : Bool} {d : Delimiter} (hk : k.Legal dollarQuoting)
    (hd : ∀ c ∈ d.text, Inert c) (rest : Str) :
    look dollarQuoting d.text (k.opener ++ rest) = k.rule := by
  have hdelim : ¬ (d.text ≠ [] ∧ d.text <+: k.opener ++ rest) := by
    rintro ⟨-, hpre⟩
    obtain ⟨c, o, ho, -, hc⟩ := k.exists_barrier
    obtain ⟨x, t, ht⟩ := List.exists_cons_of_ne_nil d.ne
    rw [ho, ht, List.cons_append, List.cons_prefix_cons] at hpre
    exact hc (hpre.1 ▸ hd x (by simp [ht]))
  rw [look, if_neg hdelim]
  cases k with
  | dollar name =>
    obtain ⟨rfl, hname⟩ := hk
    have htag := dollarOpener_tag hname rest
    simp [opener, rule, lineCommentOpener, htag]
  | dashes blank => simp [opener, rule, lineCommentOpener, hk.1]
  | _ => simp [opener, rule, lineCommentOpener, quoteState, charAt, dollarOpener]

theorem restOf_eq {k : Construct} {w : Str} (hw : k.Body w) (post : Str) :
    restOf k.state k.dollarTag (w ++ (k.closer ++ post)) = w ++ k.closer := by
  have hthrough : ∀ {pat : Str}, pat ≠ [] → Closes pat w →
      through pat (w ++ (pat ++ post)) = w ++ pat := fun hpat h => by
    rw [← List.append_assoc]
    exact (through_of_closes hpat h post).1
  cases k with
  | singleQuoted => exact QuotedBody.throughQuote (by decide) hw post
  | doubleQuoted => exact QuotedBody.throughQuote (by decide) hw post
  | dollar name => exact hthrough (List.cons_ne_nil _ _) hw
  | _ => exact hthrough (List.cons_ne_nil _ _) hw

theorem piece_eq {k : Construct} {w : Str} {dollarQuoting : Bool} (hk : k.Legal dollarQuoting)
    (hw : k.Body w) (d : Delimiter) (post : Str) :
    k.rule.piece (k.opener ++ (w ++ (k.closer ++ post))) d =
      k.state.piece (k.opener ++ (w ++ k.closer)) := by
  have hrest := restOf_eq hw post
  have hpiece := congrArg (fun t => k.state.piece (k.opener ++ t)) hrest
  cases k with
  | dollar name =>
    have hdrop : ('$' :: (name ++ ['$']) ++ (w ++ ('$' :: (name ++ ['$']) ++ post))).drop
        ('$' :: (name ++ ['$'])).length = w ++ ('$' :: (name ++ ['$']) ++ post) := List.drop_left
    simp only [state, closer, dollarTag] at hrest
    simp only [rule, opener, closer, state, Look.piece, hdrop, hrest]
    rfl
  | dashes blank =>
    have hblank : ¬ ['\n'] <+: blank :: (w ++ (['\n'] ++ post)) := by
      simpa [List.cons_prefix_cons] using Ne.symm hk.2
    have hthrough : restOf .LineComment [] (blank :: (w ++ (['\n'] ++ post))) =
        blank :: (w ++ ['\n']) := by
      rw [restOf, through, if_neg hblank]
      exact congrArg (blank :: ·) hrest
    simp only [rule, opener, closer, state, Look.piece, List.cons_append, List.nil_append,
      List.length_cons, List.length_nil, List.drop_succ_cons, List.drop_zero] at hthrough ⊢
    rw [hthrough]
    rfl
  | _ => exact hpiece

theorem command_opener (k : Construct) (rest : Str) : command (firstLine (k.opener ++ rest)) = none := by
  obtain ⟨c, o, ho, hc, -⟩ := k.exists_barrier
  have hline : firstLine (k.opener ++ rest) = c :: firstLine (o ++ rest) := by
    rw [ho, List.cons_append, firstLine, List.takeWhile_cons_of_pos (by simpa using hc.ne_newline)]
    rfl
  have hnl : '\n' ∉ firstLine (k.opener ++ rest) := fun hm => by
    simpa using List.mem_takeWhile_imp hm
  rw [hline] at hnl ⊢
  rw [← Option.not_isSome_iff_eq_none, ← List.nil_append (c :: _), command_isSome hc hnl]
  decide

theorem firstPiece_eq {k : Construct} {w : Str} {dollarQuoting : Bool} {d : Delimiter}
    (hk : k.Legal dollarQuoting) (hw : k.Body w) (hd : ∀ c ∈ d.text, Inert c) (atStart : Bool)
    (post : Str) :
    firstPiece dollarQuoting atStart d (k.opener ++ (w ++ (k.closer ++ post))) =
      k.state.piece (k.opener ++ (w ++ k.closer)) := by
  rw [firstPiece, command_opener, ite_self]
  simp only [look_eq hk hd]
  exact piece_eq hk hw d post

end Construct

/-! ### What a piece contributes -/

theorem trim_concat {c : Char} (hc : isBlank c = true) (text : Str) : trim (text ++ [c]) = trim text := by
  simp only [trim, strip, List.dropWhile_append]
  split
  · rename_i h
    simp [List.isEmpty_iff.mp h, hc]
  · rw [List.rdropWhile_concat_pos _ _ _ hc]

theorem trim_newline (text : Str) : trim (text ++ ['\n']) = trim text := trim_concat (by decide) text

theorem exists_statementsFrom (ps : List Piece) :
    ∃ b r, ∀ u, statementsFrom u ps = emit (u ++ b) ++ r := by
  induction ps with
  | nil => exact ⟨[], [], fun u => by simp [statementsFrom]⟩
  | cons p ps ih =>
    obtain ⟨b, r, h⟩ := ih
    cases p with
    | command line d => exact ⟨b, r, h⟩
    | comment text => exact ⟨b, r, h⟩
    | delimiter text => exact ⟨[], statementsFrom [] ps, fun u => by simp [statementsFrom]⟩
    | kept text => exact ⟨text ++ b, r, fun u => by rw [statementsFrom, h, List.append_assoc]⟩

/-- A kept text that neither starts nor ends with a blank stands in one statement, whatever it is. -/
theorem exists_statementsFrom_kept (u : Str) (ps qs : List Piece) :
    ∃ l a b r, ∀ t : Str, t ≠ [] → (∀ c ∈ t.head?, isBlank c = false) →
      (∀ c ∈ t.getLast?, isBlank c = false) →
      statementsFrom u (ps ++ .kept t :: qs) = l ++ [a ++ t ++ b] ++ r := by
  obtain ⟨b, r, h⟩ := exists_statementsFrom qs
  refine ⟨(ps.foldl collect ([], u)).1, ((ps.foldl collect ([], u)).2).dropWhile isBlank,
    b.rdropWhile isBlank, r, fun t hne hhead hlast => ?_⟩
  have happ := statementsFrom_append ([], u) ps (.kept t :: qs)
  have htrim := strip_append hne hhead hlast (ps.foldl collect ([], u)).2 b
  rw [List.nil_append] at happ
  rw [happ, statementsFrom, h, emit, trim, htrim, if_neg (by simp [hne])]
  simp

theorem statementsFrom_comment (u : Str) (ps : List Piece) (t : Str) (qs : List Piece) :
    statementsFrom u (ps ++ .comment t :: qs) = statementsFrom u (ps ++ qs) := by
  have h := statementsFrom_append ([], u) ps (.comment t :: qs)
  have h' := statementsFrom_append ([], u) ps qs
  simp only [List.nil_append, statementsFrom] at h h'
  rw [h, h']

/-! ### Two files that differ in a body -/

/-- The pieces of the two files are the same up to the construct, and after it. -/
theorem pieces_construct {dollarQuoting : Bool} {k : Construct} (hk : k.Legal dollarQuoting)
    {ps tail : List Piece} (hd : ∀ c ∈ (ps.foldl Piece.inForce semicolon).text, Inert c)
    {w post : Str}
    (hps : pieces dollarQuoting true semicolon
      (ps.flatMap Piece.text ++ (k.opener ++ (w ++ (k.closer ++ post)))) = ps ++ tail) :
    ∃ qs, ∀ x : Str, k.Body x → pieces dollarQuoting true semicolon
      (ps.flatMap Piece.text ++ (k.opener ++ (x ++ (k.closer ++ post)))) =
        ps ++ k.state.piece (k.opener ++ (x ++ k.closer)) :: qs := by
  obtain ⟨c, o, ho, hbar, hc⟩ := k.exists_barrier
  refine ⟨pieces dollarQuoting (k.closer.getLast? == some '\n') (ps.foldl Piece.inForce semicolon)
    post, fun x hx => ?_⟩
  have hlocal := pieces_local hbar (ho ▸ hps) (fun hmem => hc (hd c hmem)) (x ++ (k.closer ++ post))
  have hne : k.opener ++ (x ++ (k.closer ++ post)) ≠ [] := by simp [ho]
  have hcloser : k.closer ≠ [] := by cases k <;> simp [Construct.closer]
  have hdrop : (k.opener ++ (x ++ (k.closer ++ post))).drop (k.opener ++ (x ++ k.closer)).length =
      post := by
    have htext : k.opener ++ (x ++ (k.closer ++ post)) = k.opener ++ (x ++ k.closer) ++ post := by
      simp
    rw [htext, List.drop_left]
  have hlast : (k.opener ++ (x ++ k.closer)).getLast? = k.closer.getLast? := by
    rw [← List.append_assoc, List.getLast?_append_of_ne_nil _ hcloser]
  rw [← ho] at hlocal
  rw [hlocal, pieces_of_ne hne, k.firstPiece_eq hk hx hd, ScanState.piece_inForce,
    ScanState.piece_text, hdrop, Piece.endsLine, ScanState.piece_text, hlast]

/-- **Literals and comments are opaque.** The scanner is in the Normal state in front of an opener,
with a delimiter in force that shares no character with the openers. Whatever body the construct
has, a comment leaves all statements as they are, and a literal stands with its body in one of
them. -/
theorem loadQueriesFromFile_opaque {dollarQuoting : Bool} {file file' line : Str} {pos : Nat}
    {rest : List Str} {s : Splitter} {k : Construct} {before w w' post : Str}
    (hreach : Reaches dollarQuoting [] file (.scanning line pos rest s)) (hpos : pos < line.length)
    (hstate : s.state = .Normal) (hd : ∀ c ∈ s.delimiter, Inert c) (hk : k.Legal dollarQuoting)
    (hw : k.Body w) (hw' : k.Body w')
    (htext : line.drop pos ++ unlines rest = k.opener ++ (w ++ (k.closer ++ post)))
    (hfile : terminated '\n' file = before ++ (k.opener ++ (w ++ (k.closer ++ post))))
    (hfile' : terminated '\n' file' = before ++ (k.opener ++ (w' ++ (k.closer ++ post)))) :
    if k.state.dropping then
      loadQueriesFromFile dollarQuoting [] file' = loadQueriesFromFile dollarQuoting [] file
    else ∃ l a b r,
      loadQueriesFromFile dollarQuoting [] file =
        l ++ [a ++ (k.opener ++ (w ++ k.closer)) ++ b] ++ r ∧
      loadQueriesFromFile dollarQuoting [] file' =
        l ++ [a ++ (k.opener ++ (w' ++ k.closer)) ++ b] ++ r := by
  obtain ⟨ps, part, d, h⟩ : ∃ ps part d, Cut dollarQuoting [] (terminated '\n' file)
      (pos == line.length) s (line.drop pos ++ unlines rest) ps part d := by
    cases hreach.stands with
    | scanning hrest hl hpos h => exact ⟨_, _, _, by simpa using h⟩
  obtain rfl := h.normal hstate
  have hbefore : ps.flatMap Piece.text = before := by
    have hspelled := h.spelled
    rw [List.nil_append, htext, hfile] at hspelled
    exact List.append_cancel_right hspelled
  have hpieces := h.pieces
  rw [hfile, ← hbefore] at hpieces
  obtain ⟨qs, hqs⟩ := pieces_construct hk (by rw [h.inForce, ← h.delimiter]; exact hd) hpieces
  rw [splitStatements_pieces, splitStatements_pieces, statements, statements, hfile, hfile', ← hbefore,
    hqs w hw, hqs w' hw', List.nil_append, List.nil_append]
  unfold ScanState.piece
  split
  · rw [statementsFrom_comment, statementsFrom_comment]
  · obtain ⟨l, a, b, r, hkept⟩ := exists_statementsFrom_kept [] ps qs
    have hends : ∀ x : Str, statementsFrom [] (ps ++ .kept (k.opener ++ (x ++ k.closer)) :: qs) =
        l ++ [a ++ (k.opener ++ (x ++ k.closer)) ++ b] ++ r := fun x => by
      obtain ⟨c, o, ho, hbar, -⟩ := k.exists_barrier
      obtain ⟨y, hy, hblank⟩ := k.exists_getLast_closer (by simpa using ‹¬ k.state.dropping = true›)
      refine hkept _ (by simp [ho]) ?_ ?_
      · simpa [ho] using hbar.blank
      · rw [← List.append_assoc, List.getLast?_append, hy]
        simpa using hblank
    exact ⟨l, a, b, r, hends w, hends w'⟩

/-- The body of a literal may hold a delimiter and a whole DELIMITER line. -/
theorem loadQueriesFromFile_opaque_quoted :
    ∃ l a b r, loadQueriesFromFile true [] "'a';".toList =
        l ++ [a ++ "'a'".toList ++ b] ++ r ∧
      loadQueriesFromFile true [] "';\nDELIMITER $';".toList =
        l ++ [a ++ "';\nDELIMITER $'".toList ++ b] ++ r := by
  have hreach : Reaches true [] "'a';".toList
      (.scanning "'a';\n".toList 0 [] (initial [])) := Relation.ReflTransGen.single rfl
  have hbody : ∀ w : Str, '\'' ∉ w → '\\' ∉ w → Construct.singleQuoted.Body w :=
    fun w => quotedBody_of_not_mem
  have htext : ∀ w : Str, '\'' :: (w ++ "';\n".toList) =
      [] ++ (Construct.singleQuoted.opener ++ (w ++ (Construct.singleQuoted.closer ++ ";\n".toList))) :=
    fun w => rfl
  exact loadQueriesFromFile_opaque (k := .singleQuoted) hreach (by decide) rfl
    (forall_mem_of_all (by decide)) trivial (hbody "a".toList (by decide) (by decide))
    (hbody ";\nDELIMITER $".toList (by decide) (by decide))
    (htext "a".toList) (htext "a".toList) (htext ";\nDELIMITER $".toList)

end PQuery.SqlFile

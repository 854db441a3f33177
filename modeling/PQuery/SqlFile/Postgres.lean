import PQuery.SqlFile.Opaque

/-!
# PostgreSQL tokens

A file for a PostgreSQL section is a sequence of PostgreSQL tokens, and its statements are what
stands between two `;` tokens. The splitter reads most tokens as PostgreSQL does; it takes a
backslash in a string for an escape, a `$name$` inside an identifier for a dollar tag and a backtick
for a quote, and it knows no dollar tags beyond ASCII. `loadQueriesFromFile_tokens` is the
correctness of the dollar quoting mode for the sequences without these (`Token.Plain`).
-/

namespace PQuery.SqlFile

open ListScan

/-! ### Tokens -/

/-- The first character of an identifier; bytes from 128 on belong to letters. -/
def isIdentStart (c : Char) : Bool := isalpha c || c == '_' || decide (128 ≤ c.toNat)

def isIdentChar (c : Char) : Bool := isIdentStart c || isdigit c || c == '$'

def IsIdentifier (text : Str) : Prop :=
  (∃ c ∈ text.head?, isIdentStart c) ∧ ∀ c ∈ text, isIdentChar c

/-- The characters of a number apart from the sign of its exponent. -/
def isNumberChar (c : Char) : Bool := isalnum c || c == '_' || c == '.'

/-- A mantissa, and after an `e` possibly a sign and digits. -/
def IsNumber (text : Str) : Prop :=
  ∃ mantissa exponent, text = mantissa ++ exponent ∧
    (∃ c ∈ mantissa.head?, isdigit c ∨ c = '.') ∧ (∀ c ∈ mantissa, isNumberChar c) ∧
    (exponent = [] ∨ ((∃ c ∈ mantissa.getLast?, c = 'e' ∨ c = 'E') ∧
      ∃ sign digits, exponent = sign :: digits ∧ (sign = '+' ∨ sign = '-') ∧
        digits ≠ [] ∧ ∀ c ∈ digits, isdigit c))

/-- The name between the dollar signs of a tag. -/
def IsTag (name : Str) : Prop :=
  (∀ c ∈ name.head?, isIdentStart c) ∧ ∀ c ∈ name, isIdentChar c ∧ c ≠ '$'

/-- Operators and punctuation, `;` and the comment character `#` apart. -/
def isOperatorChar (c : Char) : Bool := "+-*/<>=~!@%^&|`?()[],:.".toList.contains c

/-- A text in quotes, a quote inside it doubled; `segments` is what stands between the doubled
quotes. -/
def doubled (quote : Char) (segments : List Str) : Str :=
  [quote] ++ [quote, quote].intercalate segments ++ [quote]

inductive Token
  | identifier (text : Str) (h : IsIdentifier text)
  | number (text : Str) (h : IsNumber text)
  | parameter (digits : Str) (h : digits ≠ [] ∧ ∀ c ∈ digits, isdigit c)
  | string (segments : List Str) (h : segments ≠ [] ∧ ∀ s ∈ segments, '\'' ∉ s)
  | quotedIdentifier (segments : List Str) (h : segments ≠ [] ∧ ∀ s ∈ segments, '"' ∉ s)
  | dollarString (name body : Str) (h : IsTag name ∧ Closes ('$' :: (name ++ ['$'])) body)
  | operator (text : Str) (h : text ≠ [] ∧ ∀ c ∈ text, isOperatorChar c)
  | blank (c : Char) (h : isspace c)
  | semicolon

def Token.text : Token → Str
  | identifier text _ => text
  | number text _ => text
  | parameter digits _ => '$' :: digits
  | string segments _ => doubled '\'' segments
  | quotedIdentifier segments _ => doubled '"' segments
  | dollarString name body _ => '$' :: (name ++ ['$']) ++ body ++ '$' :: (name ++ ['$'])
  | operator text _ => text
  | blank c _ => [c]
  | semicolon => [';']

def Token.isSemicolon : Token → Bool
  | semicolon => true
  | _ => false

def render (tokens : List Token) : Str := tokens.flatMap Token.text

/-- The statements of a token sequence. -/
def tokenStatements (tokens : List Token) : List Str :=
  ((tokens.splitOnP Token.isSemicolon).map fun ts => trim (render ts)).filter (· ≠ [])

/-- No comment starts in `text`, standing before `rest`. -/
def NoComment (text rest : Str) : Prop :=
  ∀ u v, text = u ++ v → v ≠ [] →
    lineCommentOpener (v ++ rest) = none ∧ ¬ ['/', '*'] <+: v ++ rest

/-- What a token needs of the text after it to be a token of its own: an identifier is as long as
it can be, and an operator forms no comment. -/
def Token.Ends (rest : Str) : Token → Prop
  | identifier _ _ => ∀ c ∈ rest.head?, isIdentChar c = false
  | dollarString _ _ _ => True
  | operator text _ => NoComment text (rest ++ ['\n'])
  | _ => True

/-- The sequences that PostgreSQL reads out of their text. -/
def Rendered : List Token → Prop
  | [] => True
  | t :: ts => t.Ends (render ts) ∧ Rendered ts

/-- The tokens that the splitter reads as PostgreSQL does. -/
def Token.Plain : Token → Prop
  | identifier text _ => ∀ u v, text = u ++ v → dollarOpener v = none
  | string segments _ => ∀ s ∈ segments, QuotedBody '\'' s
  | quotedIdentifier segments _ => ∀ s ∈ segments, QuotedBody '"' s
  | dollarString name _ _ => TagName name
  | operator text _ => '`' ∉ text
  | _ => True

/-! ### Texts without DELIMITER lines -/

/-- No line that starts in the text is a DELIMITER command. -/
def NoCommand (atStart : Bool) (text : Str) : Prop :=
  (atStart = true → command (firstLine text) = none) ∧
    ∀ u v, text = u ++ '\n' :: v → command (firstLine v) = none

theorem NoCommand.drop {atStart : Bool} {text rest : Str}
    (h : NoCommand atStart (text ++ rest)) : NoCommand (text.getLast? == some '\n') rest := by
  refine ⟨fun hlast => ?_, fun u v huv => h.2 (text ++ u) v (by rw [huv, List.append_assoc])⟩
  obtain ⟨u, hu⟩ := List.getLast?_eq_some_iff.mp (beq_iff_eq.mp hlast)
  exact h.2 u rest (by rw [hu, List.append_assoc, List.singleton_append])

theorem noCommand_unlines {ls : List Str} (hls : ∀ l ∈ ls, '\n' ∉ l)
    (hcmd : ∀ l ∈ ls, command l = none) : NoCommand true (unlines ls) := by
  induction ls with
  | nil => exact ⟨fun _ => by decide, fun u v h => by simp at h⟩
  | cons l ls ih =>
    have hl := hls l (by simp)
    have ih := ih (fun l' hl' => hls l' (by simp [hl'])) (fun l' hl' => hcmd l' (by simp [hl']))
    have hcons : unlines (l :: ls) = l ++ '\n' :: unlines ls := by simp [unlines]
    refine ⟨fun _ => ?_, fun u v huv => ?_⟩
    · rw [hcons, firstLine_append hl]
      exact hcmd l (by simp)
    · rw [hcons, List.append_eq_append_iff] at huv
      rcases huv with ⟨a, rfl, ha⟩ | ⟨a, rfl, ha⟩
      · rcases a with _ | ⟨x, a⟩
        · rw [List.nil_append] at ha
          obtain rfl : unlines ls = v := by simpa using ha
          exact ih.1 rfl
        · obtain ⟨-, ha⟩ := List.cons.inj ha
          exact ih.2 a v ha
      · rcases a with _ | ⟨x, a⟩
        · rw [List.nil_append] at ha
          obtain rfl : unlines ls = v := by simpa using ha.symm
          exact ih.1 rfl
        · obtain ⟨rfl, -⟩ := List.cons.inj ha
          exact absurd (by simp) hl

/-! ### Texts that the splitter keeps -/

/-- The splitter keeps the text as it stands before `rest`, and is in the Normal state after it. -/
def Keeps (text rest : Str) : Prop :=
  ∀ atStart, NoCommand atStart (text ++ rest) → ∃ ps atStart',
    pieces true atStart semicolon (text ++ rest) = ps ++ pieces true atStart' semicolon rest ∧
      NoCommand atStart' rest ∧
      ∀ pending qs, statementsFrom pending (ps ++ qs) = statementsFrom (pending ++ text) qs

theorem keeps_nil (rest : Str) : Keeps [] rest := fun atStart h =>
  ⟨[], atStart, rfl, h, fun pending qs => by simp⟩

theorem Keeps.append {t t' rest : Str} (h : Keeps t (t' ++ rest)) (h' : Keeps t' rest) :
    Keeps (t ++ t') rest := by
  intro atStart hno
  rw [List.append_assoc] at hno ⊢
  obtain ⟨ps, b, hps, hb, hstmts⟩ := h atStart hno
  obtain ⟨ps', b', hps', hb', hstmts'⟩ := h' b hb
  refine ⟨ps ++ ps', b', by rw [hps, hps', List.append_assoc], hb', fun pending qs => ?_⟩
  rw [List.append_assoc, hstmts, hstmts', List.append_assoc]

theorem keeps_piece {text rest : Str} (ht : text ≠ [])
    (h : ∀ atStart, NoCommand atStart (text ++ rest) →
      firstPiece true atStart semicolon (text ++ rest) = .kept text) : Keeps text rest := by
  intro atStart hno
  refine ⟨[.kept text], text.getLast? == some '\n', ?_, hno.drop, fun pending qs => rfl⟩
  rw [pieces_of_ne (by simp [ht]), h atStart hno]
  simp only [Piece.text, List.drop_left, Piece.endsLine, Piece.inForce]
  rfl

theorem keeps_char {c : Char} {rest : Str} (h : look true semicolon.text (c :: rest) = .plain) :
    Keeps [c] rest := by
  refine keeps_piece (by simp) fun atStart hno => ?_
  have hcmd : (if atStart then command (firstLine ([c] ++ rest)) else none) = none := by
    cases atStart with
    | false => rfl
    | true => exact hno.1 rfl
  rw [firstPiece, hcmd]
  simp only [List.singleton_append, h, Look.piece]
  rfl

theorem keeps_run {text rest : Str}
    (h : ∀ u c v, text = u ++ c :: v → look true semicolon.text (c :: (v ++ rest)) = .plain) :
    Keeps text rest := by
  induction text with
  | nil => exact keeps_nil rest
  | cons c text ih =>
    rw [← List.singleton_append]
    exact (keeps_char (h [] c text rfl)).append (ih fun u c' v huv => h (c :: u) c' v (by simp [huv]))

theorem keeps_construct {k : Construct} {w : Str} (hk : k.Legal true) (hw : k.Body w)
    (hkeep : k.state.dropping = false) (rest : Str) : Keeps (k.opener ++ (w ++ k.closer)) rest := by
  obtain ⟨c, o, ho, -, -⟩ := k.exists_barrier
  refine keeps_piece (by simp [ho]) fun atStart _ => ?_
  have hd : ∀ c ∈ semicolon.text, Inert c := forall_mem_of_all (by decide)
  have hfirst := k.firstPiece_eq hk hw hd atStart rest
  rw [ScanState.piece, hkeep] at hfirst
  simpa using hfirst

/-! ### Words -/

/-- The characters that start no rule of the splitter in the dollar quoting mode. -/
def Ordinary (c : Char) : Prop := c ∉ ";#/-'\"`$".toList

instance : DecidablePred Ordinary := fun c => inferInstanceAs (Decidable (c ∉ _))

theorem ordinary_of {p : Char → Bool} {c : Char} (hc : p c = true)
    (hp : ∀ x ∈ ";#/-'\"`$".toList, p x = false) : Ordinary c := fun hmem => by
  simp [hp c hmem] at hc

theorem look_plain_semicolon {c : Char} {rest : Str} (hsemi : c ≠ ';') (hquote : quoteState c = none)
    (hline : lineCommentOpener (c :: rest) = none) (hblock : ¬ ['/', '*'] <+: c :: rest)
    (hdollar : dollarOpener (c :: rest) = none) : look true semicolon.text (c :: rest) = .plain := by
  refine look_plain ?_ hquote hline hblock hdollar
  simpa [semicolon, List.cons_prefix_cons] using Ne.symm hsemi

theorem look_ordinary {c : Char} (hc : Ordinary c) (rest : Str) :
    look true semicolon.text (c :: rest) = .plain := by
  simp only [Ordinary, String.reduceToList, List.mem_cons, not_or] at hc
  obtain ⟨h1, h2, h3, h4, h5, h6, h7, h8, -⟩ := hc
  refine look_plain_semicolon h1 ?_ ?_ ?_ ?_
  · simp [quoteState, h5, h6, h7]
  · unfold lineCommentOpener
    split <;> simp_all
  · simp [List.cons_prefix_cons, Ne.symm h3]
  · unfold dollarOpener
    split <;> simp_all

theorem keeps_ordinary {text : Str} (h : ∀ c ∈ text, Ordinary c) (rest : Str) : Keeps text rest :=
  keeps_run fun u c v huv => look_ordinary (h c (by simp [huv])) _

theorem ordinary_of_isIdentChar {c : Char} (hc : isIdentChar c = true) (hdollar : c ≠ '$') :
    Ordinary c :=
  @ordinary_of (fun c => isIdentChar c && c != '$') c (by simp [hc, hdollar]) (forall_mem_of_all (by decide))

theorem isTagChar_of_isIdentChar {c : Char} (hc : isIdentChar c = false) :
    isTagChar c = false ∧ c ≠ '$' := by
  simp only [isIdentChar, isIdentStart, Bool.or_eq_false_iff] at hc
  simp_all [isTagChar, isalnum]

theorem dollarOpener_append {text rest : Str} (h : dollarOpener text = none) (ht : text ≠ [])
    (hrest : ∀ c ∈ rest.head?, isIdentChar c = false) : dollarOpener (text ++ rest) = none := by
  by_contra hne
  obtain ⟨tag, htag⟩ := Option.ne_none_iff_exists'.mp hne
  obtain ⟨name, v, hname, -, hv⟩ := dollarOpener_eq_some htag
  obtain ⟨x, text, rfl⟩ := List.exists_cons_of_ne_nil ht
  obtain ⟨rfl, htail⟩ := List.cons.inj hv
  rcases List.append_eq_append_iff.mp htail with ⟨a, hname', ha⟩ | ⟨a, htext, ha⟩
  · -- the name goes beyond the identifier
    rcases rest with _ | ⟨c, rest⟩
    · rw [List.nil_eq, List.append_eq_nil_iff] at ha
      simp at ha
    · obtain ⟨htagc, hdollar⟩ := isTagChar_of_isIdentChar (hrest c (by simp))
      rcases a with _ | ⟨y, a⟩
      · exact hdollar (List.cons.inj ha).1
      · obtain ⟨rfl, -⟩ := List.cons.inj ha
        exact hname.not_mem htagc (by simp [hname'])
  · rcases a with _ | ⟨y, a⟩
    · rw [List.nil_append] at ha
      obtain ⟨-, hdollar⟩ := isTagChar_of_isIdentChar (hrest '$' (by simp [← ha]))
      exact hdollar rfl
    · obtain ⟨rfl, -⟩ := List.cons.inj ha
      rw [htext, dollarOpener_tag hname] at h
      simp at h

theorem keeps_identifier {text rest : Str} (h : ∀ c ∈ text, isIdentChar c)
    (hdollar : ∀ u v, text = u ++ v → dollarOpener v = none)
    (hrest : ∀ c ∈ rest.head?, isIdentChar c = false) : Keeps text rest := by
  refine keeps_run fun u c v huv => ?_
  by_cases hc : c = '$'
  · subst hc
    have hnone := dollarOpener_append (hdollar u _ huv) (by simp) hrest
    exact look_plain_semicolon (by decide) (by decide) rfl (by simp [List.cons_prefix_cons]) hnone
  · exact look_ordinary (ordinary_of_isIdentChar (h c (by simp [huv])) hc) _

theorem keeps_number {text : Str} (h : IsNumber text) (rest : Str) : Keeps text rest := by
  obtain ⟨mantissa, exponent, rfl, -, hmantissa, hexponent⟩ := h
  have hm : ∀ r, Keeps mantissa r := fun r =>
    keeps_ordinary (fun c hc => ordinary_of (hmantissa c hc) (forall_mem_of_all (by decide))) r
  refine (hm _).append ?_
  rcases hexponent with rfl | ⟨-, sign, digits, rfl, hsign, hne, hdigits⟩
  · exact keeps_nil rest
  · have hd : Keeps digits rest :=
      keeps_ordinary (fun c hc => ordinary_of (hdigits c hc) (forall_mem_of_all (by decide))) rest
    obtain ⟨d, digits, rfl⟩ := List.exists_cons_of_ne_nil hne
    have hdash : d ≠ '-' := by
      rintro rfl
      simpa [isdigit] using hdigits '-' (by simp)
    rw [← List.singleton_append]
    refine Keeps.append (keeps_char ?_) hd
    rcases hsign with rfl | rfl
    · exact look_ordinary (by decide) _
    · refine look_plain_semicolon (by decide) (by decide) ?_ (by simp [List.cons_prefix_cons]) rfl
      unfold lineCommentOpener
      split <;> simp_all

theorem isalpha_of_isdigit {c : Char} (hc : isdigit c = true) : isalpha c = false := by
  simp only [isdigit, isalpha, Char.le_def, UInt32.le_iff_toNat_le, Bool.and_eq_true,
    decide_eq_true_eq, Bool.or_eq_false_iff, Bool.and_eq_false_iff, decide_eq_false_iff_not] at hc ⊢
  have h9 : '9'.val.toNat = 57 := rfl
  have hA : 'A'.val.toNat = 65 := rfl
  have ha : 'a'.val.toNat = 97 := rfl
  omega

theorem keeps_parameter {digits : Str} (hne : digits ≠ []) (hdigits : ∀ c ∈ digits, isdigit c)
    (rest : Str) : Keeps ('$' :: digits) rest := by
  have hd : Keeps digits rest :=
    keeps_ordinary (fun c hc => ordinary_of (hdigits c hc) (forall_mem_of_all (by decide))) rest
  rw [← List.singleton_append]
  refine Keeps.append (keeps_char ?_) hd
  refine look_plain_semicolon (by decide) (by decide) rfl (by simp [List.cons_prefix_cons]) ?_
  by_contra hsome
  obtain ⟨tag, htag⟩ := Option.ne_none_iff_exists'.mp hsome
  obtain ⟨name, v, hname, -, hv⟩ := dollarOpener_eq_some htag
  obtain ⟨d, digits, rfl⟩ := List.exists_cons_of_ne_nil hne
  have hdigit := hdigits d (by simp)
  rcases name with _ | ⟨x, name⟩
  · obtain ⟨rfl, -⟩ := List.cons.inj (List.cons.inj hv).2
    simp [isdigit] at hdigit
  · obtain ⟨rfl, -⟩ := List.cons.inj (List.cons.inj hv).2
    rcases hname.2 d (by simp) with hx | rfl
    · simp [isalpha_of_isdigit hdigit] at hx
    · simp [isdigit] at hdigit

/-- A text in quotes with quotes doubled inside is a row of literals to the splitter. -/
theorem doubled_eq (quote : Char) {segments : List Str} (h : segments ≠ []) :
    doubled quote segments = segments.flatMap fun s => [quote] ++ (s ++ [quote]) := by
  induction segments with
  | nil => exact absurd rfl h
  | cons s segments ih =>
    cases segments with
    | nil => simp [doubled, List.intercalate]
    | cons s' segments =>
      have ih := ih (by simp)
      rw [List.flatMap_cons, ← ih]
      simp [doubled, List.intercalate]

theorem keeps_doubled {quote : Char} {k : Construct} (hopener : k.opener = [quote])
    (hcloser : k.closer = [quote]) (hk : k.Legal true) (hkeep : k.state.dropping = false)
    {segments : List Str} (hne : segments ≠ []) (hbody : ∀ s ∈ segments, k.Body s) (rest : Str) :
    Keeps (doubled quote segments) rest := by
  rw [doubled_eq quote hne]
  clear hne
  induction segments with
  | nil => exact keeps_nil rest
  | cons s segments ih =>
    rw [List.flatMap_cons]
    refine Keeps.append ?_ (ih fun s' hs' => hbody s' (by simp [hs']))
    have hs := keeps_construct hk (hbody s (by simp)) hkeep
    rw [hopener, hcloser] at hs
    exact hs _

theorem lineCommentOpener_append_none {text rest : Str}
    (h : lineCommentOpener (text ++ rest) = none) : lineCommentOpener text = none := by
  by_contra hne
  obtain ⟨opener, ho⟩ := Option.ne_none_iff_exists'.mp hne
  obtain ⟨hopener, t, ht⟩ := lineCommentOpener_eq_some ho
  rcases hopener with rfl | rfl | ⟨rfl, c, r, hc, hblank⟩
  · simp [← ht, lineCommentOpener] at h
  · simp [← ht, lineCommentOpener] at h
  · simp [hc, lineCommentOpener, hblank] at h

theorem keeps_operator {text rest : Str} (h : ∀ c ∈ text, isOperatorChar c) (hback : '`' ∉ text)
    {rest' : Str} (hcomment : NoComment text (rest ++ rest')) : Keeps text rest := by
  refine keeps_run fun u c v huv => ?_
  have hc := h c (by simp [huv])
  have hne : ∀ x, isOperatorChar x = false → c ≠ x := fun x hx => by
    rintro rfl
    simp [hx] at hc
  have hback' : c ≠ '`' := fun hcx => hback (by simp [huv, hcx])
  obtain ⟨hline, hblock⟩ := hcomment u (c :: v) huv (by simp)
  rw [← List.append_assoc] at hline hblock
  refine look_plain_semicolon (hne _ (by decide)) ?_ (lineCommentOpener_append_none hline)
    (fun hp => hblock (hp.trans (List.prefix_append _ _))) ?_
  · simp [quoteState, hne '\'' (by decide), hne '"' (by decide), hback']
  · have hdollar := hne '$' (by decide)
    unfold dollarOpener
    split <;> simp_all

/-! ### Token sequences -/

/-- What the file ends with: the newline that is added if it is missing. -/
def FinalNewline (nl : Str) : Prop := nl = [] ∨ nl = ['\n']

theorem Token.keeps {t : Token} (ht : t.Plain) (hsemi : t.isSemicolon = false) {rest nl : Str}
    (hends : t.Ends rest) (hnl : FinalNewline nl) : Keeps t.text (rest ++ nl) := by
  cases t with
  | identifier text h =>
    refine keeps_identifier h.2 ht fun c hc => ?_
    rcases rest with _ | ⟨x, rest⟩
    · rcases hnl with rfl | rfl
      · simp at hc
      · obtain rfl : '\n' = c := by simpa using hc
        decide
    · exact hends c hc
  | number text h => exact keeps_number h _
  | parameter digits h => exact keeps_parameter h.1 h.2 _
  | string segments h =>
    exact keeps_doubled (k := .singleQuoted) rfl rfl trivial rfl h.1 ht _
  | quotedIdentifier segments h =>
    exact keeps_doubled (k := .doubleQuoted) rfl rfl trivial rfl h.1 ht _
  | dollarString name body h =>
    have hk := @keeps_construct (.dollar name) body ⟨rfl, ht⟩ h.2 rfl (rest ++ nl)
    simpa [Construct.opener, Construct.closer, Token.text] using hk
  | operator text h =>
    have hcomment : ∃ rest', NoComment text (rest ++ nl ++ rest') := by
      have hends : NoComment text (rest ++ ['\n']) := hends
      rcases hnl with rfl | rfl
      · exact ⟨['\n'], by simpa using hends⟩
      · exact ⟨[], by simpa using hends⟩
    obtain ⟨rest', hcomment⟩ := hcomment
    exact keeps_operator h.2 ht hcomment
  | blank c h =>
    have hord : Ordinary c := ordinary_of h (forall_mem_of_all (by decide))
    exact keeps_ordinary (by simpa [Token.text] using hord) _
  | semicolon => simp [isSemicolon] at hsemi

theorem emit_finalNewline {nl : Str} (hnl : FinalNewline nl) {atStart : Bool}
    (hno : NoCommand atStart nl) (pending : Str) :
    statementsFrom pending (pieces true atStart semicolon nl) = emit pending := by
  have hord : ∀ c ∈ nl, Ordinary c := by
    rcases hnl with rfl | rfl
    · simp
    · exact forall_mem_of_all (by decide)
  have hkeep := keeps_ordinary hord []
  obtain ⟨ps, b, hps, -, hstmts⟩ := hkeep atStart (by simpa using hno)
  rw [List.append_nil] at hps
  rw [hps, hstmts, pieces_nil, statementsFrom, emit, emit]
  rcases hnl with rfl | rfl
  · rw [List.append_nil]
  · rw [trim_newline]

theorem pieces_semicolon {atStart : Bool} {rest : Str} (hno : NoCommand atStart (';' :: rest)) :
    pieces true atStart semicolon (';' :: rest) =
      .delimiter [';'] :: pieces true false semicolon rest := by
  have hcmd : (if atStart then command (firstLine (';' :: rest)) else none) = none := by
    cases atStart with
    | false => rfl
    | true => exact hno.1 rfl
  have hlook : look true semicolon.text (';' :: rest) = .delimiter := by
    simp [look, semicolon, List.cons_prefix_cons]
  have hfirst : firstPiece true atStart semicolon (';' :: rest) = .delimiter [';'] := by
    rw [firstPiece, hcmd]
    simp only [hlook]
    rfl
  rw [pieces_of_ne (by simp), hfirst]
  rfl

theorem statementsFrom_render {nl : Str} (hnl : FinalNewline nl) {tokens : List Token}
    (hr : Rendered tokens) (hplain : ∀ t ∈ tokens, t.Plain) {atStart : Bool}
    (hno : NoCommand atStart (render tokens ++ nl)) (before : List Token) :
    statementsFrom (render before.reverse)
        (pieces true atStart semicolon (render tokens ++ nl)) =
      ((tokens.splitOnPPrepend Token.isSemicolon before).map fun ts => trim (render ts)).filter
        (· ≠ []) := by
  induction tokens generalizing atStart before with
  | nil =>
    have hnil : render [] ++ nl = nl := rfl
    rw [hnil] at hno ⊢
    rw [emit_finalNewline hnl hno, emit]
    by_cases h : trim (render before.reverse) = [] <;> simp [h]
  | cons t tokens ih =>
    have hcons : render (t :: tokens) ++ nl = t.text ++ (render tokens ++ nl) := by
      simp [render]
    have ih := @ih hr.2 fun t' ht' => hplain t' (by simp [ht'])
    rw [hcons] at hno ⊢
    cases hsemi : t.isSemicolon with
    | true =>
      obtain rfl : t = .semicolon := by
        cases t <;> simp [Token.isSemicolon] at hsemi
        rfl
      have hno' := hno.drop
      rw [Token.text, List.singleton_append] at hno ⊢
      rw [pieces_semicolon hno, statementsFrom, List.splitOnPPrepend_cons_pos hsemi]
      have ih := @ih false hno' []
      rw [List.reverse_nil, render, List.flatMap_nil, List.splitOnPPrepend_nil_right] at ih
      rw [ih, emit, List.map_cons, List.filter_cons]
      by_cases h : trim (render before.reverse) = [] <;> simp [h]
    | false =>
      obtain ⟨ps, b, hps, hno', hstmts⟩ := Token.keeps (hplain t (by simp)) hsemi hr.1 hnl atStart hno
      have ih := ih hno' (t :: before)
      rw [List.splitOnPPrepend_cons_neg hsemi, hps, hstmts, ← ih]
      simp [render]

/-- **In the dollar quoting mode a sequence of plain PostgreSQL tokens is split at its `;` tokens**
and nowhere else, where no line of its text is a DELIMITER command. -/
theorem loadQueriesFromFile_tokens {tokens : List Token} (hr : Rendered tokens)
    (hplain : ∀ t ∈ tokens, t.Plain)
    (hcmd : ∀ line ∈ lines '\n' (render tokens), isDelimiterCommand line = none) :
    loadQueriesFromFile true [] (render tokens) = tokenStatements tokens := by
  have hlines : ∀ line ∈ lines '\n' (render tokens), command line = none := fun line hline => by
    have h := hcmd line hline
    rwa [isDelimiterCommand_eq (not_mem_of_mem_lines hline), Option.map_eq_none_iff] at h
  have hno : NoCommand true (terminated '\n' (render tokens)) :=
    noCommand_unlines (fun _ => not_mem_of_mem_lines) hlines
  obtain ⟨nl, hnl, hfile⟩ : ∃ nl, FinalNewline nl ∧
      terminated '\n' (render tokens) = render tokens ++ nl := by
    rcases terminated_eq '\n' (render tokens) with h | h
    · exact ⟨[], Or.inl rfl, by rw [h, List.append_nil]⟩
    · exact ⟨['\n'], Or.inr rfl, h⟩
  rw [hfile] at hno
  rw [splitStatements_pieces, List.nil_append, statements, hfile]
  exact statementsFrom_render hnl hr hplain hno []

theorem loadQueriesFromFile_tokens_dollar :
    loadQueriesFromFile true [] "$1;$$;$$".toList = ["$1".toList, "$$;$$".toList] := by
  have hplain : ∀ t ∈ [Token.parameter ['1'] ⟨by decide, forall_mem_of_all (by decide)⟩, .semicolon,
      .dollarString [] [';'] ⟨by simp [IsTag], by decide⟩], t.Plain := by
    simp [Token.Plain, TagName]
  exact loadQueriesFromFile_tokens (by simp [Rendered, Token.Ends]) hplain (by decide)

/-- A string that ends with a backslash swallows the rest of the file. -/
theorem not_loadQueriesFromFile_tokens :
    ∃ tokens, render tokens = "'\\';2".toList ∧ Rendered tokens ∧
      (∀ line ∈ lines '\n' (render tokens), isDelimiterCommand line = none) ∧
      tokenStatements tokens = ["'\\'".toList, "2".toList] ∧
      loadQueriesFromFile true [] (render tokens) = ["'\\';2".toList] := by
  have htwo : IsNumber ['2'] := ⟨['2'], [], rfl, ⟨'2', rfl, by decide⟩,
    forall_mem_of_all (by decide), Or.inl rfl⟩
  refine ⟨[.string [['\\']] (by decide), .semicolon, .number ['2'] htwo], rfl, ?_, ?_, rfl, ?_⟩
  · simp [Rendered, Token.Ends]
  · change ∀ line ∈ lines '\n' "'\\';2".toList, isDelimiterCommand line = none
    decide
  · change loadQueriesFromFile true [] "'\\';2".toList = _
    decide +kernel

end PQuery.SqlFile

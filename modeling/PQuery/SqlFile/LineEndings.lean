import PQuery.Library.Scattered
import PQuery.SqlFile.Records

/-!
# Line endings

A text whose line ends may be written as a newline or as CR LF is a list of `Glyph`s with two
spellings. Every rule of the reference tokenizer cuts both spellings at the same glyph, so both have
the same pieces (`pieces_spelled`), up to the CR of a kept line end, which is a piece of its own. The
statements are the two spellings of the same glyphs (`statementsFrom_spelled`); a last line without
end gets a newline in both, which no statement keeps.
-/

namespace PQuery.SqlFile

open ListScan

/-- A character, or an end of a line. -/
inductive Glyph
  | char (c : Char) (h : c ≠ '\r')
  | eol

/-- The end of a line is a newline. -/
def Glyph.lf : Glyph → Char
  | char c _ => c
  | eol => '\n'

/-- The end of a line is CR LF. -/
def Glyph.crlf : Glyph → Str
  | char c _ => [c]
  | eol => ['\r', '\n']

/-- Every newline is replaced by CR LF. -/
def withCrlf (text : Str) : Str := text.flatMap fun c => if c = '\n' then ['\r', '\n'] else [c]

open Glyph (lf crlf)

section
variable (c : Char) (h : c ≠ '\r') (T : List Glyph)

theorem lf_char : (.char c h :: T).map lf = c :: T.map lf := rfl
theorem crlf_char : (.char c h :: T).flatMap crlf = c :: T.flatMap crlf := rfl
theorem lf_eol : (.eol :: T).map lf = '\n' :: T.map lf := rfl
theorem crlf_eol : (.eol :: T).flatMap crlf = '\r' :: '\n' :: T.flatMap crlf := rfl

end

/-- The function cuts both spellings of a text at the same glyph. -/
def CutsAlike (f : Str → Str) : Prop :=
  ∀ T : List Glyph, ∃ u v, T = u ++ v ∧ f (T.map lf) = u.map lf ∧ f (T.flatMap crlf) = u.flatMap crlf

/-- No character of the text belongs to a line end. -/
def Inline (text : Str) : Prop := '\n' ∉ text ∧ '\r' ∉ text

theorem inline_cons {c : Char} {text : Str} :
    Inline (c :: text) ↔ c ≠ '\n' ∧ c ≠ '\r' ∧ Inline text := by
  simp only [Inline, List.mem_cons, not_or, ne_eq, eq_comm (a := c)]
  tauto

theorem lf_ne_return (x : Glyph) : x.lf ≠ '\r' := by
  cases x with
  | char c h => exact h
  | eol => decide

theorem not_mem_lf (T : List Glyph) : '\r' ∉ T.map lf := by
  intro h
  obtain ⟨x, -, hx⟩ := List.mem_map.mp h
  exact lf_ne_return x hx

/-! ### Prefixes -/

theorem exists_of_prefix {pat : Str} (hpat : Inline pat) {T : List Glyph} (h : pat <+: T.map lf) :
    ∃ u v, T = u ++ v ∧ u.map lf = pat ∧ u.flatMap crlf = pat := by
  induction pat generalizing T with
  | nil => exact ⟨[], T, rfl, rfl, rfl⟩
  | cons a pat ih =>
    obtain ⟨hnl, hcr, hpat⟩ := inline_cons.mp hpat
    rcases T with _ | ⟨x, T⟩
    · simp at h
    · rw [List.map_cons, List.cons_prefix_cons] at h
      obtain ⟨u, v, rfl, hlf, hcrlf⟩ := ih hpat h.2
      cases x with
      | char c hc =>
        obtain rfl : a = c := h.1
        exact ⟨.char a hc :: u, v, rfl, by rw [lf_char, hlf], by rw [crlf_char, hcrlf]⟩
      | eol => exact absurd h.1 hnl

theorem prefix_crlf_iff {pat : Str} (hpat : Inline pat) {T : List Glyph} :
    pat <+: T.flatMap crlf ↔ pat <+: T.map lf := by
  constructor
  · intro h
    induction pat generalizing T with
    | nil => exact List.nil_prefix
    | cons a pat ih =>
      obtain ⟨hnl, hcr, hpat⟩ := inline_cons.mp hpat
      rcases T with _ | ⟨x, T⟩
      · simp at h
      · cases x with
        | char c hc =>
          rw [crlf_char, List.cons_prefix_cons] at h
          rw [lf_char, List.cons_prefix_cons]
          exact ⟨h.1, ih hpat h.2⟩
        | eol =>
          rw [crlf_eol, List.cons_prefix_cons] at h
          exact absurd h.1 hcr
  · intro h
    obtain ⟨u, v, rfl, -, hu⟩ := exists_of_prefix hpat h
    rw [List.flatMap_append, hu]
    exact List.prefix_append pat _

/-! ### The ends of literals and comments -/

theorem cutsAlike_through {pat : Str} (hpat : Inline pat) (hne : pat ≠ []) : CutsAlike (through pat) := by
  intro T
  induction T with
  | nil => exact ⟨[], [], rfl, rfl, rfl⟩
  | cons x T ih =>
    by_cases h : pat <+: (x :: T).map lf
    · obtain ⟨u, v, hT, hlf, hcrlf⟩ := exists_of_prefix hpat h
      have hboth : ∀ text, pat <+: text → through pat text = pat := by
        rintro (_ | ⟨c, text⟩) htext
        · exact absurd (List.prefix_nil.mp htext) hne
        · rw [through, if_pos htext]
      exact ⟨u, v, hT, (hboth _ h).trans hlf.symm,
        (hboth _ ((prefix_crlf_iff hpat).mpr h)).trans hcrlf.symm⟩
    · have h' := mt (prefix_crlf_iff hpat).mp h
      obtain ⟨u, v, rfl, hlf, hcrlf⟩ := ih
      cases x with
      | char c hc =>
        refine ⟨.char c hc :: u, v, rfl, ?_, ?_⟩
        · rw [lf_char] at h ⊢
          rw [through, if_neg h, hlf, lf_char]
        · rw [crlf_char] at h' ⊢
          rw [through, if_neg h', hcrlf, crlf_char]
      | eol =>
        -- neither character of the line end starts the pattern
        have hstop : ∀ (c : Char) (text : Str), c = '\n' ∨ c = '\r' → ¬ pat <+: c :: text := by
          rintro c text hc ⟨rest, hrest⟩
          obtain ⟨a, pat, rfl⟩ := List.exists_cons_of_ne_nil hne
          obtain rfl : a = c := (List.cons.inj hrest).1
          obtain ⟨hnl, hcr, -⟩ := inline_cons.mp hpat
          exact hc.elim hnl hcr
        refine ⟨.eol :: u, v, rfl, ?_, ?_⟩
        · rw [lf_eol, through, if_neg (hstop _ _ (.inl rfl)), hlf, lf_eol]
        · rw [crlf_eol, through, if_neg (hstop _ _ (.inr rfl)), through,
            if_neg (hstop _ _ (.inl rfl)), hcrlf, crlf_eol]

theorem cutsAlike_line : CutsAlike (through ['\n']) := by
  intro T
  induction T with
  | nil => exact ⟨[], [], rfl, rfl, rfl⟩
  | cons x T ih =>
    obtain ⟨u, v, rfl, hlf, hcrlf⟩ := ih
    cases x with
    | char c hc =>
      by_cases hnl : c = '\n'
      · subst hnl
        exact ⟨[.char '\n' hc], u ++ v, rfl, by simp [through, lf], by simp [through, crlf]⟩
      · have hstop : ∀ text : Str, ¬ ['\n'] <+: c :: text := by simp [List.cons_prefix_cons, Ne.symm hnl]
        refine ⟨.char c hc :: u, v, rfl, ?_, ?_⟩
        · rw [lf_char, through, if_neg (hstop _), hlf, lf_char]
        · rw [crlf_char, through, if_neg (hstop _), hcrlf, crlf_char]
    | eol =>
      refine ⟨[.eol], u ++ v, rfl, ?_, ?_⟩
      · exact @through_singleton _ _ '\n' [] (by simp) _
      · exact @through_singleton _ _ '\n' ['\r'] (by simp) _

theorem cutsAlike_throughQuote {quote : Char} (hnl : quote ≠ '\n') (hcr : quote ≠ '\r') :
    CutsAlike (throughQuote quote) := by
  have hplain : ∀ {c : Char}, c ≠ '\\' → c ≠ quote → ∀ rest,
      throughQuote quote (c :: rest) = c :: throughQuote quote rest := by
    intro c hslash hquote rest
    rw [throughQuote_cons hslash, if_neg hquote]
  have heol : ∀ {T u v : List Glyph}, T = u ++ v → throughQuote quote (T.map lf) = u.map lf →
      throughQuote quote (T.flatMap crlf) = u.flatMap crlf →
      throughQuote quote ((.eol :: T).map lf) = (.eol :: u).map lf ∧
        throughQuote quote ((.eol :: T).flatMap crlf) = (.eol :: u).flatMap crlf := by
    rintro T u v - hlf hcrlf
    constructor
    · rw [lf_eol, hplain (by decide) hnl.symm, hlf, lf_eol]
    · rw [crlf_eol, hplain (by decide) hcr.symm, hplain (by decide) hnl.symm, hcrlf, crlf_eol]
  intro T
  induction T using List.twoStepInduction with
  | nil => exact ⟨[], [], rfl, rfl, rfl⟩
  | singleton x =>
    refine ⟨[x], [], rfl, ?_⟩
    cases x with
    | char c hc =>
      have hlast : throughQuote quote [c] = [c] := by simp [throughQuote]
      exact ⟨hlast, hlast⟩
    | eol => exact @heol [] [] [] rfl rfl rfl
  | cons_cons x y T ih ihy =>
    cases x with
    | eol =>
      obtain ⟨u, v, hT, hlf, hcrlf⟩ := ihy y
      exact ⟨.eol :: u, v, congrArg (.eol :: ·) hT, heol hT hlf hcrlf⟩
    | char c hc =>
      by_cases hslash : c = '\\'
      · -- the backslash takes the character behind it, which is the CR of a line end
        subst hslash
        obtain ⟨u, v, rfl, hlf, hcrlf⟩ := ih
        cases y with
        | char d hd =>
          refine ⟨.char '\\' hc :: .char d hd :: u, v, rfl, ?_, ?_⟩
          · rw [lf_char, lf_char, throughQuote, hlf, lf_char, lf_char]
          · rw [crlf_char, crlf_char, throughQuote, hcrlf, crlf_char, crlf_char]
        | eol =>
          refine ⟨.char '\\' hc :: .eol :: u, v, rfl, ?_, ?_⟩
          · rw [lf_char, lf_eol, throughQuote, hlf, lf_char, lf_eol]
          · rw [crlf_char, crlf_eol, throughQuote, hplain (by decide) hnl.symm, hcrlf, crlf_char, crlf_eol]
      · by_cases hquote : c = quote
        · refine ⟨[.char c hc], y :: T, rfl, ?_, ?_⟩
          · rw [lf_char, throughQuote_cons hslash, if_pos hquote]
            rfl
          · rw [crlf_char, throughQuote_cons hslash, if_pos hquote]
            rfl
        · obtain ⟨u, v, hT, hlf, hcrlf⟩ := ihy y
          refine ⟨.char c hc :: u, v, congrArg (.char c hc :: ·) hT, ?_, ?_⟩
          · rw [lf_char, hplain hslash hquote, hlf, lf_char]
          · rw [crlf_char, hplain hslash hquote, hcrlf, crlf_char]

theorem cutsAlike_restOf (state : ScanState) (tag : Str) (hstate : state ≠ .Normal)
    (htag : state = .DollarQuote → Inline tag ∧ tag ≠ []) : CutsAlike (restOf state tag) := by
  cases state with
  | Normal => exact absurd rfl hstate
  | SingleQuote => exact cutsAlike_throughQuote (by decide) (by decide)
  | DoubleQuote => exact cutsAlike_throughQuote (by decide) (by decide)
  | Backtick => exact cutsAlike_through (by simp [Inline]) (by simp)
  | LineComment => exact cutsAlike_line
  | BlockComment => exact cutsAlike_through (by simp [Inline]) (by simp)
  | DollarQuote => exact cutsAlike_through (htag rfl).1 (htag rfl).2

/-! ### What stands at the start -/

theorem lineCommentOpener_crlf (T : List Glyph) :
    lineCommentOpener (T.flatMap crlf) = lineCommentOpener (T.map lf) := by
  have hfirst : ∀ (b : Char) (r r' : Str), lineCommentOpener (b :: '\r' :: r) =
      lineCommentOpener (b :: '\n' :: r') := by
    intro b r r'
    unfold lineCommentOpener
    split <;> split <;> simp_all
  have hsecond : ∀ (a b : Char) (r r' : Str), lineCommentOpener (a :: b :: '\r' :: r) =
      lineCommentOpener (a :: b :: '\n' :: r') := by
    intro a b r r'
    by_cases hdash : a = '-' ∧ b = '-'
    · simp [hdash, lineCommentOpener, isBlank]
    · unfold lineCommentOpener
      split <;> split <;> simp_all
  rcases T with _ | ⟨_ | _, T⟩
  · rfl
  · rcases T with _ | ⟨_ | _, T⟩
    · rfl
    · rcases T with _ | ⟨_ | _, T⟩
      · rfl
      · exact (lineCommentOpener_local (y := [_, _, _]) (.inl (by simp)) _).trans
          (lineCommentOpener_local (y := [_, _, _]) (.inl (by simp)) _).symm
      · exact hsecond _ _ _ _
    · exact hfirst _ _ _
  · rw [crlf_eol, lf_eol]
    simp [lineCommentOpener]

theorem takeWhile_crlf {p : Char → Bool} (hnl : p '\n' = false) (hcr : p '\r' = false)
    (T : List Glyph) : (T.flatMap crlf).takeWhile p = (T.map lf).takeWhile p ∧
      ∀ c, c ≠ '\n' → c ≠ '\r' → (((T.flatMap crlf).dropWhile p).head? = some c ↔
        ((T.map lf).dropWhile p).head? = some c) := by
  induction T with
  | nil => simp
  | cons x T ih =>
    obtain ⟨htake, hhead⟩ := ih
    cases x with
    | char d hd =>
      rw [lf_char, crlf_char]
      by_cases hp : p d = true
      · rw [List.takeWhile_cons_of_pos hp, List.takeWhile_cons_of_pos hp, List.dropWhile_cons_of_pos hp,
          List.dropWhile_cons_of_pos hp, htake]
        exact ⟨rfl, hhead⟩
      · rw [List.takeWhile_cons_of_neg hp, List.takeWhile_cons_of_neg hp, List.dropWhile_cons_of_neg hp,
          List.dropWhile_cons_of_neg hp]
        exact ⟨rfl, fun c _ _ => Iff.rfl⟩
    | eol =>
      rw [lf_eol, crlf_eol]
      simp only [List.takeWhile_cons, hnl, hcr, List.dropWhile_cons, Bool.false_eq_true, if_false,
        List.head?_cons, Option.some.injEq]
      exact ⟨trivial, fun c hc hc' => ⟨fun h => absurd h.symm hc', fun h => absurd h.symm hc⟩⟩

theorem dollarOpener_crlf (T : List Glyph) :
    dollarOpener (T.flatMap crlf) = dollarOpener (T.map lf) := by
  rcases T with _ | ⟨x, T⟩
  · rfl
  cases x with
  | char c hc =>
    rw [lf_char, crlf_char]
    by_cases hdollar : c = '$'
    · subst hdollar
      obtain ⟨htake, hhead⟩ := takeWhile_crlf (p := isTagChar) (by decide) (by decide) T
      simp only [dollarOpener, htake, hhead '$' (by decide) (by decide)]
    · unfold dollarOpener
      split <;> split <;> simp_all
  | eol =>
    rw [lf_eol, crlf_eol]
    simp [dollarOpener]

theorem look_crlf {dollarQuoting : Bool} {delimiter : Str} (hdelimiter : Inline delimiter) {c : Char}
    (hc : c ≠ '\r') (T : List Glyph) :
    look dollarQuoting delimiter ((.char c hc :: T).flatMap crlf) =
      look dollarQuoting delimiter ((.char c hc :: T).map lf) := by
  have hblock : Inline ['/', '*'] := by simp [Inline]
  have hchar : charAt ((Glyph.char c hc :: T).flatMap crlf) 0 =
      charAt ((Glyph.char c hc :: T).map lf) 0 := rfl
  simp only [look, prefix_crlf_iff hdelimiter, lineCommentOpener_crlf, prefix_crlf_iff hblock,
    dollarOpener_crlf, hchar]

theorem firstLine_crlf (T : List Glyph) : trim (firstLine (T.flatMap crlf)) = trim (firstLine (T.map lf)) := by
  have hline : firstLine (T.flatMap crlf) = firstLine (T.map lf) ∨
      firstLine (T.flatMap crlf) = firstLine (T.map lf) ++ ['\r'] := by
    unfold firstLine
    induction T with
    | nil => exact .inl rfl
    | cons x T ih =>
      cases x with
      | char c hc =>
        rw [lf_char, crlf_char, List.takeWhile_cons, List.takeWhile_cons]
        split_ifs
        · rcases ih with ih | ih
          · exact .inl (congrArg (c :: ·) ih)
          · exact .inr (congrArg (c :: ·) ih)
        · exact .inl rfl
      | eol => exact .inr rfl
  rcases hline with hline | hline
  · rw [hline]
  · rw [hline, trim_concat (by decide)]

theorem command_crlf (T : List Glyph) :
    command (firstLine (T.flatMap crlf)) = command (firstLine (T.map lf)) := by
  simp only [command, firstLine_crlf]

theorem mem_of_command {line : Str} {d : Delimiter} (h : command line = some d) :
    ∀ c ∈ d.text, c ∈ line := by
  unfold command at h
  simp only [Option.ite_none_right_eq_some] at h
  obtain ⟨-, h⟩ := h
  split_ifs at h
  obtain rfl := Option.some.inj h
  exact fun c hc => mem_of_mem_trim (List.mem_of_mem_drop (mem_of_mem_trim hc))

/-! ### Pieces -/

/-- A piece of a text of glyphs. -/
inductive GlyphPiece
  | command (line : List Glyph) (delimiter : Delimiter)
  | delimiter (text : List Glyph)
  | comment (text : List Glyph)
  | kept (text : List Glyph)

def GlyphPiece.glyphs : GlyphPiece → List Glyph
  | command line _ => line
  | delimiter text => text
  | comment text => text
  | kept text => text

def GlyphPiece.lf : GlyphPiece → Piece
  | command line d => .command (line.map Glyph.lf) d
  | delimiter text => .delimiter (text.map Glyph.lf)
  | comment text => .comment (text.map Glyph.lf)
  | kept text => .kept (text.map Glyph.lf)

/-- The two characters of a kept line end are two pieces. -/
def GlyphPiece.crlf : GlyphPiece → List Piece
  | command line d => [.command (line.flatMap Glyph.crlf) d]
  | delimiter text => [.delimiter (text.flatMap Glyph.crlf)]
  | comment text => [.comment (text.flatMap Glyph.crlf)]
  | kept [.eol] => [.kept ['\r'], .kept ['\n']]
  | kept text => [.kept (text.flatMap Glyph.crlf)]

theorem GlyphPiece.crlf_kept {text : List Glyph} (h : text ≠ [.eol]) :
    (kept text).crlf = [.kept (text.flatMap Glyph.crlf)] := by
  rw [GlyphPiece.crlf]
  exact h

theorem GlyphPiece.lf_text (p : GlyphPiece) : p.lf.text = p.glyphs.map Glyph.lf := by
  cases p <;> rfl

theorem opener_spelled (opener : Str) (hopener : Inline opener) {T : List Glyph}
    (h : opener <+: T.map lf) {state : ScanState} {tag : Str} (hrest : CutsAlike (restOf state tag)) :
    ∃ u v, T = u ++ v ∧ opener ++ restOf state tag ((T.map lf).drop opener.length) = u.map lf ∧
      opener ++ restOf state tag ((T.flatMap crlf).drop opener.length) = u.flatMap crlf := by
  obtain ⟨u, v, rfl, hlf, hcrlf⟩ := exists_of_prefix hopener h
  obtain ⟨w, z, rfl, hw, hw'⟩ := hrest v
  refine ⟨u ++ w, z, by simp, ?_, ?_⟩
  · have hall : (u ++ (w ++ z)).map lf = u.map lf ++ (w ++ z).map lf := List.map_append
    rw [hall, hlf, List.drop_left, hw, List.map_append, hlf]
  · rw [List.flatMap_append, hcrlf, List.drop_left, hw', List.flatMap_append, hcrlf]

theorem look_piece_spelled {dollarQuoting : Bool} {d : Delimiter} (hd : Inline d.text) {c : Char}
    (hc : c ≠ '\r') (T : List Glyph) :
    ∃ p : GlyphPiece, ∃ rest, .char c hc :: T = p.glyphs ++ rest ∧
      (look dollarQuoting d.text ((.char c hc :: T).map lf)).piece ((.char c hc :: T).map lf) d = p.lf ∧
      p.crlf = [(look dollarQuoting d.text ((.char c hc :: T).map lf)).piece
        ((.char c hc :: T).flatMap crlf) d] := by
  have hspec := look_spec dollarQuoting d.text ((.char c hc :: T).map lf)
  -- a part of the text that does not start with a line end is none
  have hkept : ∀ {u v : List Glyph}, .char c hc :: T = u ++ v → u ≠ [.eol] := by
    rintro u v hsplit rfl
    cases hsplit
  cases hlook : look dollarQuoting d.text ((.char c hc :: T).map lf) with
  | delimiter =>
    rw [hlook] at hspec
    obtain ⟨u, v, hT, hlf, hcrlf⟩ := exists_of_prefix hd hspec.2
    refine ⟨.delimiter u, v, hT, ?_, ?_⟩
    · rw [GlyphPiece.lf, hlf, Look.piece]
    · rw [GlyphPiece.crlf, hcrlf, Look.piece]
  | lineComment opener =>
    rw [hlook] at hspec
    obtain ⟨hopener, hpre⟩ := lineCommentOpener_eq_some hspec
    have hinline : Inline opener := by
      rcases hopener with rfl | rfl | ⟨rfl, -⟩ <;> simp [Inline]
    obtain ⟨u, v, hT, hlf, hcrlf⟩ := opener_spelled opener hinline hpre
      (cutsAlike_restOf .LineComment [] (by simp) (by simp))
    refine ⟨.comment u, v, hT, ?_, ?_⟩
    · rw [GlyphPiece.lf, ← hlf, Look.piece]
    · rw [GlyphPiece.crlf, ← hcrlf, Look.piece]
  | blockComment =>
    rw [hlook] at hspec
    obtain ⟨u, v, hT, hlf, hcrlf⟩ := opener_spelled ['/', '*'] (by simp [Inline]) hspec
      (cutsAlike_restOf .BlockComment [] (by simp) (by simp))
    refine ⟨.comment u, v, hT, ?_, ?_⟩
    · rw [GlyphPiece.lf, ← hlf]
      rfl
    · rw [GlyphPiece.crlf, ← hcrlf]
      rfl
  | dollarQuote tag =>
    rw [hlook] at hspec
    obtain ⟨name, rest, hname, rfl, htext⟩ := dollarOpener_eq_some hspec.2
    have hinline : Inline ('$' :: (name ++ ['$'])) := by
      have hnl := hname.not_mem (c := '\n') (by decide)
      have hcr := hname.not_mem (c := '\r') (by decide)
      simp [Inline, hnl, hcr]
    obtain ⟨u, v, hT, hlf, hcrlf⟩ := opener_spelled _ hinline (by rw [htext]; exact ⟨rest, by simp⟩)
      (cutsAlike_restOf .DollarQuote _ (by simp) fun _ => ⟨hinline, by simp⟩)
    refine ⟨.kept u, v, hT, ?_, ?_⟩
    · rw [GlyphPiece.lf, ← hlf, Look.piece]
    · rw [GlyphPiece.crlf_kept (hkept hT), ← hcrlf, Look.piece]
  | quote q =>
    rw [hlook] at hspec
    obtain ⟨hq, hstate⟩ := hspec
    obtain rfl : c = q := hq
    obtain ⟨state, hstate⟩ := Option.isSome_iff_exists.mp hstate
    have hquote : Inline [c] ∧ state ≠ .Normal ∧ state ≠ .DollarQuote := by
      unfold quoteState at hstate
      split_ifs at hstate with h₁ h₂ h₃
      all_goals
        obtain rfl := Option.some.inj hstate
        subst c
        simp [Inline]
    obtain ⟨u, v, hT, hlf, hcrlf⟩ := @opener_spelled [c] hquote.1 (.char c hc :: T)
      ⟨T.map lf, rfl⟩ _ _ (cutsAlike_restOf state [] hquote.2.1 fun h => absurd h hquote.2.2)
    refine ⟨.kept u, v, hT, ?_, ?_⟩
    · rw [GlyphPiece.lf, ← hlf, Look.piece, hstate]
      rfl
    · rw [GlyphPiece.crlf_kept (hkept hT), ← hcrlf, Look.piece, hstate]
      rfl
  | plain => exact ⟨.kept [.char c hc], T, rfl, rfl, rfl⟩

theorem firstPiece_spelled {dollarQuoting atStart : Bool} {d : Delimiter} (hd : Inline d.text) {c : Char}
    (hc : c ≠ '\r') (T : List Glyph) :
    ∃ p : GlyphPiece, ∃ rest, .char c hc :: T = p.glyphs ++ rest ∧
      firstPiece dollarQuoting atStart d ((.char c hc :: T).map lf) = p.lf ∧
      p.crlf = [firstPiece dollarQuoting atStart d ((.char c hc :: T).flatMap crlf)] := by
  unfold firstPiece
  rw [command_crlf, look_crlf hd]
  cases if atStart then command (firstLine ((.char c hc :: T).map lf)) else none with
  | none => exact look_piece_spelled hd hc T
  | some d' =>
    obtain ⟨u, v, hT, hlf, hcrlf⟩ := cutsAlike_line (.char c hc :: T)
    refine ⟨.command u d', v, hT, ?_, ?_⟩
    · rw [GlyphPiece.lf, ← hlf]
    · rw [GlyphPiece.crlf, ← hcrlf]

theorem firstPiece_lineEnd {dollarQuoting atStart : Bool} {d : Delimiter} (hd : Inline d.text) {c : Char}
    (hc : c = '\n' ∨ c = '\r') {rest : Str} (hline : command (firstLine (c :: rest)) = none) :
    firstPiece dollarQuoting atStart d (c :: rest) = .kept [c] := by
  have hdelimiter : ¬ d.text <+: c :: rest := by
    rintro ⟨more, hmore⟩
    obtain ⟨a, text, htext⟩ := List.exists_cons_of_ne_nil d.ne
    rw [htext] at hmore hd
    obtain rfl : a = c := (List.cons.inj hmore).1
    exact hc.elim (inline_cons.mp hd).1 (inline_cons.mp hd).2.1
  have hlook : look dollarQuoting d.text (c :: rest) = .plain := look_lineEnd hc hdelimiter
  have hcmd : (if atStart then command (firstLine (c :: rest)) else none) = none := by
    rw [hline, ite_self]
  simp only [firstPiece, hcmd, hlook]
  rfl

theorem getLast?_spelled (u : List Glyph) : (u.flatMap crlf).getLast? = (u.map lf).getLast? := by
  rcases List.eq_nil_or_concat u with rfl | ⟨u, x, rfl⟩
  · rfl
  · cases x <;> simp [Glyph.lf, Glyph.crlf]

theorem GlyphPiece.single {p : GlyphPiece} {q : Piece} (h : p.crlf = [q]) :
    q.text = p.glyphs.flatMap Glyph.crlf ∧ q.endsLine = p.lf.endsLine ∧
      ∀ d, q.inForce d = p.lf.inForce d := by
  have htext : q.text = p.glyphs.flatMap Glyph.crlf ∧ ∀ d, q.inForce d = p.lf.inForce d := by
    cases p with
    | kept text =>
      by_cases heol : text = [.eol]
      · rw [heol, GlyphPiece.crlf] at h
        cases h
      · rw [GlyphPiece.crlf_kept heol] at h
        cases h
        exact ⟨rfl, fun d => rfl⟩
    | _ =>
      cases h
      exact ⟨rfl, fun d => rfl⟩
  refine ⟨htext.1, ?_, htext.2⟩
  rw [Piece.endsLine, Piece.endsLine, htext.1, GlyphPiece.lf_text, getLast?_spelled]

theorem inline_inForce {dollarQuoting atStart : Bool} {d : Delimiter} (hd : Inline d.text)
    (T : List Glyph) : Inline ((firstPiece dollarQuoting atStart d (T.map lf)).inForce d).text := by
  unfold firstPiece
  cases hcmd : if atStart then command (firstLine (T.map lf)) else none with
  | none =>
    cases look dollarQuoting d.text (T.map lf) <;> exact hd
  | some d' =>
    rw [Option.ite_none_right_eq_some] at hcmd
    refine ⟨d'.line, fun hcr => not_mem_lf T ?_⟩
    exact (List.takeWhile_prefix _).subset (mem_of_command hcmd.2 _ hcr)

/-- **Both spellings have the same pieces.** -/
theorem pieces_spelled {dollarQuoting : Bool} (T : List Glyph) (atStart : Bool) (d : Delimiter)
    (hd : Inline d.text) :
    ∃ ps : List GlyphPiece, pieces dollarQuoting atStart d (T.map lf) = ps.map GlyphPiece.lf ∧
      pieces dollarQuoting atStart d (T.flatMap crlf) = ps.flatMap GlyphPiece.crlf ∧
      ps.flatMap GlyphPiece.glyphs = T := by
  induction hn : T.length using Nat.strong_induction_on generalizing T atStart d with
  | _ n ih =>
    rcases T with _ | ⟨x, T⟩
    · exact ⟨[], by simp, by simp, rfl⟩
    cases x with
    | eol =>
      obtain ⟨ps, hlf, hcrlf, hT⟩ := ih T.length (by rw [← hn]; exact Nat.lt_succ_self _) T true d hd rfl
      refine ⟨.kept [.eol] :: ps, ?_, ?_, ?_⟩
      · have hfirst := @firstPiece_lineEnd dollarQuoting atStart d hd _ (.inl rfl) (T.map lf) rfl
        rw [lf_eol, pieces_of_ne (List.cons_ne_nil _ _), hfirst, List.map_cons, ← hlf]
        rfl
      · have hreturn := @firstPiece_lineEnd dollarQuoting atStart d hd _ (.inr rfl)
          ('\n' :: T.flatMap crlf) rfl
        have hnewline := @firstPiece_lineEnd dollarQuoting false d hd _ (.inl rfl) (T.flatMap crlf) rfl
        have hbehind : pieces dollarQuoting false d ('\n' :: T.flatMap crlf) =
            .kept ['\n'] :: pieces dollarQuoting true d (T.flatMap crlf) := by
          rw [pieces_of_ne (List.cons_ne_nil _ _), hnewline]
          rfl
        rw [crlf_eol, pieces_of_ne (List.cons_ne_nil _ _), hreturn, List.flatMap_cons, ← hcrlf]
        exact congrArg (.kept ['\r'] :: ·) hbehind
      · rw [List.flatMap_cons, hT]
        rfl
    | char c hc =>
      obtain ⟨p, rest, hsplit, hlf, hcrlf⟩ :=
        @firstPiece_spelled dollarQuoting atStart d hd c hc T
      obtain ⟨htext, hends, hforce⟩ := GlyphPiece.single hcrlf
      have hforced := @inline_inForce dollarQuoting atStart d hd (.char c hc :: T)
      have hne : (Glyph.char c hc :: T).map lf ≠ [] := by simp
      have hne' : (Glyph.char c hc :: T).flatMap crlf ≠ [] := by
        rw [crlf_char]
        simp
      have hpos := List.length_pos_iff.mpr (firstPiece_isPrefix dollarQuoting atStart d hne).2
      rw [pieces_of_ne hne, pieces_of_ne hne', htext, hends, hforce]
      rw [hlf] at hforced hpos ⊢
      rw [GlyphPiece.lf_text, List.length_map] at hpos
      have hrest : rest.length < n := by
        rw [← hn, hsplit, List.length_append]
        omega
      obtain ⟨ps, hps, hps', hT⟩ := ih rest.length hrest rest p.lf.endsLine _ hforced rfl
      refine ⟨p :: ps, ?_, ?_, ?_⟩
      · rw [GlyphPiece.lf_text, hsplit, List.map_append, List.drop_left, hps, List.map_cons]
      · have hdrop : (p.glyphs ++ rest).flatMap crlf = p.glyphs.flatMap crlf ++ rest.flatMap crlf :=
          List.flatMap_append
        rw [hsplit, hdrop, List.drop_left, hps', List.flatMap_cons, hcrlf, hsplit, hdrop]
        rfl
      · rw [List.flatMap_cons, hT, hsplit]

/-! ### Statements -/

def trimGlyphs (T : List Glyph) : List Glyph := strip (fun x => isBlank x.lf) T

theorem trim_lf (T : List Glyph) : trim (T.map lf) = (trimGlyphs T).map lf := strip_map _ _ _

theorem trim_crlf (T : List Glyph) : trim (T.flatMap crlf) = (trimGlyphs T).flatMap crlf := by
  refine strip_flatMap (fun x => ?_) (fun x y hy => ?_) T
  · cases x <;> simp [Glyph.crlf]
  · cases x with
    | char c hc =>
      obtain rfl := List.mem_singleton.mp hy
      rfl
    | eol =>
      have hends : ∀ y ∈ ['\r', '\n'], isBlank y = true := by simp [isBlank]
      exact hends y hy

/-- What is left of a part of the text after trimming. -/
structure Trimmed (T Q : List Glyph) : Prop where
  sublist : Q.Sublist T
  last : ∀ x ∈ Q.getLast?, isBlank x.lf = false

theorem trimmed_trimGlyphs (T : List Glyph) : Trimmed T (trimGlyphs T) :=
  ⟨(List.rdropWhile_prefix _ _).sublist.trans (List.dropWhile_sublist _), getLast?_strip _ T⟩

theorem Trimmed.mono {T T' Q : List Glyph} (h : Trimmed T Q) (hsub : T.Sublist T') : Trimmed T' Q :=
  ⟨h.sublist.trans hsub, h.last⟩

/-- Two lists of texts are the spellings of the same trimmed parts of `T`. -/
def Spellings (T : List Glyph) (qs qs' : List Str) : Prop :=
  ∃ Qs : List (List Glyph), qs = Qs.map (·.map lf) ∧ qs' = Qs.map (·.flatMap crlf) ∧
    ∀ Q ∈ Qs, Trimmed T Q

theorem Spellings.mono {T T' : List Glyph} {qs qs' : List Str} (h : Spellings T qs qs')
    (hsub : T.Sublist T') : Spellings T' qs qs' := by
  obtain ⟨Qs, hlf, hcrlf, hQs⟩ := h
  exact ⟨Qs, hlf, hcrlf, fun Q hQ => (hQs Q hQ).mono hsub⟩

theorem Spellings.append {T : List Glyph} {qs qs' rs rs' : List Str} (h : Spellings T qs qs')
    (h' : Spellings T rs rs') : Spellings T (qs ++ rs) (qs' ++ rs') := by
  obtain ⟨Qs, rfl, rfl, hQs⟩ := h
  obtain ⟨Rs, rfl, rfl, hRs⟩ := h'
  refine ⟨Qs ++ Rs, by simp, by simp, fun Q hQ => ?_⟩
  rcases List.mem_append.mp hQ with hQ | hQ
  · exact hQs Q hQ
  · exact hRs Q hQ

theorem emit_spelled (T : List Glyph) : Spellings T (emit (T.map lf)) (emit (T.flatMap crlf)) := by
  have hnil : (trimGlyphs T).flatMap crlf = [] ↔ trimGlyphs T = [] := by
    constructor
    · intro h
      rcases hT : trimGlyphs T with _ | ⟨_ | _, Q⟩
      · rfl
      · simp [hT, Glyph.crlf] at h
      · simp [hT, Glyph.crlf] at h
    · intro h
      rw [h]
      rfl
  rw [emit, emit, trim_lf, trim_crlf]
  by_cases h : trimGlyphs T = []
  · rw [if_pos (hnil.mpr h), if_pos (by rw [h]; rfl)]
    exact ⟨[], rfl, rfl, by simp⟩
  · rw [if_neg (mt hnil.mp h), if_neg (by simpa using h)]
    exact ⟨[trimGlyphs T], rfl, rfl, by simpa using trimmed_trimGlyphs T⟩

theorem statementsFrom_spelled (P : List Glyph) (ps : List GlyphPiece) :
    Spellings (P ++ ps.flatMap GlyphPiece.glyphs) (statementsFrom (P.map lf) (ps.map GlyphPiece.lf))
      (statementsFrom (P.flatMap crlf) (ps.flatMap GlyphPiece.crlf)) := by
  induction ps generalizing P with
  | nil =>
    rw [List.flatMap_nil, List.append_nil]
    exact emit_spelled P
  | cons p ps ih =>
    have hpassed : (P ++ ps.flatMap GlyphPiece.glyphs).Sublist
        (P ++ (p :: ps).flatMap GlyphPiece.glyphs) := by
      rw [List.flatMap_cons]
      exact (List.sublist_append_right _ _).append_left P
    cases p with
    | command line d => exact (ih P).mono hpassed
    | comment text => exact (ih P).mono hpassed
    | delimiter text =>
      refine Spellings.append ((emit_spelled P).mono (List.sublist_append_left _ _)) ?_
      exact (ih []).mono ((List.sublist_append_right _ _).trans hpassed)
    | kept text =>
      have hstatement := ih (P ++ text)
      rw [List.map_append, List.flatMap_append, List.append_assoc] at hstatement
      have hcrlf : statementsFrom (P.flatMap crlf) ((.kept text :: ps).flatMap GlyphPiece.crlf) =
          statementsFrom (P.flatMap crlf ++ text.flatMap crlf) (ps.flatMap GlyphPiece.crlf) := by
        by_cases heol : text = [.eol]
        · subst heol
          simp [GlyphPiece.crlf, statementsFrom, Glyph.crlf]
        · rw [List.flatMap_cons, GlyphPiece.crlf_kept heol]
          rfl
      rw [hcrlf]
      exact hstatement

/-! ### Files -/

/-- The glyphs of a file; where the last line has no end, a newline is added to both spellings. -/
structure FileGlyphs (file : Str) (T₀ T : List Glyph) : Prop where
  lf : T.map lf = terminated '\n' file
  crlf : T.flatMap crlf = terminated '\n' (withCrlf file)
  eols : ∀ x ∈ T₀, x.crlf = withCrlf [x.lf]
  last : T = T₀ ∨ ∃ x : Glyph, x.lf = '\n' ∧ T = T₀ ++ [x]

theorem withCrlf_append (u v : Str) : withCrlf (u ++ v) = withCrlf u ++ withCrlf v := List.flatMap_append

theorem withCrlf_lf {Q : List Glyph} (h : ∀ x ∈ Q, x.crlf = withCrlf [x.lf]) :
    withCrlf (Q.map lf) = Q.flatMap crlf := by
  induction Q with
  | nil => rfl
  | cons x Q ih =>
    rw [List.forall_mem_cons] at h
    rw [List.map_cons, List.flatMap_cons, h.1, ← ih h.2]
    exact withCrlf_append [x.lf] _

theorem exists_glyphs {text : Str} (h : '\r' ∉ text) :
    ∃ T : List Glyph, T.map lf = text ∧ ∀ x ∈ T, x.crlf = withCrlf [x.lf] := by
  induction text with
  | nil => exact ⟨[], rfl, by simp⟩
  | cons c text ih =>
    rw [List.mem_cons, not_or] at h
    obtain ⟨T, rfl, hT⟩ := ih h.2
    by_cases hc : c = '\n'
    · subst hc
      exact ⟨.eol :: T, rfl, List.forall_mem_cons.mpr ⟨rfl, hT⟩⟩
    · refine ⟨.char c (Ne.symm h.1) :: T, rfl, List.forall_mem_cons.mpr ⟨?_, hT⟩⟩
      simp [Glyph.crlf, Glyph.lf, withCrlf, hc]

theorem exists_fileGlyphs {file : Str} (h : '\r' ∉ file) : ∃ T₀ T, FileGlyphs file T₀ T := by
  obtain ⟨T, hT, heols⟩ := exists_glyphs h
  have hcrlf : T.flatMap crlf = withCrlf file := by rw [← hT, withCrlf_lf heols]
  rcases List.eq_nil_or_concat file with rfl | ⟨init, c, rfl⟩
  · exact ⟨T, T, hT, hcrlf, heols, .inl rfl⟩
  rw [List.concat_eq_append] at *
  by_cases hc : c = '\n'
  · subst hc
    have hlast : withCrlf (init ++ ['\n']) = withCrlf init ++ ['\r'] ++ ['\n'] := by
      rw [withCrlf_append, List.append_assoc]
      rfl
    refine ⟨T, T, ?_, ?_, heols, .inl rfl⟩
    · rw [hT, terminated_of_getLast]
    · rw [hcrlf, hlast, terminated_of_getLast]
  · have hlast : withCrlf (init ++ [c]) = withCrlf init ++ [c] := by
      rw [withCrlf_append]
      simp [withCrlf, hc]
    refine ⟨T, T ++ [.char '\n' (by decide)], ?_, ?_, heols, .inr ⟨_, rfl, rfl⟩⟩
    · rw [List.map_append, hT, terminated_concat hc]
      rfl
    · rw [List.flatMap_append, hcrlf, hlast, terminated_concat hc]
      rfl

theorem FileGlyphs.trimmed {file : Str} {T₀ T Q : List Glyph} (h : FileGlyphs file T₀ T)
    (hQ : Trimmed T Q) : withCrlf (Q.map Glyph.lf) = Q.flatMap Glyph.crlf := by
  have hsub : Q.Sublist T₀ := by
    rcases h.last with rfl | ⟨x, hx, rfl⟩
    · exact hQ.sublist
    · refine Scattered.sublist_dropLast hQ.sublist fun hlast => ?_
      have hblank := hQ.last x hlast
      rw [hx] at hblank
      cases hblank
  exact withCrlf_lf fun x hx => h.eols x (hsub.subset hx)

/-- A part of the file that is not sent as it stands: a comment is given without the blanks around
it. -/
inductive Mark
  | command (delimiter : Delimiter)
  | delimiter
  | comment (text : Str)
deriving DecidableEq

def Piece.mark : Piece → Option Mark
  | .command _ d => some (.command d)
  | .delimiter _ => some .delimiter
  | .comment text => some (.comment (trim text))
  | .kept _ => none

/-- The DELIMITER commands, the delimiters and the comments of a file. -/
def marks (dollarQuoting : Bool) (file : Str) : List Mark :=
  (pieces dollarQuoting true semicolon (terminated '\n' file)).filterMap Piece.mark

def Mark.withCrlf : Mark → Mark
  | command d => command d
  | delimiter => delimiter
  | comment text => comment (SqlFile.withCrlf text)

theorem marks_spelled {file : Str} {T₀ T : List Glyph} (h : FileGlyphs file T₀ T)
    {ps : List GlyphPiece} (hps : (ps.flatMap GlyphPiece.glyphs).Sublist T) :
    (ps.flatMap GlyphPiece.crlf).filterMap Piece.mark =
      ((ps.map GlyphPiece.lf).filterMap Piece.mark).map Mark.withCrlf := by
  induction ps with
  | nil => rfl
  | cons p ps ih =>
    rw [List.flatMap_cons] at hps ⊢
    have hrest := ih ((List.sublist_append_right _ _).trans hps)
    cases p with
    | command line d => exact congrArg (Mark.command d :: ·) hrest
    | delimiter text => exact congrArg (Mark.delimiter :: ·) hrest
    | comment text =>
      have hcomment := h.trimmed ((trimmed_trimGlyphs text).mono
        ((List.sublist_append_left _ _).trans hps))
      rw [← trim_lf, ← trim_crlf] at hcomment
      exact congrArg₂ (Mark.comment · :: ·) hcomment.symm hrest
    | kept text =>
      by_cases heol : text = [.eol]
      · subst heol
        exact hrest
      · rw [GlyphPiece.crlf_kept heol]
        exact hrest

/-- **Line endings.** Where every newline of a file without CR is replaced by CR LF, the statements
are the same with the newlines in them replaced, and so are the DELIMITER commands, the delimiters
and the comments. -/
theorem loadQueriesFromFile_crlf {file : Str} (h : '\r' ∉ file) (dollarQuoting : Bool) :
    loadQueriesFromFile dollarQuoting [] (withCrlf file) =
        (loadQueriesFromFile dollarQuoting [] file).map withCrlf ∧
      marks dollarQuoting (withCrlf file) = (marks dollarQuoting file).map Mark.withCrlf := by
  obtain ⟨T₀, T, hT⟩ := exists_fileGlyphs h
  obtain ⟨ps, hlf, hcrlf, hps⟩ :=
    @pieces_spelled dollarQuoting T true semicolon (by simp [semicolon, Inline])
  rw [hT.lf] at hlf
  rw [hT.crlf] at hcrlf
  constructor
  · obtain ⟨Qs, hQs, hQs', htrimmed⟩ := statementsFrom_spelled [] ps
    rw [List.map_nil, ← hlf] at hQs
    rw [List.flatMap_nil, ← hcrlf] at hQs'
    rw [splitStatements_pieces, splitStatements_pieces, List.nil_append, List.nil_append, statements,
      statements, hQs, hQs', List.map_map]
    refine List.map_congr_left fun Q hQ => (hT.trimmed ?_).symm
    have hQ := htrimmed Q hQ
    rwa [List.nil_append, hps] at hQ
  · rw [marks, marks, hlf, hcrlf]
    exact marks_spelled hT (by rw [hps])

/-- A backslash before a line end, a DELIMITER line, and a comment of two dashes. -/
theorem loadQueriesFromFile_crlf_three :
    loadQueriesFromFile false [] (withCrlf "DELIMITER $\nSELECT '\\\n;'$ --\nSELECT\n2".toList) =
      [withCrlf "SELECT '\\\n;'".toList, withCrlf "SELECT\n2".toList] := by
  refine (loadQueriesFromFile_crlf (by decide) false).1.trans ?_
  decide

end PQuery.SqlFile

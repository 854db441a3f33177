import PQuery.SqlFile.Look
import PQuery.SqlFile.Steps

/-!
# The reference tokenizer

What an SQL file means, read off its whole text: `pieces` cuts a text into DELIMITER commands,
delimiters, comments and kept pieces (literals and single characters), one rule application a
piece, and `statements` puts the kept pieces between two delimiters together. The pieces spell the
text (`pieces_text`), so nothing of the file is read twice or passed over.
-/

namespace PQuery.SqlFile

open ListScan

/-- A delimiter that may be in force. -/
structure Delimiter where
  text : Str
  ne : text ≠ []
  line : '\n' ∉ text
deriving DecidableEq

def semicolon : Delimiter := ⟨[';'], by simp, by simp⟩

/-- The delimiter that a line sets: what follows `DELIMITER ` or `delimiter ` in its trimmed form. -/
def command (line : Str) : Option Delimiter :=
  if "DELIMITER ".toList <+: trim line ∨ "delimiter ".toList <+: trim line then
    let rest := trim ((trim line).drop 10)
    if h : rest ≠ [] ∧ '\n' ∉ rest then some ⟨rest, h.1, h.2⟩ else none
  else none

theorem isSome_command (line : Str) :
    (command line).isSome ↔
      ("DELIMITER ".toList <+: trim line ∨ "delimiter ".toList <+: trim line) ∧
        trim ((trim line).drop 10) ≠ [] ∧ '\n' ∉ trim ((trim line).drop 10) := by
  simp only [command]
  generalize "DELIMITER ".toList = upper
  generalize "delimiter ".toList = lower
  split
  · rename_i hp
    rw [and_iff_right hp]
    split <;> simp_all
  · rename_i hp
    simp [hp]

/-- The text of a quoted literal after its opening quote: a backslash takes the next character
with it, and the first other quote ends the literal. -/
def throughQuote (quote : Char) : Str → Str
  | [] => []
  | '\\' :: c :: rest => '\\' :: c :: throughQuote quote rest
  | c :: rest => if c = quote then [c] else c :: throughQuote quote rest

inductive Piece
  | command (line : Str) (delimiter : Delimiter)
  | delimiter (text : Str)
  | comment (text : Str)
  | kept (text : Str)
deriving DecidableEq

def Piece.text : Piece → Str
  | .command line _ => line
  | .delimiter text => text
  | .comment text => text
  | .kept text => text

/-- The delimiter in force after a piece. -/
def Piece.inForce (d : Delimiter) : Piece → Delimiter
  | .command _ d' => d'
  | _ => d

/-- Whether a line starts after a piece. -/
def Piece.endsLine (p : Piece) : Bool := p.text.getLast? == some '\n'

/-- The rest of a literal or comment, from inside it. -/
def restOf (state : ScanState) (dollarTag text : Str) : Str :=
  match state with
  | .Normal => []
  | .SingleQuote => throughQuote '\'' text
  | .DoubleQuote => throughQuote '"' text
  | .Backtick => through ['`'] text
  | .LineComment => through ['\n'] text
  | .BlockComment => through ['*', '/'] text
  | .DollarQuote => through dollarTag text

/-- The piece that the rule applying at the start of the text cuts off. -/
def Look.piece (text : Str) (d : Delimiter) : Look → Piece
  | .delimiter => .delimiter d.text
  | .lineComment opener => .comment (opener ++ restOf .LineComment [] (text.drop opener.length))
  | .blockComment => .comment (['/', '*'] ++ restOf .BlockComment [] (text.drop 2))
  | .dollarQuote tag => .kept (tag ++ restOf .DollarQuote tag (text.drop tag.length))
  | .quote c => .kept ([c] ++ restOf ((quoteState c).getD .Normal) [] (text.drop 1))
  | .plain => .kept (text.take 1)

def firstPiece (dollarQuoting atStart : Bool) (d : Delimiter) (text : Str) : Piece :=
  match if atStart then command (firstLine text) else none with
  | some d' => .command (through ['\n'] text) d'
  | none => (look dollarQuoting d.text text).piece text d

/-- The pieces of a text, with the delimiter in force at its start. -/
def pieces (dollarQuoting atStart : Bool) (d : Delimiter) (text : Str) : List Piece :=
  match text with
  | [] => []
  | c :: rest =>
    let p := firstPiece dollarQuoting atStart d (c :: rest)
    p :: pieces dollarQuoting p.endsLine (p.inForce d) (rest.drop (p.text.length - 1))
termination_by text.length
decreasing_by simp only [List.length_drop, List.length_cons]; omega

/-- A statement is sent only if something is left of it after trimming. -/
def emit (statement : Str) : List Str :=
  if trim statement = [] then [] else [trim statement]

/-- The statements that the pieces make, the first one continuing `pending`. -/
def statementsFrom (pending : Str) : List Piece → List Str
  | [] => emit pending
  | .delimiter _ :: ps => emit pending ++ statementsFrom [] ps
  | .kept text :: ps => statementsFrom (pending ++ text) ps
  | .command _ _ :: ps => statementsFrom pending ps
  | .comment _ :: ps => statementsFrom pending ps

/-- The statements of a file. -/
def statements (dollarQuoting : Bool) (file : Str) : List Str :=
  statementsFrom [] (pieces dollarQuoting true semicolon (terminated '\n' file))

/-! ### The pieces spell the text -/

theorem throughQuote_cons {quote c : Char} (hc : c ≠ '\\') (rest : Str) :
    throughQuote quote (c :: rest) = if c = quote then [c] else c :: throughQuote quote rest := by
  rw [throughQuote]
  exact fun _ _ hcc _ => hc hcc

theorem throughQuote_ne_nil {quote : Char} {text : Str} (ht : text ≠ []) :
    throughQuote quote text ≠ [] := by
  fun_cases throughQuote quote text
  · exact absurd rfl ht
  all_goals simp

theorem throughQuote_isPrefix (quote : Char) (text : Str) : throughQuote quote text <+: text := by
  fun_induction throughQuote quote text with
  | case1 => exact List.prefix_rfl
  | case2 c rest ih => simpa [List.cons_prefix_cons] using ih
  | case3 rest h => simp
  | case4 c rest h hne ih => simpa [List.cons_prefix_cons] using ih

theorem restOf_isPrefix (state : ScanState) (dollarTag text : Str) :
    restOf state dollarTag text <+: text := by
  cases state with
  | Normal => exact List.nil_prefix
  | SingleQuote => exact throughQuote_isPrefix _ text
  | DoubleQuote => exact throughQuote_isPrefix _ text
  | Backtick => exact through_isPrefix _ text
  | LineComment => exact through_isPrefix _ text
  | BlockComment => exact through_isPrefix _ text
  | DollarQuote => exact through_isPrefix _ text

theorem append_restOf_isPrefix {opener text : Str} (h : opener <+: text) (state : ScanState)
    (dollarTag : Str) :
    opener ++ restOf state dollarTag (text.drop opener.length) <+: text := by
  obtain ⟨rest, rfl⟩ := h
  rw [List.drop_left, List.prefix_append_right_inj]
  exact restOf_isPrefix state dollarTag rest

theorem Look.piece_isPrefix {dollarQuoting : Bool} {d : Delimiter} {text : Str} (ht : text ≠ []) :
    ((look dollarQuoting d.text text).piece text d).text <+: text ∧
      ((look dollarQuoting d.text text).piece text d).text ≠ [] := by
  have hspec := look_spec dollarQuoting d.text text
  cases hl : look dollarQuoting d.text text <;> rw [hl] at hspec <;>
    simp only [Look.Holds] at hspec <;> simp only [Look.piece, Piece.text]
  case delimiter => exact ⟨hspec.2, d.ne⟩
  case lineComment opener =>
    obtain ⟨hopener, hpre⟩ := lineCommentOpener_eq_some hspec
    refine ⟨append_restOf_isPrefix hpre _ _, ?_⟩
    rcases hopener with rfl | rfl | ⟨rfl, _⟩ <;> simp
  case blockComment => exact ⟨append_restOf_isPrefix hspec _ _, by simp⟩
  case dollarQuote tag =>
    obtain ⟨name, rest, hname, rfl, rfl⟩ := dollarOpener_eq_some hspec.2
    exact ⟨append_restOf_isPrefix ⟨rest, by simp⟩ _ _, by simp⟩
  case quote c =>
    obtain ⟨c', rest, rfl⟩ := List.exists_cons_of_ne_nil ht
    obtain rfl : c' = c := hspec.1
    exact ⟨append_restOf_isPrefix (show [c'] <+: c' :: rest from ⟨rest, rfl⟩) _ _, by simp⟩
  case plain => exact ⟨List.take_prefix 1 text, by simpa using ht⟩

theorem through_ne_nil {pat text : Str} (hpat : pat ≠ []) (ht : text ≠ []) : through pat text ≠ [] := by
  obtain ⟨c, rest, rfl⟩ := List.exists_cons_of_ne_nil ht
  rw [through]
  split
  · exact hpat
  · simp

theorem firstPiece_isPrefix (dollarQuoting atStart : Bool) (d : Delimiter) {text : Str} (ht : text ≠ []) :
    (firstPiece dollarQuoting atStart d text).text <+: text ∧
      (firstPiece dollarQuoting atStart d text).text ≠ [] := by
  unfold firstPiece
  split
  · exact ⟨through_isPrefix _ _, through_ne_nil (by simp) ht⟩
  · exact Look.piece_isPrefix ht

@[simp] theorem pieces_nil (dollarQuoting atStart : Bool) (d : Delimiter) :
    pieces dollarQuoting atStart d [] = [] := by
  rw [pieces]

theorem pieces_of_ne {dollarQuoting atStart : Bool} {d : Delimiter} {text : Str} (ht : text ≠ []) :
    pieces dollarQuoting atStart d text =
      firstPiece dollarQuoting atStart d text ::
        pieces dollarQuoting (firstPiece dollarQuoting atStart d text).endsLine
          ((firstPiece dollarQuoting atStart d text).inForce d)
          (text.drop (firstPiece dollarQuoting atStart d text).text.length) := by
  have hpos := List.length_pos_iff.mpr (firstPiece_isPrefix dollarQuoting atStart d ht).2
  obtain ⟨c, rest, rfl⟩ := List.exists_cons_of_ne_nil ht
  rw [pieces]
  generalize firstPiece dollarQuoting atStart d (c :: rest) = p at hpos ⊢
  obtain ⟨n, hn⟩ := Nat.exists_eq_add_of_lt hpos
  simp [show p.text.length = n + 1 by omega]

/-- Induction over the pieces of a text: what holds behind the first piece holds of the whole. -/
theorem pieces_induction {dollarQuoting : Bool} {motive : Bool → Delimiter → Str → Prop}
    (nil : ∀ atStart d, motive atStart d [])
    (cons : ∀ atStart d text, text ≠ [] →
      motive (firstPiece dollarQuoting atStart d text).endsLine
        ((firstPiece dollarQuoting atStart d text).inForce d)
        (text.drop (firstPiece dollarQuoting atStart d text).text.length) → motive atStart d text)
    (atStart : Bool) (d : Delimiter) (text : Str) : motive atStart d text := by
  induction hn : text.length using Nat.strong_induction_on generalizing atStart d text with
  | _ n ih =>
    by_cases ht : text = []
    · rw [ht]
      exact nil atStart d
    · obtain ⟨hpre, hne⟩ := firstPiece_isPrefix dollarQuoting atStart d ht
      have hpos := List.length_pos_iff.mpr hne
      have hle := hpre.length_le
      refine cons atStart d text ht (ih _ ?_ _ _ _ rfl)
      rw [List.length_drop]
      omega

theorem pieces_text (dollarQuoting atStart : Bool) (d : Delimiter) (text : Str) :
    (pieces dollarQuoting atStart d text).flatMap Piece.text = text := by
  induction atStart, d, text using @pieces_induction dollarQuoting with
  | nil atStart d => simp
  | cons atStart d text ht ih =>
    rw [pieces_of_ne ht, List.flatMap_cons, ih]
    exact List.prefix_iff_eq_append.mp (firstPiece_isPrefix dollarQuoting atStart d ht).1

theorem pieces_ne_nil {dollarQuoting atStart : Bool} {d : Delimiter} {text : Str} {p : Piece}
    (hp : p ∈ pieces dollarQuoting atStart d text) : p.text ≠ [] := by
  induction atStart, d, text using @pieces_induction dollarQuoting with
  | nil atStart d => simp at hp
  | cons atStart d text ht ih =>
    rw [pieces_of_ne ht] at hp
    rcases List.mem_cons.mp hp with rfl | hp
    · exact (firstPiece_isPrefix dollarQuoting atStart d ht).2
    · exact ih hp

end PQuery.SqlFile

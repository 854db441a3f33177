import PQuery.Text

/-!
# The SQL file splitter

`SqlFileParser::loadQueriesFromFile`: the file is read line by line, a line that starts in the
Normal state may be a DELIMITER command, and every other line is scanned character by character
with a state, a pending statement, a delimiter and a dollar tag that survive from line to line.
The local variables of `splitStatements` are the fields of `Splitter`; the functions it calls take
the line, the position in it and these variables and return the variables and the position.
-/

namespace PQuery.SqlFile

open ListScan

inductive ScanState
  | Normal
  | SingleQuote
  | DoubleQuote
  | Backtick
  | LineComment
  | BlockComment
  | DollarQuote
deriving DecidableEq, Repr

/-- The variables of `splitStatements`, with the query list it appends to. -/
structure Splitter where
  state : ScanState
  statement : Str
  delimiter : Str
  dollarTag : Str
  queryList : List Str
deriving DecidableEq, Repr

/-- The characters that `trim` removes. -/
def isBlank (c : Char) : Bool := c == ' ' || c == '\t' || c == '\r' || c == '\n'

def trim (s : Str) : Str := strip isBlank s

def pushStatement (s : Splitter) : Splitter :=
  let trimmed := trim s.statement
  { s with
    queryList := if trimmed.isEmpty then s.queryList else s.queryList ++ [trimmed]
    statement := [] }

def startsLineComment (text : Str) (pos : Nat) : Bool :=
  if charAt text pos == '#' then true
  else if charAt text pos == '/' && pos + 1 < text.length && charAt text (pos + 1) == '/' then true
  else if charAt text pos == '-' && pos + 2 < text.length && charAt text (pos + 1) == '-' then
    isBlank (charAt text (pos + 2))
  else false

def startsBlockComment (text : Str) (pos : Nat) : Bool :=
  charAt text pos == '/' && pos + 1 < text.length && charAt text (pos + 1) == '*'

/-- The new delimiter, where the line is a DELIMITER command. -/
def isDelimiterCommand (rawLine : Str) : Option Str :=
  let line := trim rawLine
  let prefixUpper := "DELIMITER ".toList
  let prefixLower := "delimiter ".toList
  if line.length ≤ prefixUpper.length then none
  else if ¬ (prefixUpper <+: line ∨ prefixLower <+: line) then none
  else
    let value := trim (line.drop prefixUpper.length)
    if value.isEmpty then none else some value

def startsWithDelimiter (text : Str) (pos : Nat) (delimiter : Str) : Bool :=
  if delimiter.isEmpty then false
  else if pos + delimiter.length > text.length then false
  else compareAt text pos delimiter

/-- The characters of a dollar tag after its first one. -/
def isTagChar (c : Char) : Bool := isalnum c || c == '_'

/-- The length of a `$tag$` opener at `pos`, 0 where there is none. -/
def dollarQuoteOpenLength (text : Str) (pos : Nat) : Nat :=
  if charAt text pos ≠ '$' then 0
  else if pos + 1 < text.length ∧ charAt text (pos + 1) = '$' then 2
  else if pos + 1 ≥ text.length ∨
      ¬ (isalpha (charAt text (pos + 1)) ∨ charAt text (pos + 1) = '_') then 0
  else
    let i := pos + 2 + ((text.drop (pos + 2)).takeWhile isTagChar).length
    if i < text.length ∧ charAt text i = '$' then i - pos + 1 else 0

section consume
variable (dollarQuoting : Bool) (text : Str) (pos : Nat) (s : Splitter)

def consumeNormalChar : Splitter × Nat :=
  let c := charAt text pos
  if startsWithDelimiter text pos s.delimiter then
    (pushStatement s, pos + (s.delimiter.length - 1))
  else if startsLineComment text pos then
    ({ s with state := .LineComment }, if c == '/' || c == '-' then pos + 1 else pos)
  else if startsBlockComment text pos then
    ({ s with state := .BlockComment }, pos + 1)
  else if dollarQuoting && c == '$' && dollarQuoteOpenLength text pos > 0 then
    let len := dollarQuoteOpenLength text pos
    let dollarTag := (text.drop pos).take len
    ({ s with dollarTag := dollarTag, statement := s.statement ++ dollarTag, state := .DollarQuote },
      pos + (len - 1))
  else if c == '\'' then
    ({ s with state := .SingleQuote, statement := s.statement ++ [c] }, pos)
  else if c == '"' then
    ({ s with state := .DoubleQuote, statement := s.statement ++ [c] }, pos)
  else if c == '`' then
    ({ s with state := .Backtick, statement := s.statement ++ [c] }, pos)
  else ({ s with statement := s.statement ++ [c] }, pos)

def consumeQuotedChar (quote : Char) : Splitter × Nat :=
  let c := charAt text pos
  if c == '\\' && pos + 1 < text.length then
    ({ s with statement := s.statement ++ [c] ++ [charAt text (pos + 1)] }, pos + 1)
  else if c == quote then ({ s with statement := s.statement ++ [c], state := .Normal }, pos)
  else ({ s with statement := s.statement ++ [c] }, pos)

def consumeBacktickChar : Splitter × Nat :=
  let c := charAt text pos
  if c == '`' then ({ s with statement := s.statement ++ [c], state := .Normal }, pos)
  else ({ s with statement := s.statement ++ [c] }, pos)

def consumeLineCommentChar : Splitter × Nat :=
  if charAt text pos == '\n' then ({ s with state := .Normal }, pos) else (s, pos)

def consumeBlockCommentChar : Splitter × Nat :=
  if charAt text pos == '*' && pos + 1 < text.length && charAt text (pos + 1) == '/' then
    ({ s with state := .Normal }, pos + 1)
  else (s, pos)

def consumeDollarQuoteChar : Splitter × Nat :=
  if charAt text pos == '$' && compareAt text pos s.dollarTag then
    ({ s with statement := s.statement ++ s.dollarTag, dollarTag := [], state := .Normal },
      pos + (s.dollarTag.length - 1))
  else ({ s with statement := s.statement ++ [charAt text pos] }, pos)

/-- The `switch` in the scanning loop. -/
def consumeChar : Splitter × Nat :=
  match s.state with
  | .Normal => consumeNormalChar dollarQuoting text pos s
  | .SingleQuote => consumeQuotedChar text pos s '\''
  | .DoubleQuote => consumeQuotedChar text pos s '"'
  | .Backtick => consumeBacktickChar text pos s
  | .LineComment => consumeLineCommentChar text pos s
  | .BlockComment => consumeBlockCommentChar text pos s
  | .DollarQuote => consumeDollarQuoteChar text pos s

end consume

/-- The `for` loop over the positions of a line, in at most `fuel` iterations. -/
def scanLine (dollarQuoting : Bool) (line : Str) : Nat → Nat → Splitter → Splitter
  | 0, _, s => s
  | fuel + 1, pos, s =>
    if pos < line.length then
      let r := consumeChar dollarQuoting line pos s
      scanLine dollarQuoting line fuel (r.2 + 1) r.1
    else s

/-- The DELIMITER command a line is, where it starts in the Normal state. -/
def delimiterCommand (s : Splitter) (line : Str) : Option Str :=
  if s.state = .Normal then isDelimiterCommand line else none

/-- The `getline` loop; a line of `n` characters is scanned in at most `n` iterations
(`reaches_scanLine`). -/
def scanLines (dollarQuoting : Bool) : List Str → Splitter → Splitter
  | [], s => s
  | line :: rest, s =>
    match delimiterCommand s line with
    | some newDelimiter => scanLines dollarQuoting rest { s with delimiter := newDelimiter }
    | none =>
      let line := line ++ ['\n']
      scanLines dollarQuoting rest (scanLine dollarQuoting line line.length 0 s)

/-- The variables before the first line. -/
def initial (queryList : List Str) : Splitter :=
  { state := .Normal, statement := [], delimiter := ";".toList, dollarTag := [],
    queryList := queryList }

def splitStatements (dollarQuoting : Bool) (file : Str) (queryList : List Str) : List Str :=
  (pushStatement (scanLines dollarQuoting (lines '\n' file) (initial queryList))).queryList

/-- `SqlFileParser(dollarQuoting).loadQueriesFromFile` on a readable file of this content. -/
def loadQueriesFromFile (dollarQuoting : Bool) (queryList : List Str) (file : Str) : List Str :=
  splitStatements dollarQuoting file queryList

example : loadQueriesFromFile true [] "SELECT $$one; two$$;\nSELECT 2;\n".toList =
    ["SELECT $$one; two$$".toList, "SELECT 2".toList] := by decide

end PQuery.SqlFile

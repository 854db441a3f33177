import PQuery.Library.Stepping
import PQuery.SqlFile.Refinement

/-!
# The splitter stays inside its strings

`Checked` holds the functions of the splitter once more, with every access to a string, every
`compare` and `substr` and every unsigned subtraction checked: where the source would leave a string,
throw or wrap around, they fail. At every moment of the scan they succeed with the values of the
unchecked functions (`Checked.consumeChar_eq`), a step inside a line ends inside it, and no line ends
in the LineComment state.
-/

namespace PQuery.SqlFile

open ListScan Stepping

/-- What a checked operation reports. -/
inductive Fault
  | access        -- `text[pos]` with `pos >= text.size()`
  | out_of_range  -- `std::out_of_range`
  | underflow     -- an unsigned difference below zero
deriving DecidableEq, Repr

namespace Checked

/-- `text[pos]`; the source never reads the terminating NUL. -/
def charAt (text : Str) (pos : Nat) : Except Fault Char :=
  if pos < text.length then .ok (PQuery.charAt text pos) else .error .access

/-- `text.compare(pos, pattern.size(), pattern) == 0` -/
def compareAt (text : Str) (pos : Nat) (pattern : Str) : Except Fault Bool :=
  if pos ≤ text.length then .ok (PQuery.compareAt text pos pattern) else .error .out_of_range

/-- `text.substr(pos, len)` -/
def substr (text : Str) (pos len : Nat) : Except Fault Str :=
  if pos ≤ text.length then .ok ((text.drop pos).take len) else .error .out_of_range

/-- `m - n` on `std::size_t` -/
def sub (m n : Nat) : Except Fault Nat := if n ≤ m then .ok (m - n) else .error .underflow

/-- `a && b`, where `b` is only evaluated if `a` is true. -/
def and (a : Bool) (b : Except Fault Bool) : Except Fault Bool := if a then b else .ok false

def charIs (text : Str) (pos : Nat) (c : Char) : Except Fault Bool := do
  return (← charAt text pos) == c

def startsLineComment (text : Str) (pos : Nat) : Except Fault Bool := do
  if ← charIs text pos '#' then return true
  if ← and (← charIs text pos '/') (and (pos + 1 < text.length) (charIs text (pos + 1) '/')) then
    return true
  if ← and (← charIs text pos '-') (and (pos + 2 < text.length) (charIs text (pos + 1) '-')) then
    return isBlank (← charAt text (pos + 2))
  return false

def startsBlockComment (text : Str) (pos : Nat) : Except Fault Bool := do
  and (← charIs text pos '/') (and (pos + 1 < text.length) (charIs text (pos + 1) '*'))

def isDelimiterCommand (rawLine : Str) : Except Fault (Option Str) := do
  let line := trim rawLine
  let prefixUpper := "DELIMITER ".toList
  let prefixLower := "delimiter ".toList
  if line.length ≤ prefixUpper.length then return none
  if ¬ (prefixUpper <+: line ∨ prefixLower <+: line) then return none
  let value := trim (← substr line prefixUpper.length line.length)
  if value.isEmpty then return none
  return some value

def startsWithDelimiter (text : Str) (pos : Nat) (delimiter : Str) : Except Fault Bool := do
  if delimiter.isEmpty then return false
  if pos + delimiter.length > text.length then return false
  compareAt text pos delimiter

/-- The `while` loop over the characters of a tag. -/
def skipTagChars (text : Str) (i : Nat) : Except Fault Nat := do
  if i < text.length then
    if isTagChar (← charAt text i) then skipTagChars text (i + 1) else return i
  else return i
termination_by text.length - i

def dollarQuoteOpenLength (text : Str) (pos : Nat) : Except Fault Nat := do
  if (← charAt text pos) ≠ '$' then return 0
  let i := pos + 1
  if ← and (i < text.length) (charIs text i '$') then return 2
  if i ≥ text.length then return 0
  let c ← charAt text i
  if ¬ (isalpha c ∨ c = '_') then return 0
  let i ← skipTagChars text (i + 1)
  if ← and (i < text.length) (charIs text i '$') then return (← sub i pos) + 1
  return 0

section consume
variable (dollarQuoting : Bool) (text : Str) (pos : Nat) (s : Splitter)

def consumeNormalChar : Except Fault (Splitter × Nat) := do
  let c ← charAt text pos
  if ← startsWithDelimiter text pos s.delimiter then
    return (pushStatement s, pos + (← sub s.delimiter.length 1))
  if ← startsLineComment text pos then
    return ({ s with state := .LineComment }, if c == '/' || c == '-' then pos + 1 else pos)
  if ← startsBlockComment text pos then
    return ({ s with state := .BlockComment }, pos + 1)
  if dollarQuoting && c == '$' then
    let len ← dollarQuoteOpenLength text pos
    if len > 0 then
      let dollarTag ← substr text pos len
      return ({ s with
        dollarTag := dollarTag, statement := s.statement ++ dollarTag, state := .DollarQuote },
        pos + (← sub len 1))
  if c == '\'' then
    return ({ s with state := .SingleQuote, statement := s.statement ++ [c] }, pos)
  if c == '"' then
    return ({ s with state := .DoubleQuote, statement := s.statement ++ [c] }, pos)
  if c == '`' then
    return ({ s with state := .Backtick, statement := s.statement ++ [c] }, pos)
  return ({ s with statement := s.statement ++ [c] }, pos)

def consumeQuotedChar (quote : Char) : Except Fault (Splitter × Nat) := do
  let c ← charAt text pos
  if c == '\\' && pos + 1 < text.length then
    return ({ s with statement := s.statement ++ [c] ++ [← charAt text (pos + 1)] }, pos + 1)
  if c == quote then return ({ s with statement := s.statement ++ [c], state := .Normal }, pos)
  return ({ s with statement := s.statement ++ [c] }, pos)

def consumeBacktickChar : Except Fault (Splitter × Nat) := do
  let c ← charAt text pos
  if c == '`' then return ({ s with statement := s.statement ++ [c], state := .Normal }, pos)
  return ({ s with statement := s.statement ++ [c] }, pos)

def consumeLineCommentChar : Except Fault (Splitter × Nat) := do
  if ← charIs text pos '\n' then return ({ s with state := .Normal }, pos)
  return (s, pos)

def consumeBlockCommentChar : Except Fault (Splitter × Nat) := do
  if ← and (← charIs text pos '*') (and (pos + 1 < text.length) (charIs text (pos + 1) '/')) then
    return ({ s with state := .Normal }, pos + 1)
  return (s, pos)

def consumeDollarQuoteChar : Except Fault (Splitter × Nat) := do
  if ← and (← charIs text pos '$') (compareAt text pos s.dollarTag) then
    return ({ s with statement := s.statement ++ s.dollarTag, dollarTag := [], state := .Normal },
      pos + (← sub s.dollarTag.length 1))
  return ({ s with statement := s.statement ++ [← charAt text pos] }, pos)

def consumeChar : Except Fault (Splitter × Nat) :=
  match s.state with
  | .Normal => consumeNormalChar dollarQuoting text pos s
  | .SingleQuote => consumeQuotedChar text pos s '\''
  | .DoubleQuote => consumeQuotedChar text pos s '"'
  | .Backtick => consumeBacktickChar text pos s
  | .LineComment => consumeLineCommentChar text pos s
  | .BlockComment => consumeBlockCommentChar text pos s
  | .DollarQuote => consumeDollarQuoteChar text pos s

end consume

/-! ### The checks succeed -/

section succeed
variable {text : Str} {pos : Nat}

theorem ok_bind {α β : Type} (a : α) (f : α → Except Fault β) : (Except.ok a >>= f) = f a := rfl

theorem pure_eq_ok {α : Type} (a : α) : (pure a : Except Fault α) = .ok a := rfl

theorem charAt_eq (h : pos < text.length) : charAt text pos = .ok (PQuery.charAt text pos) :=
  if_pos h

theorem charIs_eq (h : pos < text.length) (c : Char) :
    charIs text pos c = .ok (PQuery.charAt text pos == c) := by
  rw [charIs, charAt_eq h]
  rfl

theorem and_eq {a b : Bool} {x : Except Fault Bool} (h : a = true → x = .ok b) :
    and a x = .ok (a && b) := by
  cases a with
  | false => rfl
  | true => exact h rfl

theorem sub_eq {m n : Nat} (h : n ≤ m) : sub m n = .ok (m - n) := if_pos h

theorem and_charIs_eq (text : Str) (pos : Nat) (c : Char) :
    and (pos < text.length) (charIs text pos c) =
      .ok (decide (pos < text.length) && PQuery.charAt text pos == c) :=
  and_eq fun h => charIs_eq (of_decide_eq_true h) c

theorem startsLineComment_eq (h : pos < text.length) :
    startsLineComment text pos = .ok (SqlFile.startsLineComment text pos) := by
  have hdash : and (pos + 2 < text.length) (charIs text (pos + 1) '-') =
      .ok (decide (pos + 2 < text.length) && PQuery.charAt text (pos + 1) == '-') :=
    and_eq fun h2 => charIs_eq (by have := of_decide_eq_true h2; omega) '-'
  simp only [startsLineComment, charIs_eq h, and_charIs_eq, hdash, and_eq fun _ => rfl, ok_bind,
    pure_eq_ok, SqlFile.startsLineComment, ← Bool.and_assoc]
  split
  · rfl
  · split
    · rfl
    · split
      · rename_i h2
        rw [charAt_eq (by simp only [Bool.and_eq_true, decide_eq_true_eq] at h2; omega)]
        rfl
      · rfl

theorem startsBlockComment_eq (h : pos < text.length) :
    startsBlockComment text pos = .ok (SqlFile.startsBlockComment text pos) := by
  simp only [startsBlockComment, charIs_eq h, and_charIs_eq, and_eq fun _ => rfl, ok_bind,
    SqlFile.startsBlockComment, Bool.and_assoc]

theorem isDelimiterCommand_eq (line : Str) :
    isDelimiterCommand line = .ok (SqlFile.isDelimiterCommand line) := by
  simp only [isDelimiterCommand, SqlFile.isDelimiterCommand]
  split
  · rfl
  · split
    · rfl
    · rename_i hlen _
      have hsubstr : substr (trim line) "DELIMITER ".toList.length (trim line).length =
          .ok ((trim line).drop "DELIMITER ".toList.length) := by
        rw [substr, if_pos (by omega), List.take_of_length_le (by simp)]
      rw [hsubstr, ok_bind]
      split <;> rfl

theorem startsWithDelimiter_eq (text : Str) (pos : Nat) (delimiter : Str) :
    startsWithDelimiter text pos delimiter = .ok (SqlFile.startsWithDelimiter text pos delimiter) := by
  simp only [startsWithDelimiter, SqlFile.startsWithDelimiter]
  split
  · rfl
  · split
    · rfl
    · exact if_pos (by omega)

theorem skipTagChars_eq (text : Str) (i : Nat) :
    skipTagChars text i = .ok (i + ((text.drop i).takeWhile isTagChar).length) := by
  fun_induction skipTagChars text i with
  | case1 i hi ih =>
    have hdrop : text.drop i = PQuery.charAt text i :: text.drop (i + 1) := by
      rw [List.drop_eq_getElem_cons hi, PQuery.charAt, List.getD_eq_getElem?_getD,
        List.getElem?_eq_getElem hi, Option.getD_some]
    rw [charAt_eq hi, ok_bind, hdrop, List.takeWhile_cons]
    split
    · rw [ih, List.length_cons]
      exact congrArg _ (by omega)
    · rfl
  | case2 i hi =>
    rw [List.drop_of_length_le (by omega)]
    rfl

theorem dollarQuoteOpenLength_eq (h : pos < text.length) :
    dollarQuoteOpenLength text pos = .ok (SqlFile.dollarQuoteOpenLength text pos) := by
  simp only [dollarQuoteOpenLength, SqlFile.dollarQuoteOpenLength, charAt_eq h, and_charIs_eq,
    skipTagChars_eq, ok_bind, pure_eq_ok, Bool.and_eq_true, decide_eq_true_eq, beq_iff_eq]
  split
  · rfl
  · split
    · rfl
    · by_cases hlen : pos + 1 ≥ text.length
      · rw [if_pos hlen, if_pos (Or.inl hlen)]
      · rw [if_neg hlen, charAt_eq (by omega), ok_bind]
        by_cases hname : isalpha (PQuery.charAt text (pos + 1)) ∨ PQuery.charAt text (pos + 1) = '_'
        · rw [if_neg (not_not.mpr hname), if_neg (not_or.mpr ⟨hlen, not_not.mpr hname⟩)]
          split
          · rw [sub_eq (by omega)]
            rfl
          · rfl
        · rw [if_pos hname, if_pos (Or.inr hname)]

theorem consumeNormalChar_eq (dollarQuoting : Bool) {s : Splitter} (hd : s.delimiter ≠ [])
    (h : pos < text.length) : consumeNormalChar dollarQuoting text pos s =
      .ok (SqlFile.consumeNormalChar dollarQuoting text pos s) := by
  simp only [consumeNormalChar, SqlFile.consumeNormalChar, charAt_eq h, startsWithDelimiter_eq,
    startsLineComment_eq h, startsBlockComment_eq h, dollarQuoteOpenLength_eq h, ok_bind, pure_eq_ok,
    sub_eq (List.length_pos_iff.mpr hd), apply_ite Except.ok]
  split
  · rfl
  · split
    · rfl
    · split
      · rfl
      · by_cases hlen : SqlFile.dollarQuoteOpenLength text pos > 0
        · have hsubstr : substr text pos (SqlFile.dollarQuoteOpenLength text pos) =
              .ok ((text.drop pos).take (SqlFile.dollarQuoteOpenLength text pos)) :=
            if_pos (by omega)
          rw [hsubstr, sub_eq hlen, decide_eq_true hlen, Bool.and_true, if_pos hlen]
          rfl
        · rw [decide_eq_false hlen, Bool.and_false, if_neg hlen, ite_self]
          rfl

theorem consumeQuotedChar_eq (s : Splitter) (quote : Char) (h : pos < text.length) :
    consumeQuotedChar text pos s quote = .ok (SqlFile.consumeQuotedChar text pos s quote) := by
  simp only [consumeQuotedChar, SqlFile.consumeQuotedChar, charAt_eq h, ok_bind, pure_eq_ok]
  split
  · rename_i h1
    simp only [Bool.and_eq_true, decide_eq_true_eq] at h1
    rw [charAt_eq h1.2]
    rfl
  · split <;> rfl

theorem consumeBacktickChar_eq (s : Splitter) (h : pos < text.length) :
    consumeBacktickChar text pos s = .ok (SqlFile.consumeBacktickChar text pos s) := by
  simp only [consumeBacktickChar, SqlFile.consumeBacktickChar, charAt_eq h, ok_bind, pure_eq_ok]
  split <;> rfl

theorem consumeLineCommentChar_eq (s : Splitter) (h : pos < text.length) :
    consumeLineCommentChar text pos s = .ok (SqlFile.consumeLineCommentChar text pos s) := by
  simp only [consumeLineCommentChar, SqlFile.consumeLineCommentChar, charIs_eq h, ok_bind, pure_eq_ok]
  split <;> rfl

theorem consumeBlockCommentChar_eq (s : Splitter) (h : pos < text.length) :
    consumeBlockCommentChar text pos s = .ok (SqlFile.consumeBlockCommentChar text pos s) := by
  simp only [consumeBlockCommentChar, SqlFile.consumeBlockCommentChar, charIs_eq h, and_charIs_eq,
    and_eq fun _ => rfl, ok_bind, pure_eq_ok, Bool.and_assoc]
  split <;> rfl

theorem consumeDollarQuoteChar_eq {s : Splitter} (htag : s.dollarTag ≠ []) (h : pos < text.length) :
    consumeDollarQuoteChar text pos s = .ok (SqlFile.consumeDollarQuoteChar text pos s) := by
  have hcompare : compareAt text pos s.dollarTag = .ok (PQuery.compareAt text pos s.dollarTag) :=
    if_pos (by omega)
  simp only [consumeDollarQuoteChar, SqlFile.consumeDollarQuoteChar, charIs_eq h, charAt_eq h,
    hcompare, and_eq fun _ => rfl, sub_eq (List.length_pos_iff.mpr htag), ok_bind, pure_eq_ok]
  split <;> rfl

/-- No step at a position of its line fails, with a delimiter in force and a tag in a dollar quote. -/
theorem consumeChar_eq (dollarQuoting : Bool) {s : Splitter} (hs : s.Sound)
    (h : pos < text.length) : consumeChar dollarQuoting text pos s =
      .ok (SqlFile.consumeChar dollarQuoting text pos s) := by
  rcases hstate : s.state <;> simp only [consumeChar, SqlFile.consumeChar, hstate]
  case Normal => exact consumeNormalChar_eq dollarQuoting hs.delimiter_ne h
  case SingleQuote => exact consumeQuotedChar_eq s '\'' h
  case DoubleQuote => exact consumeQuotedChar_eq s '"' h
  case Backtick => exact consumeBacktickChar_eq s h
  case LineComment => exact consumeLineCommentChar_eq s h
  case BlockComment => exact consumeBlockCommentChar_eq s h
  case DollarQuote => exact consumeDollarQuoteChar_eq (hs.tag_iff.mp hstate) h

end succeed

end Checked

/-! ### A step ends inside its line -/

theorem consumeChar_bounds (dollarQuoting : Bool) (s : Splitter) {line : Str} {pos : Nat}
    (h : pos < line.length) :
    pos ≤ (consumeChar dollarQuoting line pos s).2 ∧
      (consumeChar dollarQuoting line pos s).2 < line.length := by
  have hne : line.drop pos ≠ [] := by
    rw [ne_eq, List.drop_eq_nil_iff]
    omega
  have hlt := consumeChar_lt dollarQuoting s hne
  rw [List.length_drop] at hlt
  rw [consumeChar_drop]
  omega

theorem consumeChar_lineComment {dollarQuoting : Bool} {s : Splitter} {u : Str} (hu : '\n' ∉ u)
    (h : (consumeChar dollarQuoting (u ++ ['\n']) 0 s).1.state = .LineComment) :
    (consumeChar dollarQuoting (u ++ ['\n']) 0 s).2 < u.length := by
  rcases hstate : s.state <;> simp only [consumeChar, hstate] at h ⊢
  case Normal =>
    rw [consumeNormalChar_eq] at h ⊢
    have hspec := look_spec dollarQuoting s.delimiter (u ++ ['\n'])
    cases hl : look dollarQuoting s.delimiter (u ++ ['\n']) <;> rw [hl] at h hspec <;>
      simp only [Look.step] at h ⊢
    case lineComment opener =>
      obtain ⟨hopener, hpre⟩ := lineCommentOpener_eq_some hspec
      have hnl : '\n' ∉ opener ∧ opener ≠ [] := by
        rcases hopener with rfl | rfl | ⟨rfl, -⟩ <;> decide
      rw [prefix_append_cons hnl.1] at hpre
      have hpos := List.length_pos_iff.mpr hnl.2
      have hle := hpre.length_le
      omega
    case quote c =>
      exfalso
      revert h
      simp only [quoteState]
      split_ifs <;> simp
    all_goals simp [pushStatement, hstate] at h
  case LineComment =>
    simp only [consumeLineCommentChar] at h ⊢
    split at h
    · simp at h
    · rename_i hc
      rcases u with _ | ⟨c, u⟩
      · simp [charAt] at hc
      · rw [if_neg hc]
        simp
  all_goals
    exfalso
    revert h
    simp only [consumeQuotedChar, consumeBacktickChar, consumeBlockCommentChar,
      consumeDollarQuoteChar]
    split_ifs <;> simp [hstate]

/-! ### Every moment -/

/-- The LineComment state with nothing of its line left to consume. -/
def Moment.Survives : Moment → Prop
  | .reading _ s => s.state = .LineComment
  | .scanning line pos _ s => s.state = .LineComment ∧ line.length ≤ pos

section reaches
variable {dollarQuoting : Bool} {queryList : List Str} {file : Str}

theorem Reaches.sound {m : Moment} (h : Reaches dollarQuoting queryList file m) :
    m.variables.Sound := by
  cases h.stands with
  | reading _ hcut => exact hcut.sound
  | scanning _ _ _ hcut => exact hcut.sound

theorem Moment.Stands.next_survives {m m' : Moment} (h : m.Stands dollarQuoting queryList file)
    (hm : ¬ m.Survives) (hnext : m.next dollarQuoting = some m') : ¬ m'.Survives := by
  cases h with
  | @reading rest s ps part d hrest hcut =>
    cases rest with
    | nil => simp [Moment.next] at hnext
    | cons l rest =>
      rw [Moment.next] at hnext
      split at hnext
      · obtain rfl := Option.some.inj hnext
        exact hm
      · obtain rfl := Option.some.inj hnext
        exact fun h => hm h.1
  | @scanning l pos rest s ps part d hrest hl hpos hcut =>
    rw [Moment.next] at hnext
    split at hnext
    · rename_i hlt
      obtain rfl := Option.some.inj hnext
      rintro ⟨hstate, hlen⟩
      rw [List.length_append, List.length_singleton] at hlt
      have hdrop : (l ++ ['\n']).drop pos = l.drop pos ++ ['\n'] :=
        List.drop_append_of_le_length (by omega)
      rw [consumeChar_drop, hdrop] at hstate hlen
      have hend := consumeChar_lineComment (fun hmem => hl (List.mem_of_mem_drop hmem)) hstate
      simp only [List.length_append, List.length_singleton, List.length_drop] at hlen hend
      omega
    · rename_i hge
      obtain rfl := Option.some.inj hnext
      exact fun hstate => hm ⟨hstate, not_lt.mp hge⟩

theorem Reaches.not_survives {m : Moment} (h : Reaches dollarQuoting queryList file m) :
    ¬ m.Survives := by
  induction h with
  | refl => simp [Moment.Survives, initial]
  | tail h hnext ih => exact (Reaches.stands h).next_survives ih hnext

/-- A line is scanned in no more steps than it has characters left. -/
theorem after_scanning (dollarQuoting : Bool) {line : Str} {rest : List Str} {pos : Nat} {s : Splitter}
    (hpos : pos ≤ line.length) : ∃ n ≤ line.length - pos, ∃ s',
      afterSteps (Moment.next dollarQuoting) n (.scanning line pos rest s) =
        some (.scanning line line.length rest s') := by
  induction hk : line.length - pos using Nat.strong_induction_on generalizing pos s with
  | _ k ih =>
    rcases hpos.lt_or_eq with hlt | rfl
    · obtain ⟨hle, hend⟩ := consumeChar_bounds dollarQuoting s hlt
      obtain ⟨n, hn, s', hafter⟩ := ih _ (by omega) hend rfl
      have hstep : (Moment.scanning line pos rest s).next dollarQuoting =
          some (.scanning line ((consumeChar dollarQuoting line pos s).2 + 1) rest
            (consumeChar dollarQuoting line pos s).1) := if_pos hlt
      refine ⟨n + 1, by omega, s', ?_⟩
      rw [← hafter]
      exact afterSteps_of_step hstep n
    · exact ⟨0, by omega, s, rfl⟩

/-- At a moment no access, `compare`, `substr` or subtraction fails, and the line needs no more steps
than it has characters left. -/
def Moment.Safe (dollarQuoting : Bool) : Moment → Prop
  | .reading rest s =>
    s.state ≠ .LineComment ∧
      ∀ line ∈ rest.head?, Checked.isDelimiterCommand line = .ok (isDelimiterCommand line)
  | .scanning line pos rest s =>
    pos ≤ line.length ∧
    (pos < line.length → ∃ s' pos', Checked.consumeChar dollarQuoting line pos s = .ok (s', pos') ∧
      consumeChar dollarQuoting line pos s = (s', pos') ∧ pos ≤ pos' ∧ pos' < line.length) ∧
    ∃ n ≤ line.length - pos, ∃ s', afterSteps (Moment.next dollarQuoting) n (.scanning line pos rest s) =
      some (.scanning line line.length rest s')

/-- **The scan is safe and makes progress.** At every moment of the scan of any file the delimiter
in force is not empty and holds no newline, the dollar tag is set exactly inside a dollar quote, no
line is left in the LineComment state, and every checked step succeeds at a position inside the line. -/
theorem splitStatements_safe (dollarQuoting : Bool) (queryList : List Str) (file : Str) (m : Moment)
    (h : Reaches dollarQuoting queryList file m) :
    m.variables.delimiter ≠ [] ∧ '\n' ∉ m.variables.delimiter ∧
      (m.variables.dollarTag ≠ [] ↔ m.variables.state = .DollarQuote) ∧ m.Safe dollarQuoting := by
  have hs := h.sound
  refine ⟨hs.delimiter_ne, hs.delimiter_line, hs.tag_iff.symm, ?_⟩
  cases hm : h.stands with
  | reading _ _ => exact ⟨h.not_survives, fun line _ => Checked.isDelimiterCommand_eq line⟩
  | @scanning l pos rest s ps part d _ _ hpos _ =>
    have hpos' : pos ≤ (l ++ ['\n']).length := by simpa using hpos
    refine ⟨hpos', fun hlt => ?_, after_scanning dollarQuoting hpos'⟩
    exact ⟨_, _, Checked.consumeChar_eq dollarQuoting hs hlt, rfl,
      consumeChar_bounds dollarQuoting s hlt⟩

theorem splitStatements_safe_in_dollar_quote :
    (Moment.scanning "$$;\n".toList 2 [] { initial [] with
      state := .DollarQuote, statement := "$$".toList, dollarTag := "$$".toList }).Safe true := by
  have hline : Reaches true [] "$$;\n".toList (.scanning "$$;\n".toList 0 [] (initial [])) :=
    Relation.ReflTransGen.single rfl
  exact (splitStatements_safe true [] "$$;\n".toList _ (hline.next rfl)).2.2.2

end reaches

end PQuery.SqlFile

import PQuery.SqlFile.Scanner

/-!
# What stands at the start of a text

`look` says, on a whole text and by its prefixes alone, which of the splitter's rules applies at a
position reached in the Normal state: the delimiter in force, a comment opener, a dollar tag, a
quote, or a plain character. `consumeNormalChar_eq` is the specification of the splitter's own
function in these terms; nothing after it unfolds that function again.
-/

namespace PQuery.SqlFile

open ListScan

theorem startsWithDelimiter_iff {text : Str} {pos : Nat} {delimiter : Str} :
    startsWithDelimiter text pos delimiter = true ↔
      delimiter ≠ [] ∧ delimiter <+: text.drop pos := by
  simp only [startsWithDelimiter, List.isEmpty_iff]
  split_ifs with h0 hlen
  · simp [h0]
  · have hd := List.length_pos_iff.mpr h0
    simp only [ne_eq, h0, not_false_eq_true, true_and, false_iff]
    intro h
    have := h.length_le
    simp only [List.length_drop] at this
    omega
  · simp [compareAt_iff, h0]

/-! ### Dollar tags -/

/-- The names a dollar tag may have between its two dollar signs. -/
def TagName (name : Str) : Prop :=
  (∀ c ∈ name, isTagChar c) ∧ ∀ c ∈ name.head?, isalpha c ∨ c = '_'

instance (name : Str) : Decidable (TagName name) :=
  inferInstanceAs (Decidable (_ ∧ ∀ c ∈ name.head?, _))

theorem TagName.not_mem {name : Str} (h : TagName name) {c : Char} (hc : isTagChar c = false) :
    c ∉ name := fun hmem => by simp [h.1 c hmem] at hc

theorem dollarQuoteOpenLength_opener {name : Str} (h : TagName name) (rest : Str) :
    dollarQuoteOpenLength ('$' :: (name ++ '$' :: rest)) 0 = name.length + 2 := by
  cases name with
  | nil => simp [dollarQuoteOpenLength, charAt]
  | cons c name =>
    have hc : isalpha c ∨ c = '_' := h.2 c (by simp)
    have hdollar : c ≠ '$' := fun hc' => absurd (h.1 c (by simp)) (by rw [hc']; decide)
    have htake : (name ++ '$' :: rest).takeWhile isTagChar = name := by
      rw [takeWhile_append_cons (by decide)]
      exact List.takeWhile_eq_self_iff.mpr fun c hc => h.1 c (by simp [hc])
    simp only [dollarQuoteOpenLength, charAt, List.cons_append, List.getD_cons_zero, ne_eq,
      not_true_eq_false, if_false, Nat.zero_add, List.getD_cons_succ, hdollar, and_false, hc,
      List.drop_succ_cons, List.drop_zero, htake, ge_iff_le]
    simp [Nat.add_comm 2, show ¬ name.length + (rest.length + 1) + 1 + 1 ≤ 1 by omega]

theorem dollarQuoteOpenLength_pos {text : Str} (h : 0 < dollarQuoteOpenLength text 0) :
    ∃ name rest, text = '$' :: (name ++ '$' :: rest) ∧ TagName name := by
  rcases text with _ | ⟨c, _ | ⟨d, text⟩⟩
  · simp [dollarQuoteOpenLength, charAt] at h
  · simp [dollarQuoteOpenLength, charAt] at h
  · by_cases hc : c = '$'
    · by_cases hd : d = '$'
      · exact ⟨[], text, by simp [hc, hd], by simp [TagName]⟩
      · by_cases hname : isalpha d ∨ d = '_'
        · have hsplit := List.takeWhile_append_dropWhile (p := isTagChar) (l := text)
          have hall : ∀ e ∈ text.takeWhile isTagChar, isTagChar e :=
            fun e he => List.mem_takeWhile_imp he
          simp [dollarQuoteOpenLength, charAt, hc, hd, hname, Nat.add_comm 2] at h
          have hi := (ite_ne_right_iff.mp h.ne').1
          obtain ⟨hlen, hi⟩ := hi
          generalize text.takeWhile isTagChar = name at *
          generalize text.dropWhile isTagChar = rest at *
          subst hsplit
          rcases rest with _ | ⟨e, rest⟩
          · simp at hlen
          · have he : e = '$' := by simpa using hi
            refine ⟨d :: name, rest, by simp [hc, he], ?_, by simpa using hname⟩
            rintro x (_ | ⟨_, hx⟩)
            · rcases hname with hname | hname <;> simp [isTagChar, isalnum, hname]
            · exact hall x hx
        · simp [dollarQuoteOpenLength, charAt, hd, hname] at h
    · simp [dollarQuoteOpenLength, charAt, hc] at h

/-- The dollar tag that opens the text. -/
def dollarOpener : Str → Option Str
  | '$' :: rest =>
    let name := rest.takeWhile isTagChar
    if TagName name ∧ (rest.dropWhile isTagChar).head? = some '$' then some ('$' :: (name ++ ['$']))
    else none
  | _ => none

theorem dollarOpener_tag {name : Str} (h : TagName name) (rest : Str) :
    dollarOpener ('$' :: (name ++ '$' :: rest)) = some ('$' :: (name ++ ['$'])) := by
  have htake : (name ++ '$' :: rest).takeWhile isTagChar = name := by
    rw [takeWhile_append_cons (by decide)]
    exact List.takeWhile_eq_self_iff.mpr h.1
  have hdrop : (name ++ '$' :: rest).dropWhile isTagChar = '$' :: rest := by
    rw [List.dropWhile_append_of_pos h.1, List.dropWhile_cons_of_neg (by decide)]
  simp [dollarOpener, htake, hdrop, h]

theorem dollarOpener_eq_some {text tag : Str} (h : dollarOpener text = some tag) :
    ∃ name rest, TagName name ∧ tag = '$' :: (name ++ ['$']) ∧
      text = '$' :: (name ++ '$' :: rest) := by
  unfold dollarOpener at h
  split at h
  · rename_i rest
    obtain ⟨⟨hname, hhead⟩, htag⟩ := Option.ite_none_right_eq_some.mp h
    obtain ⟨rest', hrest⟩ := List.head?_eq_some_iff.mp hhead
    refine ⟨_, rest', hname, (Option.some.inj htag).symm, ?_⟩
    rw [← hrest, List.takeWhile_append_dropWhile]
  · simp at h

theorem dollarQuoteOpenLength_eq (text : Str) :
    dollarQuoteOpenLength text 0 = ((dollarOpener text).map List.length).getD 0 := by
  rcases Nat.eq_zero_or_pos (dollarQuoteOpenLength text 0) with h | h
  · cases ho : dollarOpener text with
    | none => simpa using h
    | some tag =>
      obtain ⟨name, rest, hname, rfl, rfl⟩ := dollarOpener_eq_some ho
      rw [dollarQuoteOpenLength_opener hname] at h
      omega
  · obtain ⟨name, rest, rfl, hname⟩ := dollarQuoteOpenLength_pos h
    rw [dollarOpener_tag hname, dollarQuoteOpenLength_opener hname]
    simp

/-! ### Comment openers -/

/-- The line comment opener that the text starts with. -/
def lineCommentOpener : Str → Option Str
  | '#' :: _ => some ['#']
  | '/' :: '/' :: _ => some ['/', '/']
  | '-' :: '-' :: c :: _ => if isBlank c then some ['-', '-'] else none
  | _ => none

theorem startsLineComment_eq (text : Str) :
    startsLineComment text 0 = (lineCommentOpener text).isSome := by
  unfold lineCommentOpener
  split
  · simp [startsLineComment, charAt]
  · simp [startsLineComment, charAt]
  · rename_i c rest
    cases hc : isBlank c <;> simp [startsLineComment, charAt, hc]
  · rename_i h1 h2 h3
    rcases text with _ | ⟨a, _ | ⟨b, _ | ⟨c, text⟩⟩⟩
    · simp [startsLineComment, charAt]
    · simp only [startsLineComment, charAt]
      simp_all
    · have hslash : a = '/' → b ≠ '/' := fun ha hb => h2 [] (by rw [ha, hb])
      have hhash : a ≠ '#' := fun ha => h1 _ (by rw [ha])
      simpa [startsLineComment, charAt, hhash] using hslash
    · have hslash : a = '/' → b ≠ '/' := fun ha hb => h2 _ (by rw [ha, hb])
      have hhash : a ≠ '#' := fun ha => h1 _ (by rw [ha])
      have hdash : a = '-' → b ≠ '-' := fun ha hb => h3 c text (by rw [ha, hb])
      have hdash' : ¬ (a = '-' ∧ b = '-') := fun h => hdash h.1 h.2
      simpa [startsLineComment, charAt, hhash, hdash'] using hslash

theorem startsBlockComment_iff {text : Str} :
    startsBlockComment text 0 = true ↔ ['/', '*'] <+: text := by
  rcases text with _ | ⟨a, _ | ⟨b, text⟩⟩
  · simp [startsBlockComment, charAt]
  · simp [startsBlockComment, charAt, List.cons_prefix_cons]
  · rw [List.cons_prefix_cons, List.cons_prefix_cons]
    simp [startsBlockComment, charAt, eq_comm (a := '/'), eq_comm (a := '*')]

theorem lineCommentOpener_eq_some {text opener : Str} (h : lineCommentOpener text = some opener) :
    (opener = ['#'] ∨ opener = ['/', '/'] ∨
      opener = ['-', '-'] ∧ ∃ c rest, text = '-' :: '-' :: c :: rest ∧ isBlank c) ∧
    opener <+: text := by
  unfold lineCommentOpener at h
  split at h
  · cases h
    exact ⟨Or.inl rfl, by simp⟩
  · cases h
    exact ⟨Or.inr (Or.inl rfl), by simp⟩
  · rename_i c rest
    obtain ⟨hc, h⟩ := Option.ite_none_right_eq_some.mp h
    cases h
    exact ⟨Or.inr (Or.inr ⟨rfl, c, rest, rfl, hc⟩), by simp⟩
  · simp at h

/-! ### The rule that applies -/

inductive Look
  | delimiter
  | lineComment (opener : Str)
  | blockComment
  | dollarQuote (tag : Str)
  | quote (c : Char)
  | plain
deriving DecidableEq

/-- The state a quote character opens. -/
def quoteState (c : Char) : Option ScanState :=
  if c = '\'' then some .SingleQuote
  else if c = '"' then some .DoubleQuote
  else if c = '`' then some .Backtick
  else none

/-- The first rule that applies at the start of `text`, with `delimiter` in force. -/
def look (dollarQuoting : Bool) (delimiter text : Str) : Look :=
  if delimiter ≠ [] ∧ delimiter <+: text then .delimiter
  else match lineCommentOpener text with
  | some opener => .lineComment opener
  | none =>
    if ['/', '*'] <+: text then .blockComment
    else match if dollarQuoting then dollarOpener text else none with
    | some tag => .dollarQuote tag
    | none => if (quoteState (charAt text 0)).isSome then .quote (charAt text 0) else .plain

/-- What the text starts with under each rule. -/
def Look.Holds (dollarQuoting : Bool) (delimiter text : Str) : Look → Prop
  | .delimiter => delimiter ≠ [] ∧ delimiter <+: text
  | .lineComment opener => lineCommentOpener text = some opener
  | .blockComment => ['/', '*'] <+: text
  | .dollarQuote tag => dollarQuoting = true ∧ dollarOpener text = some tag
  | .quote c => charAt text 0 = c ∧ (quoteState c).isSome
  | .plain => (quoteState (charAt text 0)).isSome = false

theorem look_spec (dollarQuoting : Bool) (delimiter text : Str) :
    (look dollarQuoting delimiter text).Holds dollarQuoting delimiter text := by
  unfold look
  split
  · assumption
  · split
    · assumption
    · split
      · assumption
      · split
        · exact Option.ite_none_right_eq_some.mp ‹_›
        · split
          · exact ⟨rfl, ‹_›⟩
          · rename_i h
            simpa [Look.Holds] using h

theorem look_plain {dollarQuoting : Bool} {delimiter : Str} {c : Char} {rest : Str}
    (hdelimiter : ¬ delimiter <+: c :: rest) (hquote : quoteState c = none)
    (hline : lineCommentOpener (c :: rest) = none) (hblock : ¬ ['/', '*'] <+: c :: rest)
    (hdollar : dollarOpener (c :: rest) = none) : look dollarQuoting delimiter (c :: rest) = .plain := by
  simp [look, hdelimiter, hline, hblock, hdollar, charAt, hquote]

theorem look_lineEnd {dollarQuoting : Bool} {delimiter : Str} {c : Char} {rest : Str}
    (hc : c = '\n' ∨ c = '\r') (hdelimiter : ¬ delimiter <+: c :: rest) :
    look dollarQuoting delimiter (c :: rest) = .plain := by
  refine look_plain hdelimiter ?_ ?_ ?_ ?_
  all_goals rcases hc with rfl | rfl <;>
    simp [quoteState, lineCommentOpener, List.cons_prefix_cons, dollarOpener]

/-- The step of the splitter under each rule. -/
def Look.step (text : Str) (s : Splitter) : Look → Splitter × Nat
  | .delimiter => (pushStatement s, s.delimiter.length - 1)
  | .lineComment opener => ({ s with state := .LineComment }, opener.length - 1)
  | .blockComment => ({ s with state := .BlockComment }, 1)
  | .dollarQuote tag =>
    ({ s with dollarTag := tag, statement := s.statement ++ tag, state := .DollarQuote },
      tag.length - 1)
  | .quote c =>
    ({ s with state := (quoteState c).getD .Normal, statement := s.statement ++ [c] }, 0)
  | .plain => ({ s with statement := s.statement ++ [charAt text 0] }, 0)

theorem lineCommentOpener_length {text opener : Str} (h : lineCommentOpener text = some opener) :
    (if charAt text 0 == '/' || charAt text 0 == '-' then 1 else 0) = opener.length - 1 := by
  unfold lineCommentOpener at h
  split at h
  · cases h
    rfl
  · cases h
    rfl
  · split at h
    · cases h
      rfl
    · simp at h
  · simp at h

theorem quote_or_plain (text : Str) (s : Splitter) :
    (if charAt text 0 == '\'' then
      ({ s with state := .SingleQuote, statement := s.statement ++ [charAt text 0] }, 0)
    else if charAt text 0 == '"' then
      ({ s with state := .DoubleQuote, statement := s.statement ++ [charAt text 0] }, 0)
    else if charAt text 0 == '`' then
      ({ s with state := .Backtick, statement := s.statement ++ [charAt text 0] }, 0)
    else ({ s with statement := s.statement ++ [charAt text 0] }, 0)) =
      Look.step text s
        (if (quoteState (charAt text 0)).isSome then .quote (charAt text 0) else .plain) := by
  simp only [quoteState, beq_iff_eq]
  split_ifs <;> simp_all [Look.step, quoteState]

theorem consumeNormalChar_eq (dollarQuoting : Bool) (text : Str) (s : Splitter) :
    consumeNormalChar dollarQuoting text 0 s =
      (look dollarQuoting s.delimiter text).step text s := by
  unfold consumeNormalChar look
  simp only [startsWithDelimiter_iff, List.drop_zero, startsLineComment_eq, startsBlockComment_iff]
  by_cases hd : s.delimiter ≠ [] ∧ s.delimiter <+: text
  · simp [if_pos hd, Look.step]
  rw [if_neg hd, if_neg hd]
  cases hl : lineCommentOpener text with
  | some opener =>
    have := lineCommentOpener_length hl
    simp [Look.step, ← this]
  | none =>
    by_cases hb : ['/', '*'] <+: text
    · simp [hb, Look.step]
    · cases ho : if dollarQuoting then dollarOpener text else none with
      | some tag =>
        obtain ⟨rfl, ho⟩ := Option.ite_none_right_eq_some.mp ho
        obtain ⟨name, rest, hname, rfl, rfl⟩ := dollarOpener_eq_some ho
        have htake : ('$' :: (name ++ '$' :: rest)).take (name.length + 2) = '$' :: (name ++ ['$']) := by
          rw [List.take_succ_cons, List.append_cons, List.take_left' (by simp)]
        simp [hb, dollarQuoteOpenLength_opener hname, Look.step, charAt, htake]
      | none =>
        have hlen : (dollarQuoting && charAt text 0 == '$' && dollarQuoteOpenLength text 0 > 0) = false := by
          cases dollarQuoting with
          | false => rfl
          | true =>
            rw [if_pos rfl] at ho
            simp [dollarQuoteOpenLength_eq, ho]
        rw [hlen]
        simpa [hb] using quote_or_plain text s

end PQuery.SqlFile

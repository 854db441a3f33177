import PQuery.SqlFile.Look

/-!
# The steps of the splitter

What one call of `consumeChar` can see, where it ends and what it keeps. A step at a position sees
the rest of the text only (`consumeChar_drop`), it never depends on what stands beyond the end of
its line, every look-ahead being a pattern without a newline (`consumeChar_line`), it ends inside
the line (`consumeChar_lt`) and it keeps the invariant of the variables (`consumeChar_sound`).
-/

namespace PQuery.SqlFile

open ListScan

/-- The text up to its first newline. -/
def firstLine (text : Str) : Str := text.takeWhile (· ≠ '\n')

theorem firstLine_append {l : Str} (hl : '\n' ∉ l) (v : Str) : firstLine (l ++ '\n' :: v) = l := by
  rw [firstLine, takeWhile_append_cons (by simp)]
  exact List.takeWhile_eq_self_iff.mpr fun c hc => by simpa using ne_of_mem_of_not_mem hc hl

/-! ### Look-ahead at a position is look-ahead at the rest of the text -/

section shift
variable (text : Str) (pos : Nat)

theorem startsWithDelimiter_drop (delimiter : Str) :
    startsWithDelimiter text pos delimiter = startsWithDelimiter (text.drop pos) 0 delimiter := by
  rw [Bool.eq_iff_iff, startsWithDelimiter_iff, startsWithDelimiter_iff, List.drop_zero]

theorem lt_length_drop (k : Nat) : pos + k < text.length ↔ k < (text.drop pos).length := by
  rw [List.length_drop]
  omega

theorem startsLineComment_drop :
    startsLineComment text pos = startsLineComment (text.drop pos) 0 := by
  simp only [startsLineComment, charAt_drop, lt_length_drop, Nat.zero_add, Nat.add_zero]

theorem startsBlockComment_drop :
    startsBlockComment text pos = startsBlockComment (text.drop pos) 0 := by
  simp only [startsBlockComment, charAt_drop, lt_length_drop, Nat.zero_add, Nat.add_zero]

theorem dollarQuoteOpenLength_drop :
    dollarQuoteOpenLength text pos = dollarQuoteOpenLength (text.drop pos) 0 := by
  simp only [dollarQuoteOpenLength, charAt_drop, lt_length_drop, Nat.zero_add, Nat.add_zero,
    ge_iff_le, ← not_lt, List.drop_drop, Nat.add_assoc, Nat.sub_zero]
  split_ifs <;> omega

theorem consumeChar_drop (dollarQuoting : Bool) (s : Splitter) :
    consumeChar dollarQuoting text pos s =
      ((consumeChar dollarQuoting (text.drop pos) 0 s).1,
        pos + (consumeChar dollarQuoting (text.drop pos) 0 s).2) := by
  rcases hs : s.state <;> simp only [consumeChar, hs]
  · simp only [consumeNormalChar, startsWithDelimiter_drop text pos, startsLineComment_drop text pos,
      startsBlockComment_drop text pos, dollarQuoteOpenLength_drop text pos, charAt_drop,
      Nat.add_zero, List.drop_zero, Nat.zero_add]
    split_ifs <;> simp
  · simp only [consumeQuotedChar, charAt_drop, lt_length_drop, Nat.add_zero, Nat.zero_add]
    split_ifs <;> simp
  · simp only [consumeQuotedChar, charAt_drop, lt_length_drop, Nat.add_zero, Nat.zero_add]
    split_ifs <;> simp
  · simp only [consumeBacktickChar, charAt_drop, Nat.add_zero]
    split_ifs <;> simp
  · simp only [consumeLineCommentChar, charAt_drop, Nat.add_zero]
    split_ifs <;> simp
  · simp only [consumeBlockCommentChar, charAt_drop, lt_length_drop, Nat.add_zero, Nat.zero_add]
    split_ifs <;> simp
  · simp only [consumeDollarQuoteChar, charAt_drop, compareAt_drop, Nat.add_zero, Nat.zero_add]
    split_ifs <;> simp

end shift

theorem dollarQuoteOpenLength_le (text : Str) : dollarQuoteOpenLength text 0 ≤ text.length := by
  rcases Nat.eq_zero_or_pos (dollarQuoteOpenLength text 0) with h | h
  · omega
  · obtain ⟨name, rest, rfl, hname⟩ := dollarQuoteOpenLength_pos h
    rw [dollarQuoteOpenLength_opener hname]
    simp

/-! ### What a step keeps -/

/-- What holds of the variables between two steps. -/
structure Splitter.Sound (s : Splitter) : Prop where
  delimiter_ne : s.delimiter ≠ []
  delimiter_line : '\n' ∉ s.delimiter
  tag_line : '\n' ∉ s.dollarTag
  tag_head : ∀ c ∈ s.dollarTag.head?, c = '$'
  tag_iff : s.state = .DollarQuote ↔ s.dollarTag ≠ []

theorem initial_sound (queryList : List Str) : (initial queryList).Sound :=
  ⟨by simp [initial], by simp [initial], by simp [initial], by simp [initial], by simp [initial]⟩

theorem Splitter.Sound.tag_nil {s : Splitter} (hs : s.Sound) (h : s.state ≠ .DollarQuote) :
    s.dollarTag = [] := by
  by_contra hne
  exact h (hs.tag_iff.mpr hne)

/-! ### A step depends on its line only -/

section line
variable {u : Str} (v : Str)

theorem charAt_append_of_lt (text v : Str) {k : Nat} (hk : k < text.length) :
    charAt (text ++ v) k = charAt text k := by
  simp [charAt, List.getElem?_append_left hk]

theorem startsWithDelimiter_line {delimiter : Str} (hd : '\n' ∉ delimiter) :
    startsWithDelimiter (u ++ '\n' :: v) 0 delimiter =
      startsWithDelimiter (u ++ ['\n']) 0 delimiter := by
  rw [Bool.eq_iff_iff, startsWithDelimiter_iff, startsWithDelimiter_iff, List.drop_zero,
    List.drop_zero, prefix_append_cons hd, prefix_append_cons hd]

theorem startsLineComment_line :
    startsLineComment (u ++ '\n' :: v) 0 = startsLineComment (u ++ ['\n']) 0 := by
  rcases u with _ | ⟨a, _ | ⟨b, _ | ⟨c, u⟩⟩⟩ <;> simp [startsLineComment, charAt]

theorem startsBlockComment_line :
    startsBlockComment (u ++ '\n' :: v) 0 = startsBlockComment (u ++ ['\n']) 0 := by
  rcases u with _ | ⟨a, _ | ⟨b, u⟩⟩ <;> simp [startsBlockComment, charAt]

theorem dollarQuoteOpenLength_line :
    dollarQuoteOpenLength (u ++ '\n' :: v) 0 = dollarQuoteOpenLength (u ++ ['\n']) 0 := by
  rcases u with _ | ⟨a, _ | ⟨b, u⟩⟩
  · simp [dollarQuoteOpenLength, charAt]
  · simp [dollarQuoteOpenLength, charAt, show isalpha '\n' = false by decide]
  · have htag : isTagChar '\n' = false := by decide
    have hle := (List.takeWhile_prefix (l := u) isTagChar).length_le
    have hchar : charAt (a :: b :: (u ++ '\n' :: v)) (2 + (u.takeWhile isTagChar).length) =
        charAt (a :: b :: (u ++ ['\n'])) (2 + (u.takeWhile isTagChar).length) := by
      have hlt : 2 + (u.takeWhile isTagChar).length < (a :: b :: (u ++ ['\n'])).length := by
        simp only [List.length_cons, List.length_append]
        omega
      simpa using charAt_append_of_lt _ v hlt
    have hlen : ∀ w : Str, 2 + (u.takeWhile isTagChar).length < (a :: b :: (u ++ '\n' :: w)).length := by
      intro w
      simp
      omega
    simp only [dollarQuoteOpenLength, List.cons_append, Nat.zero_add, List.drop_succ_cons,
      List.drop_zero, takeWhile_append_cons htag, hchar, hlen]
    simp [charAt]

theorem consumeQuotedChar_line (s : Splitter) (quote : Char) :
    consumeQuotedChar (u ++ '\n' :: v) 0 s quote = consumeQuotedChar (u ++ ['\n']) 0 s quote := by
  rcases u with _ | ⟨a, u⟩
  · simp [consumeQuotedChar, charAt]
  · have h0 : charAt (a :: u ++ '\n' :: v) 0 = charAt (a :: u ++ ['\n']) 0 := rfl
    have h1 : charAt (a :: u ++ '\n' :: v) 1 = charAt (a :: u ++ ['\n']) 1 := by
      cases u <;> simp [charAt]
    have hlen : ∀ w : Str, 0 + 1 < (a :: u ++ '\n' :: w).length := by
      intro w
      simp only [List.length_append, List.length_cons]
      omega
    simp only [consumeQuotedChar, h0, h1, hlen]

theorem consumeChar_line (dollarQuoting : Bool) {s : Splitter} (hs : s.Sound) :
    consumeChar dollarQuoting (u ++ '\n' :: v) 0 s = consumeChar dollarQuoting (u ++ ['\n']) 0 s := by
  have hchar : charAt (u ++ '\n' :: v) 0 = charAt (u ++ ['\n']) 0 := by
    cases u <;> simp [charAt]
  rcases hstate : s.state <;> simp only [consumeChar, hstate, consumeQuotedChar_line]
  · have htake : (u ++ '\n' :: v).take (dollarQuoteOpenLength (u ++ ['\n']) 0) =
        (u ++ ['\n']).take (dollarQuoteOpenLength (u ++ ['\n']) 0) := by
      rw [List.append_cons u '\n' v, List.take_append_of_le_length (dollarQuoteOpenLength_le _)]
    simp only [consumeNormalChar, startsWithDelimiter_line v hs.delimiter_line,
      startsLineComment_line, startsBlockComment_line, dollarQuoteOpenLength_line, hchar,
      List.drop_zero, htake]
  · simp only [consumeBacktickChar, hchar]
  · simp only [consumeLineCommentChar, hchar]
  · rcases u with _ | ⟨a, _ | ⟨b, u⟩⟩ <;> simp [consumeBlockCommentChar, charAt]
  · have htag : compareAt (u ++ '\n' :: v) 0 s.dollarTag = compareAt (u ++ ['\n']) 0 s.dollarTag := by
      rw [Bool.eq_iff_iff, compareAt_iff, compareAt_iff, List.drop_zero, List.drop_zero,
        prefix_append_cons hs.tag_line, prefix_append_cons hs.tag_line]
    simp only [consumeDollarQuoteChar, hchar, htag]

end line

theorem Look.step_lt {dollarQuoting : Bool} {s : Splitter} {text : Str} (ht : text ≠ []) :
    ((look dollarQuoting s.delimiter text).step text s).2 < text.length := by
  have hpos := List.length_pos_iff.mpr ht
  have hspec := look_spec dollarQuoting s.delimiter text
  cases hl : look dollarQuoting s.delimiter text <;> rw [hl] at hspec <;>
    simp only [Look.Holds] at hspec <;> simp only [Look.step]
  case delimiter =>
    have := hspec.2.length_le
    omega
  case lineComment opener =>
    have := (lineCommentOpener_eq_some hspec).2.length_le
    omega
  case blockComment =>
    have := hspec.length_le
    simp only [List.length_cons] at this
    omega
  case dollarQuote tag =>
    obtain ⟨name, rest, hname, rfl, rfl⟩ := dollarOpener_eq_some hspec.2
    simp
  all_goals exact hpos

theorem consumeChar_lt (dollarQuoting : Bool) (s : Splitter) {text : Str} (ht : text ≠ []) :
    (consumeChar dollarQuoting text 0 s).2 < text.length := by
  have hpos := List.length_pos_iff.mpr ht
  rcases hstate : s.state <;> simp only [consumeChar, hstate]
  · rw [consumeNormalChar_eq]
    exact Look.step_lt ht
  · simp only [consumeQuotedChar]
    split_ifs <;> simp_all
  · simp only [consumeQuotedChar]
    split_ifs <;> simp_all
  · simp only [consumeBacktickChar]
    split_ifs <;> simp_all
  · simp only [consumeLineCommentChar]
    split_ifs <;> simp_all
  · simp only [consumeBlockCommentChar]
    split_ifs <;> simp_all
  · simp only [consumeDollarQuoteChar]
    split_ifs with h
    · simp only [Bool.and_eq_true, compareAt_iff] at h
      have := h.2.length_le
      simp at this
      simp
      omega
    · simpa

theorem Look.step_sound {dollarQuoting : Bool} {s : Splitter} (hs : s.Sound)
    (hstate : s.state = .Normal) (text : Str) :
    ((look dollarQuoting s.delimiter text).step text s).1.Sound := by
  have htag := hs.tag_nil (by simp [hstate])
  have hspec := look_spec dollarQuoting s.delimiter text
  cases hl : look dollarQuoting s.delimiter text <;> rw [hl] at hspec <;>
    simp only [Look.Holds] at hspec <;> simp only [Look.step]
  case dollarQuote tag =>
    obtain ⟨name, rest, hname, rfl, rfl⟩ := dollarOpener_eq_some hspec.2
    have := hname.not_mem (c := '\n') (by decide)
    exact ⟨hs.delimiter_ne, hs.delimiter_line, by simpa, by simp, by simp⟩
  case quote c =>
    refine ⟨hs.delimiter_ne, hs.delimiter_line, hs.tag_line, hs.tag_head, ?_⟩
    simp only [quoteState, htag]
    split_ifs <;> simp
  all_goals exact ⟨hs.delimiter_ne, hs.delimiter_line, hs.tag_line, hs.tag_head,
    by simp [pushStatement, hstate, htag]⟩

/-- A step keeps the invariant. -/
theorem consumeChar_sound (dollarQuoting : Bool) {s : Splitter} (hs : s.Sound) (text : Str) :
    (consumeChar dollarQuoting text 0 s).1.Sound := by
  obtain ⟨h1, h2, h3, h3', h4⟩ := hs
  rcases hstate : s.state <;> simp only [consumeChar, hstate]
  · rw [consumeNormalChar_eq]
    exact Look.step_sound ⟨h1, h2, h3, h3', h4⟩ hstate text
  all_goals rw [hstate] at h4
  · simp only [consumeQuotedChar]
    split_ifs <;> exact ⟨h1, h2, h3, h3', by simpa [hstate] using h4⟩
  · simp only [consumeQuotedChar]
    split_ifs <;> exact ⟨h1, h2, h3, h3', by simpa [hstate] using h4⟩
  · simp only [consumeBacktickChar]
    split_ifs <;> exact ⟨h1, h2, h3, h3', by simpa [hstate] using h4⟩
  · simp only [consumeLineCommentChar]
    split_ifs <;> exact ⟨h1, h2, h3, h3', by simpa [hstate] using h4⟩
  · simp only [consumeBlockCommentChar]
    split_ifs <;> exact ⟨h1, h2, h3, h3', by simpa [hstate] using h4⟩
  · simp only [consumeDollarQuoteChar]
    split_ifs
    · exact ⟨h1, h2, by simp, by simp, by simp⟩
    · exact ⟨h1, h2, h3, h3', by simpa [hstate] using h4⟩

/-! ### Lines -/

theorem mem_of_mem_trim {c : Char} {text : Str} (h : c ∈ trim text) : c ∈ text :=
  (List.dropWhile_sublist _).subset ((List.rdropWhile_prefix _ _).subset h)

theorem trim_blank_append {blank text : Str} (hblank : ∀ c ∈ blank, isBlank c = true) :
    trim (blank ++ text) = trim text := by
  rw [trim, trim, strip, List.dropWhile_append_of_pos hblank]
  rfl

theorem isDelimiterCommand_mem {line newDelimiter : Str}
    (h : isDelimiterCommand line = some newDelimiter) :
    newDelimiter ≠ [] ∧ ∀ c ∈ newDelimiter, c ∈ line := by
  simp only [isDelimiterCommand] at h
  split_ifs at h with h1 h2 h3
  obtain rfl := Option.some.inj h
  refine ⟨by simpa using h3, fun c hc => mem_of_mem_trim (List.mem_of_mem_drop (mem_of_mem_trim hc))⟩

theorem delimiterCommand_sound {s : Splitter} (hs : s.Sound) {line newDelimiter : Str}
    (hline : '\n' ∉ line) (h : delimiterCommand s line = some newDelimiter) :
    { s with delimiter := newDelimiter }.Sound := by
  unfold delimiterCommand at h
  split at h
  · obtain ⟨hne, hmem⟩ := isDelimiterCommand_mem h
    exact ⟨hne, fun hnl => hline (hmem _ hnl), hs.tag_line, hs.tag_head, hs.tag_iff⟩
  · simp at h

end PQuery.SqlFile

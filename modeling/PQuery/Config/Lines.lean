import PQuery.Config.IniReader
import PQuery.Library.Regex

/-!
# What a line of an INI file is

The reference classifies a line as the first of blank, comment, section header and assignment that
it is, and as malformed otherwise (`Classified`); an assignment is a line that matches a regular
expression (`assignmentRegex`). The scanner of the source classifies every line in the same way
(`classified_iff`): each of its functions is specified by the texts that its positions cut off
(`skipWs_rest`, `tryParseKeyValue_iff`), and these are the parts of a match.
-/

namespace PQuery.Config

open ListScan Regex

/-! ### The reference -/

/-- `[^ \t=]` -/
def isKeyChar (c : Char) : Bool := c != ' ' && c != '\t' && c != '='

/-- `\S[^ \t=]*` -/
def keyRegex : Regex Char := seq (cls fun c => !isspace c) (star (cls isKeyChar))

/-- `\S+` -/
def wordRegex : Regex Char := plus (cls fun c => !isspace c)

/-- `\S+(\s\S+)*` -/
def valueRegex : Regex Char := seq wordRegex (star (group 3 (seq (cls isspace) wordRegex)))

/-- `\s*(\S[^ \t=]*)\s*=\s*(\S+(\s\S+)*)\s*` -/
def assignmentRegex : Regex Char :=
  let spaces := star (cls isspace)
  seq spaces (seq (group 1 keyRegex) (seq spaces (seq (cls (· == '='))
    (seq spaces (seq (group 2 valueRegex) spaces)))))

inductive LineKind
  | blank
  | comment
  | header (name : Str)
  | assignment (key value : Str)
  | malformed
deriving DecidableEq

def Blank (line : Str) : Prop := ∀ c ∈ line, isspace c = true

def Comment (line : Str) : Prop :=
  ∃ ws rest, line = ws ++ rest ∧ Blank ws ∧ ([';'] <+: rest ∨ ['#'] <+: rest ∨ ['-', '-'] <+: rest)

def Header (line name : Str) : Prop :=
  ∃ ws, line = ws ++ '[' :: (name ++ [']']) ∧ Blank ws ∧ name ≠ [] ∧ ']' ∉ name

/-- The line matches with a greedy key. -/
def Assignment (line key value : Str) : Prop :=
  ∃ groups, Greedy assignmentRegex 1 line groups ∧ capture 1 groups = some key ∧
    capture 2 groups = some value

/-- A line is the first kind of line that applies. -/
inductive Classified (line : Str) : LineKind → Prop
  | blank (h : Blank line) : Classified line .blank
  | comment (hblank : ¬ Blank line) (h : Comment line) : Classified line .comment
  | header {name : Str} (hblank : ¬ Blank line) (hcomment : ¬ Comment line) (h : Header line name) :
      Classified line (.header name)
  | assignment {key value : Str} (hblank : ¬ Blank line) (hcomment : ¬ Comment line)
      (hheader : ∀ name, ¬ Header line name) (h : Assignment line key value) :
      Classified line (.assignment key value)
  | malformed (hblank : ¬ Blank line) (hcomment : ¬ Comment line)
      (hheader : ∀ name, ¬ Header line name) (h : ∀ key value, ¬ Assignment line key value) :
      Classified line .malformed

/-! ### The kind of line that the source finds -/

/-- The branch of the loop that a line takes. -/
def classify (line : Str) : LineKind :=
  if isBlank line then .blank
  else if isComment line then .comment
  else match tryParseSection line with
  | some sectionName => .header sectionName
  | none =>
    match tryParseKeyValue line with
    | some (key, value) => .assignment key value
    | none => .malformed

theorem readLine_eq (current_section : Str) (line_no : Nat) (reader : INIReader) (line : Str) :
    readLine current_section line_no reader line =
      match classify line with
      | .blank => (reader, current_section)
      | .comment => (reader, current_section)
      | .header name => ({ reader with sections := reader.sections ++ [name] }, name)
      | .assignment key value =>
        ({ reader with map := ((current_section, key), value) :: reader.map }, current_section)
      | .malformed =>
        if reader.error = 0 then ({ reader with error := line_no }, current_section)
        else (reader, current_section) := by
  unfold readLine classify
  cases hblank : isBlank line with
  | true => rfl
  | false =>
    cases hcomment : isComment line with
    | true => rfl
    | false =>
      cases tryParseSection line with
      | some name => rfl
      | none =>
        cases tryParseKeyValue line with
        | some kv => rfl
        | none => rfl

/-! ### Positions and the rest of the line -/

section positions
variable {line : Str} {pos : Nat}

theorem skipWs_rest (line : Str) (pos : Nat) :
    line.drop (skipWs line pos) = (line.drop pos).dropWhile isspace := by
  rw [skipWs, ← List.drop_drop, drop_takeWhile]

theorem skipWord_rest (line : Str) (pos : Nat) :
    line.drop (skipWord line pos) = (line.drop pos).dropWhile fun c => !isspace c := by
  rw [skipWord, ← List.drop_drop, drop_takeWhile]

theorem skipWs_le (hpos : pos ≤ line.length) : skipWs line pos ≤ line.length := by
  have h := (List.takeWhile_prefix (l := line.drop pos) isspace).length_le
  rw [List.length_drop] at h
  rw [skipWs]
  omega

theorem skipWord_le (hpos : pos ≤ line.length) : skipWord line pos ≤ line.length := by
  have h := (List.takeWhile_prefix (l := line.drop pos) fun c => !isspace c).length_le
  rw [List.length_drop] at h
  rw [skipWord]
  omega

theorem eq_length_iff (hpos : pos ≤ line.length) : pos = line.length ↔ line.drop pos = [] := by
  rw [List.drop_eq_nil_iff]
  omega

theorem charAt_rest {c : Char} {rest : Str} (h : line.drop pos = c :: rest) : charAt line pos = c := by
  have hchar := charAt_drop line pos 0
  rw [h] at hchar
  exact hchar.symm

theorem rest_of_charAt {c : Char} (hc : c ≠ '\x00') (h : charAt line pos = c) :
    ∃ rest, line.drop pos = c :: rest := by
  cases hd : line.drop pos with
  | nil =>
    have hend := charAt_drop line pos 0
    rw [hd, Nat.add_zero, h] at hend
    exact absurd hend.symm hc
  | cons d rest => exact ⟨rest, by rw [← charAt_rest hd, h]⟩

theorem rest_succ {c : Char} {rest : Str} (h : line.drop pos = c :: rest) :
    line.drop (pos + 1) = rest := by
  rw [← List.drop_drop, h]
  rfl

theorem lt_length_of_rest {c : Char} {rest : Str} (h : line.drop pos = c :: rest) :
    pos < line.length := by
  by_contra hge
  simp [List.drop_of_length_le (Nat.le_of_not_lt hge)] at h

end positions

/-! ### Blank lines, comments and headers -/

theorem blank_append_rest (line : Str) :
    line = line.takeWhile isspace ++ line.dropWhile isspace ∧ Blank (line.takeWhile isspace) :=
  ⟨List.takeWhile_append_dropWhile.symm, fun _ => List.mem_takeWhile_imp⟩

theorem dropWhile_blank {ws rest : Str} (hws : Blank ws)
    (hrest : ∀ c ∈ rest.head?, isspace c = false) : (ws ++ rest).dropWhile isspace = rest :=
  (takeWhile_dropWhile_append hws hrest).2

theorem skipWs_start (line : Str) : line.drop (skipWs line 0) = line.dropWhile isspace :=
  skipWs_rest line 0

theorem isBlank_iff {line : Str} : isBlank line = true ↔ Blank line := by
  rw [isBlank, beq_iff_eq, eq_length_iff (skipWs_le (Nat.zero_le _)), skipWs_start,
    List.dropWhile_eq_nil_iff]
  rfl

theorem comment_iff {line : Str} : Comment line ↔ [';'] <+: line.dropWhile isspace ∨
    ['#'] <+: line.dropWhile isspace ∨ ['-', '-'] <+: line.dropWhile isspace := by
  constructor
  · rintro ⟨ws, rest, rfl, hws, hopen⟩
    have hhead : ∀ c ∈ rest.head?, isspace c = false := by
      rcases hopen with ⟨_, rfl⟩ | ⟨_, rfl⟩ | ⟨_, rfl⟩ <;> simp [isspace]
    rwa [dropWhile_blank hws hhead]
  · obtain ⟨hline, hws⟩ := blank_append_rest line
    exact fun h => ⟨_, _, hline, hws, h⟩

theorem isComment_iff {line : Str} : isComment line = true ↔ Comment line := by
  have hskip := skipWs_start line
  rw [comment_iff, isComment]
  generalize line.dropWhile isspace = rest at hskip ⊢
  generalize skipWs line 0 = i at hskip
  rcases rest with _ | ⟨c, rest⟩
  · rw [if_pos (List.drop_eq_nil_iff.mp hskip)]
    simp
  · rw [if_neg (Nat.not_le.mpr (lt_length_of_rest hskip)), charAt_rest hskip]
    rcases rest with _ | ⟨d, rest⟩
    · have hge : ¬ i + 1 < line.length := Nat.not_lt.mpr (List.drop_eq_nil_iff.mp (rest_succ hskip))
      simp [List.cons_prefix_cons, hge, eq_comm (a := ';'), eq_comm (a := '#')]
    · have hlt : i + 1 < line.length := lt_length_of_rest (rest_succ hskip)
      rw [charAt_rest (rest_succ hskip)]
      simp [List.cons_prefix_cons, hlt, eq_comm (a := ';'), eq_comm (a := '#'), eq_comm (a := '-'),
        or_assoc]

theorem header_iff {line name : Str} : Header line name ↔
    line.dropWhile isspace = '[' :: (name ++ [']']) ∧ name ≠ [] ∧ ']' ∉ name := by
  constructor
  · rintro ⟨ws, rfl, hws, hname⟩
    exact ⟨dropWhile_blank hws (by simp [isspace]), hname⟩
  · rintro ⟨hrest, hname⟩
    obtain ⟨hline, hws⟩ := blank_append_rest line
    rw [hrest] at hline
    exact ⟨_, hline, hws, hname⟩

theorem tryParseSection_iff {line name : Str} : tryParseSection line = some name ↔ Header line name := by
  have hskip := skipWs_start line
  rw [header_iff, tryParseSection]
  generalize line.dropWhile isspace = rest at hskip ⊢
  generalize skipWs line 0 = i at hskip
  rcases rest with _ | ⟨c, rest⟩
  · rw [if_pos (.inl (List.drop_eq_nil_iff.mp hskip))]
    simp
  · have hlt := lt_length_of_rest hskip
    have hlen : line.length = i + 1 + rest.length := by
      have hlength := congrArg List.length hskip
      rw [List.length_drop, List.length_cons] at hlength
      omega
    simp only [charAt_rest hskip, rest_succ hskip, hlen]
    by_cases hc : c = '['
    · have hname : rest = name ++ [']'] ∧ ']' ∉ name ↔
          rest.takeWhile (· ≠ ']') = name ∧ rest.length = name.length + 1 := eq_concat_iff
      have hrest : '[' :: rest = '[' :: (name ++ [']']) ∧ name ≠ [] ∧ ']' ∉ name ↔
          (rest.takeWhile (· ≠ ']') = name ∧ rest.length = name.length + 1) ∧ name ≠ [] := by
        rw [← hname, List.cons_inj_right]
        tauto
      subst hc
      rw [hrest, if_neg (by simp only [ne_eq, not_true_eq_false, or_false]; omega)]
      have hle := (List.takeWhile_prefix (l := rest) fun c => decide (c ≠ ']')).length_le
      generalize rest.takeWhile (fun c => decide (c ≠ ']')) = found at hle ⊢
      constructor
      · intro h
        split at h
        · simp at h
        · rename_i hclose
          obtain rfl := Option.some.inj h
          have hne : found ≠ [] := fun hnil => hclose (.inr (.inl (by simp [hnil])))
          exact ⟨⟨rfl, by omega⟩, hne⟩
      · rintro ⟨⟨rfl, hlength⟩, hne⟩
        have hpos := List.length_pos_iff.mpr hne
        rw [if_neg (by omega)]
    · simp [hc]

/-! ### The value of an assignment -/

def Word (text : Str) : Prop := text ≠ [] ∧ ∀ c ∈ text, isspace c = false

instance : DecidablePred Word := fun text =>
  decidable_of_iff (text ≠ [] ∧ (text.all fun c => !isspace c) = true) (by simp [Word])

/-- Words, each behind a single white space. -/
inductive Words : Str → Prop
  | nil : Words []
  | cons {c : Char} {w u : Str} (hc : isspace c = true) (hw : Word w) (hu : Words u) :
      Words (c :: (w ++ u))

def Value (text : Str) : Prop := ∃ w u, text = w ++ u ∧ Word w ∧ Words u

theorem Word.head {w : Str} (h : Word w) (rest : Str) : ∀ c ∈ (w ++ rest).head?, isspace c = false := by
  obtain ⟨c, w, rfl⟩ := List.exists_cons_of_ne_nil h.1
  simpa using h.2 c (by simp)

theorem Words.head {u ws : Str} (h : Words u) (hws : Blank ws) :
    ∀ c ∈ (u ++ ws).head?, isspace c = true := by
  cases h with
  | nil => exact fun c hc => hws c (List.mem_of_mem_head? hc)
  | cons hc hw hu => simpa using hc

theorem skipWord_append {line w rest : Str} {i : Nat} (h : line.drop i = w ++ rest) (hw : Word w)
    (hrest : ∀ c ∈ rest.head?, isspace c = true) :
    skipWord line i = i + w.length ∧ line.drop (i + w.length) = rest := by
  have hword : ∀ c ∈ w, (!isspace c) = true := fun c hc => by simp [hw.2 c hc]
  have hrest' : ∀ c ∈ rest.head?, (!isspace c) = false := fun c hc => by simp [hrest c hc]
  rw [skipWord, h, (takeWhile_dropWhile_append hword hrest').1]
  refine ⟨rfl, ?_⟩
  rw [← List.drop_drop, h, List.drop_left]

theorem skipWs_append {line ws rest : Str} {i : Nat} (h : line.drop i = ws ++ rest) (hws : Blank ws)
    (hrest : ∀ c ∈ rest.head?, isspace c = false) :
    skipWs line i = i + ws.length ∧ line.drop (i + ws.length) = rest := by
  rw [skipWs, h, (takeWhile_dropWhile_append hws hrest).1]
  refine ⟨rfl, ?_⟩
  rw [← List.drop_drop, h, List.drop_left]

theorem valueEnd_of_words {line u ws : Str} (hu : Words u) (hws : Blank ws) {i : Nat}
    (hi : i ≤ line.length) (h : line.drop i = u ++ ws) : valueEnd line i = some (i + u.length) := by
  induction hu generalizing i with
  | nil =>
    rw [List.nil_append] at h
    have hend : skipWs line i = line.length := by
      rw [eq_length_iff (skipWs_le hi), skipWs_rest, h, List.dropWhile_eq_nil_iff]
      exact hws
    rw [valueEnd]
    split_ifs
    · rfl
    · rfl
  | @cons c w u hc hw hu ih =>
    rw [List.cons_append, List.append_assoc] at h
    have hsplit := takeWhile_dropWhile_append (u := [c]) (p := isspace) (by simpa using hc) (hw.head (u ++ ws))
    have hskip : skipWs line i = i + 1 := by
      rw [skipWs, h]
      exact congrArg (i + List.length ·) hsplit.1
    have hnext := rest_succ h
    obtain ⟨hend, hdrop⟩ := skipWord_append hnext hw (hu.head hws)
    have hlt : i + 1 < line.length := by
      obtain ⟨d, w, rfl⟩ := List.exists_cons_of_ne_nil hw.1
      exact lt_length_of_rest hnext
    have hle := skipWord_le hlt.le
    rw [hend] at hle
    rw [valueEnd, if_pos (lt_length_of_rest h), hskip, if_neg hlt.ne, dif_neg (by omega), hend,
      ih hle hdrop]
    simp only [List.length_cons, List.length_append]
    congr 1
    omega

theorem words_of_valueEnd {line : Str} {i e : Nat} (h : valueEnd line i = some e)
    (hi : i ≤ line.length) :
    ∃ u ws, line.drop i = u ++ ws ∧ Words u ∧ Blank ws ∧ e = i + u.length := by
  fun_induction valueEnd line i with
  | case1 i hlt hend =>
    obtain rfl := Option.some.inj h
    refine ⟨[], line.drop i, rfl, .nil, ?_, rfl⟩
    rwa [eq_length_iff (skipWs_le hi), skipWs_rest, List.dropWhile_eq_nil_iff] at hend
  | case2 i hlt hend hone => cases h
  | case3 i hlt hend hone ih =>
    have hskip : skipWs line i = i + 1 := by
      have hle : i ≤ skipWs line i := Nat.le_add_right _ _
      omega
    obtain ⟨c, rest, hdrop⟩ : ∃ c rest, line.drop i = c :: rest := by
      refine List.exists_cons_of_ne_nil ?_
      rw [ne_eq, ← eq_length_iff hi]
      exact hlt.ne
    have hc : isspace c = true := by
      by_contra hc
      have hstay : skipWs line i = i := by simp [skipWs, hdrop, hc]
      omega
    have hrest := skipWs_rest line i
    have hnot := List.head?_dropWhile_not isspace (line.drop i)
    rw [hskip] at hend ih h hrest
    rw [← hrest] at hnot
    rw [rest_succ hdrop] at hnot
    have hne : rest ≠ [] := fun hnil => hend ((eq_length_iff hlt).mpr (by rw [rest_succ hdrop, hnil]))
    have hword := skipWord_rest line (i + 1)
    rw [rest_succ hdrop] at hword
    obtain ⟨u, ws, hu, hwords, hws, rfl⟩ := ih h (skipWord_le hlt)
    rw [hword] at hu
    refine ⟨c :: (rest.takeWhile (fun c => !isspace c) ++ u), ws, ?_, .cons hc ⟨?_, ?_⟩ hwords, hws, ?_⟩
    · rw [hdrop, List.cons_append, List.append_assoc, ← hu, List.takeWhile_append_dropWhile]
    · obtain ⟨d, rest, rfl⟩ := List.exists_cons_of_ne_nil hne
      have hd : isspace d = false := by simpa using hnot
      simp [hd]
    · intro d hd
      simpa using List.mem_takeWhile_imp hd
    · rw [skipWord, rest_succ hdrop, List.length_cons, List.length_append]
      omega
  | case4 i hge =>
    obtain rfl := Option.some.inj h
    exact ⟨[], [], by simpa using Nat.le_of_not_lt hge, .nil, by simp [Blank], rfl⟩

/-! ### The parts of an assignment -/

def Key (text : Str) : Prop :=
  ∃ c rest, text = c :: rest ∧ isspace c = false ∧ ∀ d ∈ rest, isKeyChar d = true

/-- A line with a key, the sign and a value, and the white space around each of them. -/
structure Parts (line key value ws₀ ws₁ ws₂ ws₃ : Str) : Prop where
  spelled : line = ws₀ ++ (key ++ (ws₁ ++ '=' :: (ws₂ ++ (value ++ ws₃))))
  blank₀ : Blank ws₀
  blank₁ : Blank ws₁
  blank₂ : Blank ws₂
  blank₃ : Blank ws₃
  key : Key key
  value : Value value

/-- The parts, with as much of the line in the key as can be. -/
def Cuts (line key value : Str) : Prop :=
  ∃ ws₀ ws₁ ws₂ ws₃, Parts line key value ws₀ ws₁ ws₂ ws₃ ∧ ∀ c ∈ ws₁.head?, isKeyChar c = false

theorem Value.head {value : Str} (h : Value value) (rest : Str) :
    value ++ rest ≠ [] ∧ ∀ c ∈ (value ++ rest).head?, isspace c = false := by
  obtain ⟨w, u, rfl, hw, -⟩ := h
  rw [List.append_assoc]
  exact ⟨by simp [hw.1], hw.head _⟩

theorem Value.ne {value : Str} (h : Value value) : value ≠ [] := by
  simpa using (h.head []).1

theorem tryParseKeyValue_of_cuts {line key value : Str} (h : Cuts line key value) :
    tryParseKeyValue line = some (key, value) := by
  obtain ⟨ws₀, ws₁, ws₂, ws₃, ⟨hline, hws₀, hws₁, hws₂, hws₃, hkey, hvalue⟩, hgreedy⟩ := h
  obtain ⟨c, k, rfl, hc, hk⟩ := hkey
  obtain ⟨kb, hkb⟩ : ∃ kb, skipWs line 0 = kb := ⟨_, rfl⟩
  have hkeyAt : line.drop kb = c :: (k ++ (ws₁ ++ '=' :: (ws₂ ++ (value ++ ws₃)))) := by
    rw [← hkb, skipWs_start, hline, dropWhile_blank hws₀ (by simpa using hc), List.cons_append]
  have hchars : ((line.drop (kb + 1)).takeWhile fun c => c != ' ' && c != '\t' && c != '=') = k := by
    rw [rest_succ hkeyAt]
    refine (takeWhile_dropWhile_append hk ?_).1
    cases ws₁ with
    | nil => simp [isKeyChar]
    | cons d ws₁ => simpa using hgreedy
  have hkeyEnd : line.drop (kb + 1 + k.length) = ws₁ ++ '=' :: (ws₂ ++ (value ++ ws₃)) := by
    rw [← List.drop_drop, rest_succ hkeyAt, List.drop_left]
  obtain ⟨hsign, hsignAt⟩ := skipWs_append hkeyEnd hws₁ (by simp [isspace])
  obtain ⟨hvb, hvalueAt⟩ := skipWs_append (rest_succ hsignAt) hws₂ (hvalue.head ws₃).2
  generalize kb + 1 + k.length + ws₁.length = sign at hsign hsignAt hvb hvalueAt
  generalize sign + 1 + ws₂.length = vb at hvb hvalueAt
  have hvlt : vb < line.length := by
    obtain ⟨d, rest, hd⟩ := List.exists_cons_of_ne_nil (hvalue.head ws₃).1
    exact lt_length_of_rest (hvalueAt.trans hd)
  obtain ⟨w, u, rfl, hw, hu⟩ := hvalue
  have hwordAt := hvalueAt
  rw [List.append_assoc] at hwordAt
  obtain ⟨hword, hwordsAt⟩ := skipWord_append hwordAt hw (hu.head hws₃)
  have hle := skipWord_le hvlt.le
  rw [hword] at hle
  have hend := valueEnd_of_words hu hws₃ hle hwordsAt
  have hktake : (line.drop kb).take (kb + 1 + k.length - kb) = c :: k := by
    rw [hkeyAt, show kb + 1 + k.length - kb = k.length + 1 by omega, List.take_succ_cons, List.take_left]
  have hvtake : (line.drop vb).take (vb + w.length + u.length - vb) = w ++ u := by
    rw [hvalueAt, show vb + w.length + u.length - vb = (w ++ u).length by simp; omega, List.take_left]
  unfold tryParseKeyValue
  simp only [hkb, if_neg (lt_length_of_rest hkeyAt).ne, hchars, hsign, charAt_rest hsignAt, hvb,
    if_neg hvlt.ne, hword, hend, hktake, Option.map_some, hvtake]
  rw [if_neg]
  simpa using (lt_length_of_rest hsignAt).ne

/-- What is taken from the start of a word to the end that is found is a value, and blanks follow. -/
theorem value_of_valueEnd {line text : Str} {v : Char} {vb ve : Nat} (htext : line.drop vb = v :: text)
    (hv : isspace v = false) (h : valueEnd line (skipWord line vb) = some ve) :
    ∃ ws, line.drop vb = (line.drop vb).take (ve - vb) ++ ws ∧ Value ((line.drop vb).take (ve - vb)) ∧
      Blank ws := by
  have hwordAt := skipWord_rest line vb
  obtain ⟨u, ws, hwords, hu, hws, rfl⟩ := words_of_valueEnd h (skipWord_le (lt_length_of_rest htext).le)
  rw [hwordAt] at hwords
  have hsplit := List.takeWhile_append_dropWhile (p := fun c => !isspace c) (l := line.drop vb)
  have hword : Word ((line.drop vb).takeWhile fun c => !isspace c) := by
    refine ⟨?_, fun d hd => by simpa using List.mem_takeWhile_imp hd⟩
    simp [htext, hv]
  rw [hwords, ← List.append_assoc] at hsplit
  rw [skipWord]
  generalize (line.drop vb).takeWhile (fun c => !isspace c) = w at *
  have htake : (line.drop vb).take (vb + w.length + u.length - vb) = w ++ u := by
    rw [← hsplit, show vb + w.length + u.length - vb = (w ++ u).length by simp; omega, List.take_left]
  rw [htake]
  exact ⟨ws, hsplit.symm, ⟨w, u, rfl, hword, hu⟩, hws⟩

theorem cuts_of_tryParseKeyValue {line key value : Str}
    (h : tryParseKeyValue line = some (key, value)) : Cuts line key value := by
  obtain ⟨kb, hkb⟩ : ∃ kb, skipWs line 0 = kb := ⟨_, rfl⟩
  have hkbAt := skipWs_start line
  have hkbLe := skipWs_le (Nat.zero_le line.length)
  unfold tryParseKeyValue at h
  simp only [hkb] at h hkbAt hkbLe
  by_cases hstart : kb = line.length
  · simp [hstart] at h
  obtain ⟨c, rest, hkeyAt⟩ := List.exists_cons_of_ne_nil (mt (eq_length_iff hkbLe).mpr hstart)
  rw [if_neg hstart, rest_succ hkeyAt] at h
  -- the key and the white space behind it
  have hkeyEnd : line.drop (kb + 1 + (rest.takeWhile isKeyChar).length) = rest.dropWhile isKeyChar := by
    rw [← List.drop_drop, rest_succ hkeyAt, drop_takeWhile]
  have hkeySplit := List.takeWhile_append_dropWhile (p := isKeyChar) (l := rest)
  have hkeyChars : ∀ d ∈ rest.takeWhile isKeyChar, isKeyChar d = true := fun d => List.mem_takeWhile_imp
  have hkeyNot := List.head?_dropWhile_not isKeyChar rest
  have hchars : (rest.takeWhile fun c => c != ' ' && c != '\t' && c != '=') = rest.takeWhile isKeyChar := rfl
  rw [hchars] at h
  generalize rest.takeWhile isKeyChar = k at *
  generalize rest.dropWhile isKeyChar = behind at *
  have hsignAt := skipWs_rest line (kb + 1 + k.length)
  rw [hkeyEnd] at hsignAt
  generalize skipWs line (kb + 1 + k.length) = sign at *
  split at h
  · cases h
  rename_i hsign
  rw [not_or, not_not] at hsign
  obtain ⟨after, hafter⟩ := rest_of_charAt (by decide) hsign.2
  -- the value and the white space around it
  have hvbLe : skipWs line (sign + 1) ≤ line.length := skipWs_le (lt_length_of_rest hafter)
  have hvbAt := skipWs_rest line (sign + 1)
  rw [rest_succ hafter] at hvbAt
  have hvbNot := List.head?_dropWhile_not isspace after
  rw [← hvbAt] at hvbNot
  generalize skipWs line (sign + 1) = vb at *
  split at h
  · cases h
  rename_i hvb
  obtain ⟨v, text, htext⟩ := List.exists_cons_of_ne_nil (mt (eq_length_iff hvbLe).mpr hvb)
  have hv : isspace v = false := by simpa [htext] using hvbNot
  obtain ⟨ve, hve, hpair⟩ := Option.map_eq_some_iff.mp h
  obtain ⟨hkey, hvalueEq⟩ := Prod.mk.inj hpair
  obtain ⟨ws₃, hvalueAt, hvalue, hws₃⟩ := value_of_valueEnd htext hv hve
  rw [hvalueEq] at hvalueAt hvalue
  have hkeyEq : key = c :: k := by
    rw [← hkey, hkeyAt, show kb + 1 + k.length - kb = k.length + 1 by omega, List.take_succ_cons,
      ← hkeySplit, List.take_left]
  have hline := List.takeWhile_append_dropWhile (p := isspace) (l := line)
  have hbehind := List.takeWhile_append_dropWhile (p := isspace) (l := behind)
  have hrest := List.takeWhile_append_dropWhile (p := isspace) (l := after)
  rw [← hkbAt, hkeyAt, ← hkeySplit] at hline
  rw [← hsignAt, hafter] at hbehind
  rw [← hvbAt, hvalueAt] at hrest
  have hc : isspace c = false := by
    have hnot := List.head?_dropWhile_not isspace line
    rw [← hkbAt, hkeyAt] at hnot
    simpa using hnot
  refine ⟨line.takeWhile isspace, behind.takeWhile isspace, after.takeWhile isspace, ws₃, ⟨?_, ?_, ?_,
    ?_, hws₃, ⟨c, k, hkeyEq, hc, hkeyChars⟩, hvalue⟩, fun d hd => ?_⟩
  · rw [hkeyEq, hrest, hbehind]
    exact hline.symm
  · exact fun d => List.mem_takeWhile_imp
  · exact fun d => List.mem_takeWhile_imp
  · exact fun d => List.mem_takeWhile_imp
  · obtain ⟨more, hmore⟩ := List.head?_eq_some_iff.mp hd
    rw [hmore] at hbehind
    rw [← hbehind] at hkeyNot
    simpa using hkeyNot

/-! ### The parts are the match -/

theorem matches_word_iff {w : Str} {groups : Groups Char} :
    Matches wordRegex w groups ↔ groups = [] ∧ Word w := by
  rw [wordRegex, matches_plus_cls_iff, Word]
  simp only [Bool.not_eq_true']

theorem matches_blank_iff {ws : Str} {groups : Groups Char} :
    Matches (star (cls isspace)) ws groups ↔ groups = [] ∧ Blank ws :=
  matches_star_cls_iff

theorem matches_key_iff {k : Str} {groups : Groups Char} :
    Matches keyRegex k groups ↔ groups = [] ∧ Key k := by
  rw [keyRegex, matches_seq_iff]
  constructor
  · rintro ⟨u, rest, xs, ys, rfl, rfl, hu, hrest⟩
    obtain ⟨rfl, c, rfl, hc⟩ := matches_cls_iff.mp hu
    obtain ⟨rfl, hchars⟩ := matches_star_cls_iff.mp hrest
    exact ⟨rfl, c, rest, rfl, by simpa using hc, hchars⟩
  · rintro ⟨rfl, c, rest, rfl, hc, hchars⟩
    exact ⟨[c], rest, [], [], rfl, rfl, .cls (by simpa using hc),
      matches_star_cls_iff.mpr ⟨rfl, hchars⟩⟩

theorem words_of_matches {u : Str} {groups : Groups Char}
    (h : Matches (star (group 3 (seq (cls isspace) wordRegex))) u groups) :
    Words u ∧ ∀ g ∈ groups, g.1 = 3 := by
  refine h.star_induction (P := fun u groups => Words u ∧ ∀ g ∈ groups, g.1 = 3) ⟨.nil, by simp⟩ ?_
  rintro u v xs ys hround ⟨hv, hys⟩
  obtain ⟨zs, rfl, hspaced⟩ := matches_group_iff.mp hround
  obtain ⟨space, w, _, _, rfl, rfl, hspace, hmatch⟩ := matches_seq_iff.mp hspaced
  obtain ⟨rfl, c, rfl, hc⟩ := matches_cls_iff.mp hspace
  obtain ⟨rfl, hword⟩ := matches_word_iff.mp hmatch
  exact ⟨.cons hc hword hv, by simpa using hys⟩

theorem Words.exists_matches {u : Str} (h : Words u) :
    ∃ groups, Matches (star (group 3 (seq (cls isspace) wordRegex))) u groups := by
  induction h with
  | nil => exact ⟨[], .star_nil⟩
  | cons hc hw _ ih =>
    obtain ⟨groups, hgroups⟩ := ih
    exact ⟨_, .star_cons (.group (.seq (.cls hc) (matches_word_iff.mpr ⟨rfl, hw⟩))) hgroups⟩

theorem value_of_matches {v : Str} {groups : Groups Char} (h : Matches valueRegex v groups) :
    Value v ∧ ∀ g ∈ groups, g.1 = 3 := by
  obtain ⟨w, u, xs, ys, rfl, rfl, hw, hu⟩ := matches_seq_iff.mp h
  obtain ⟨rfl, hword⟩ := matches_word_iff.mp hw
  obtain ⟨hwords, hgroups⟩ := words_of_matches hu
  exact ⟨⟨w, u, rfl, hword, hwords⟩, hgroups⟩

theorem Value.exists_matches {v : Str} (h : Value v) : ∃ groups, Matches valueRegex v groups := by
  obtain ⟨w, u, rfl, hw, hu⟩ := h
  obtain ⟨groups, hgroups⟩ := hu.exists_matches
  exact ⟨_, .seq (matches_word_iff.mpr ⟨rfl, hw⟩) hgroups⟩

theorem capture_parts (key value : Str) {groups : Groups Char} (h : ∀ g ∈ groups, g.1 = 3) :
    capture 1 ((1, key) :: (groups ++ [(2, value)])) = some key ∧
      capture 2 ((1, key) :: (groups ++ [(2, value)])) = some value := by
  constructor
  · have hlater : ∀ y ∈ groups ++ [(2, value)], y.1 ≠ 1 := by
      intro y hy
      rcases List.mem_append.mp hy with hy | hy
      · simp [h y hy]
      · simp [List.mem_singleton.mp hy]
    exact (capture_append hlater [(1, key)]).trans (capture_last 1 key [])
  · exact capture_last 2 value ((1, key) :: groups)

theorem parts_of_matches {line : Str} {groups : Groups Char} (h : Matches assignmentRegex line groups) :
    ∃ key value ws₀ ws₁ ws₂ ws₃, Parts line key value ws₀ ws₁ ws₂ ws₃ ∧
      capture 1 groups = some key ∧ capture 2 groups = some value := by
  obtain ⟨ws₀, _, _, _, rfl, rfl, hm₀, htail⟩ := matches_seq_iff.mp h
  obtain ⟨key, _, _, _, rfl, rfl, hgroup₁, htail⟩ := matches_seq_iff.mp htail
  obtain ⟨ws₁, _, _, _, rfl, rfl, hm₁, htail⟩ := matches_seq_iff.mp htail
  obtain ⟨sign, _, _, _, rfl, rfl, hsign, htail⟩ := matches_seq_iff.mp htail
  obtain ⟨ws₂, _, _, _, rfl, rfl, hm₂, htail⟩ := matches_seq_iff.mp htail
  obtain ⟨value, ws₃, _, _, rfl, rfl, hgroup₂, hm₃⟩ := matches_seq_iff.mp htail
  obtain ⟨_, rfl, hkeyMatch⟩ := matches_group_iff.mp hgroup₁
  obtain ⟨xs, rfl, hvalueMatch⟩ := matches_group_iff.mp hgroup₂
  obtain ⟨rfl, h₀⟩ := matches_blank_iff.mp hm₀
  obtain ⟨rfl, h₁⟩ := matches_blank_iff.mp hm₁
  obtain ⟨rfl, h₂⟩ := matches_blank_iff.mp hm₂
  obtain ⟨rfl, h₃⟩ := matches_blank_iff.mp hm₃
  obtain ⟨rfl, hkey⟩ := matches_key_iff.mp hkeyMatch
  obtain ⟨rfl, c, rfl, hc⟩ := matches_cls_iff.mp hsign
  obtain rfl : c = '=' := by simpa using hc
  obtain ⟨hvalue, hxs⟩ := value_of_matches hvalueMatch
  refine ⟨key, value, ws₀, ws₁, ws₂, ws₃, ⟨by simp, h₀, h₁, h₂, h₃, hkey, hvalue⟩, ?_, ?_⟩
  · simpa using (capture_parts key value hxs).1
  · simpa using (capture_parts key value hxs).2

theorem Parts.exists_matches {line key value ws₀ ws₁ ws₂ ws₃ : Str}
    (h : Parts line key value ws₀ ws₁ ws₂ ws₃) : ∃ groups, Matches assignmentRegex line groups ∧
      capture 1 groups = some key ∧ capture 2 groups = some value := by
  obtain ⟨rfl, h₀, h₁, h₂, h₃, hkey, hvalue⟩ := h
  obtain ⟨xs, hxs⟩ := hvalue.exists_matches
  have hcapture := capture_parts key value (value_of_matches hxs).2
  have hline := Matches.seq (matches_blank_iff.mpr ⟨rfl, h₀⟩)
    (.seq (.group (i := 1) (matches_key_iff.mpr ⟨rfl, hkey⟩)) (.seq (matches_blank_iff.mpr ⟨rfl, h₁⟩)
      (.seq (.cls (p := (· == '=')) (c := '=') rfl) (.seq (matches_blank_iff.mpr ⟨rfl, h₂⟩)
        (.seq (.group (i := 2) hxs) (matches_blank_iff.mpr ⟨rfl, h₃⟩))))))
  simp only [List.nil_append, List.append_nil, List.singleton_append] at hline
  exact ⟨_, hline, hcapture⟩

theorem Cuts.length_le {line key value : Str} (h : Cuts line key value) {key' value' : Str}
    {ws₀ ws₁ ws₂ ws₃ : Str} (h' : Parts line key' value' ws₀ ws₁ ws₂ ws₃) :
    key'.length ≤ key.length := by
  obtain ⟨_, vs₁, _, _, ⟨hline, hblank, _, _, _, ⟨c, k, rfl, hc, hk⟩, _⟩, hgreedy⟩ := h
  obtain ⟨hline', hblank', _, _, _, ⟨c', k', rfl, hc', hk'⟩, _⟩ := h'
  have hrest := congrArg (List.dropWhile isspace) (hline.symm.trans hline')
  rw [dropWhile_blank hblank (by simpa using hc), dropWhile_blank hblank' (by simpa using hc'),
    List.cons_append, List.cons_append] at hrest
  have hchars := congrArg (List.takeWhile isKeyChar) (List.cons.inj hrest).2
  rw [(takeWhile_dropWhile_append hk _).1, List.takeWhile_append_of_pos hk'] at hchars
  · rw [hchars]
    simp
  · cases vs₁ with
    | nil => simp [isKeyChar]
    | cons d vs₁ => simpa using hgreedy

theorem assignment_iff {line key value : Str} : Assignment line key value ↔ Cuts line key value := by
  constructor
  · rintro ⟨groups, ⟨hmatch, hgreedy⟩, hkey, hvalue⟩
    obtain ⟨key', value', ws₀, ws₁, ws₂, ws₃, hparts, hkey', hvalue'⟩ := parts_of_matches hmatch
    obtain rfl : key' = key := Option.some.inj (hkey'.symm.trans hkey)
    obtain rfl : value' = value := Option.some.inj (hvalue'.symm.trans hvalue)
    refine ⟨ws₀, ws₁, ws₂, ws₃, hparts, fun c hc => ?_⟩
    by_contra hchar
    -- the key could have taken one more character
    obtain ⟨hline, h₀, h₁, h₂, h₃, ⟨x, k, rfl, hx, hk⟩, hval⟩ := hparts
    obtain ⟨ws, rfl⟩ := List.head?_eq_some_iff.mp hc
    have hlonger : Parts line (x :: (k ++ [c])) value' ws₀ ws ws₂ ws₃ := by
      refine ⟨by simpa using hline, h₀, fun d hd => h₁ d (List.mem_cons_of_mem c hd), h₂, h₃,
        ⟨x, k ++ [c], rfl, hx, fun d hd => ?_⟩, hval⟩
      rcases List.mem_append.mp hd with hd | hd
      · exact hk d hd
      · rw [List.mem_singleton.mp hd]
        simpa using hchar
    obtain ⟨groups', hmatch', hcapture, _⟩ := hlonger.exists_matches
    have hle := hgreedy groups' hmatch' _ hkey _ hcapture
    simp only [List.length_cons, List.length_append, List.length_nil] at hle
    omega
  · rintro ⟨ws₀, ws₁, ws₂, ws₃, hparts, hgreedy⟩
    obtain ⟨groups, hmatch, hkey, hvalue⟩ := hparts.exists_matches
    refine ⟨groups, ⟨hmatch, fun groups' hmatch' u hu u' hu' => ?_⟩, hkey, hvalue⟩
    obtain ⟨key', value', _, _, _, _, hparts', hkey', _⟩ := parts_of_matches hmatch'
    obtain rfl : key = u := Option.some.inj (hkey.symm.trans hu)
    obtain rfl : key' = u' := Option.some.inj (hkey'.symm.trans hu')
    exact Cuts.length_le ⟨ws₀, ws₁, ws₂, ws₃, hparts, hgreedy⟩ hparts'

theorem tryParseKeyValue_iff {line key value : Str} :
    tryParseKeyValue line = some (key, value) ↔ Assignment line key value := by
  rw [assignment_iff]
  exact ⟨cuts_of_tryParseKeyValue, tryParseKeyValue_of_cuts⟩

/-- The source classifies every line as the reference does. -/
theorem classified_iff {line : Str} {kind : LineKind} : Classified line kind ↔ classify line = kind := by
  have hheader : tryParseSection line = none ↔ ∀ name, ¬ Header line name := by
    simp only [Option.eq_none_iff_forall_ne_some, ne_eq, tryParseSection_iff]
  have hassign : tryParseKeyValue line = none ↔ ∀ key value, ¬ Assignment line key value := by
    simp only [Option.eq_none_iff_forall_ne_some, ne_eq, Prod.forall, tryParseKeyValue_iff]
  constructor
  · intro h
    cases h with
    | blank h => simp [classify, isBlank_iff.mpr h]
    | comment hblank h =>
      rw [← isBlank_iff] at hblank
      simp [classify, hblank, isComment_iff.mpr h]
    | header hblank hcomment h =>
      rw [← isBlank_iff] at hblank
      rw [← isComment_iff] at hcomment
      simp [classify, hblank, hcomment, tryParseSection_iff.mpr h]
    | assignment hblank hcomment hno h =>
      rw [← isBlank_iff] at hblank
      rw [← isComment_iff] at hcomment
      simp [classify, hblank, hcomment, hheader.mpr hno, tryParseKeyValue_iff.mpr h]
    | malformed hblank hcomment hno h =>
      rw [← isBlank_iff] at hblank
      rw [← isComment_iff] at hcomment
      simp [classify, hblank, hcomment, hheader.mpr hno, hassign.mpr h]
  · rintro rfl
    unfold classify
    split_ifs with hblank hcomment
    · exact .blank (isBlank_iff.mp hblank)
    · rw [isBlank_iff] at hblank
      exact .comment hblank (isComment_iff.mp hcomment)
    · rw [isBlank_iff] at hblank
      rw [isComment_iff] at hcomment
      cases hsection : tryParseSection line with
      | some name => exact .header hblank hcomment (tryParseSection_iff.mp hsection)
      | none =>
        have hno := hheader.mp hsection
        cases hkv : tryParseKeyValue line with
        | some kv => exact .assignment hblank hcomment hno (tryParseKeyValue_iff.mp hkv)
        | none => exact .malformed hblank hcomment hno (hassign.mp hkv)

end PQuery.Config

import PQuery.Library.Stepping
import PQuery.SqlFile.Refinement

/-!
# DELIMITER as the MySQL client reads it

The client takes the word DELIMITER in any letter case, with any blank or tab behind it, and makes the
first word behind that the delimiter, whatever follows it. `clientCommand` is this reading of a line
and `Moment.clientNext` the scan that uses it; the splitter's own reading agrees with it on exactly the
lines that are `Understood`, so the two scans stay together exactly as long as they read such lines.
-/

namespace PQuery.SqlFile

open ListScan Stepping

/-! ### The client's reading of a line -/

/-- The parts of a line that is a DELIMITER command of the client. -/
structure DelimiterLine (line : Str) where
  indent : Str
  keyword : Str
  separator : Char
  gap : Str
  delimiter : Str
  tail : Str
  spelled : line = indent ++ (keyword ++ separator :: (gap ++ (delimiter ++ tail)))
  indent_blank : ∀ c ∈ indent, isBlank c = true
  keyword_lower : keyword.map tolower = "delimiter".toList
  separator_blank : separator = ' ' ∨ separator = '\t'
  gap_blank : ∀ c ∈ gap, isBlank c = true
  delimiter_ne : delimiter ≠ []
  delimiter_word : ∀ c ∈ delimiter, isBlank c = false
  tail_head : ∀ c ∈ tail.head?, isBlank c = true

/-- The delimiter that a line sets in the client. -/
def clientCommand (line : Str) : Option Str :=
  let text := line.dropWhile isBlank
  let keyword := text.takeWhile (! isBlank ·)
  match text.dropWhile (! isBlank ·) with
  | [] => none
  | separator :: argument =>
    let delimiter := (argument.dropWhile isBlank).takeWhile (! isBlank ·)
    if keyword.map tolower = "delimiter".toList ∧ (separator = ' ' ∨ separator = '\t') ∧
        delimiter ≠ [] then some delimiter
    else none

/-- The DELIMITER commands that the splitter reads as the client does: the word in capitals or in small
letters, a blank behind it, and only blanks behind the delimiter. -/
def Understood (line : Str) : Prop :=
  ∀ l : DelimiterLine line, (l.keyword = "DELIMITER".toList ∨ l.keyword = "delimiter".toList) ∧
    l.separator = ' ' ∧ ∀ c ∈ l.tail, isBlank c = true

section line
variable {line : Str}

theorem isBlank_of_keyword {keyword : Str} (h : keyword.map tolower = "delimiter".toList) :
    ∀ c ∈ keyword, isBlank c = false := by
  intro c hc
  by_contra hblank
  have hmem : tolower c ∈ "delimiter".toList := h ▸ List.mem_map_of_mem hc
  simp only [isBlank, Bool.not_eq_false, Bool.or_eq_true, beq_iff_eq] at hblank
  rcases hblank with ((rfl | rfl) | rfl) | rfl <;> exact absurd hmem (by decide)

theorem word_append {word rest : Str} (hword : ∀ c ∈ word, isBlank c = false)
    (hrest : ∀ c ∈ rest.head?, isBlank c = true) :
    (word ++ rest).takeWhile (! isBlank ·) = word ∧ (word ++ rest).dropWhile (! isBlank ·) = rest :=
  takeWhile_dropWhile_append (by simpa using hword) (by simpa using hrest)

theorem blanks_append {blanks rest : Str} (hblanks : ∀ c ∈ blanks, isBlank c = true)
    (hrest : ∀ c ∈ rest.head?, isBlank c = false) : (blanks ++ rest).dropWhile isBlank = rest :=
  (takeWhile_dropWhile_append hblanks hrest).2

theorem nonempty_delimiterLine {indent keyword argument : Str} {separator : Char}
    (hindent : ∀ c ∈ indent, isBlank c = true) (hkeyword : keyword.map tolower = "delimiter".toList)
    (hseparator : separator = ' ' ∨ separator = '\t')
    (hargument : ¬ ∀ c ∈ argument, isBlank c = true) :
    Nonempty (DelimiterLine (indent ++ (keyword ++ separator :: argument))) := by
  have hgap := List.takeWhile_append_dropWhile (p := isBlank) (l := argument)
  have hword := List.takeWhile_append_dropWhile (p := (! isBlank ·)) (l := argument.dropWhile isBlank)
  have hne : argument.dropWhile isBlank ≠ [] := fun hnil => hargument (List.dropWhile_eq_nil_iff.mp hnil)
  have hhead := List.head?_dropWhile_not isBlank argument
  obtain ⟨c, rest, hrest⟩ := List.exists_cons_of_ne_nil hne
  rw [hrest] at hhead
  refine ⟨{
    indent := indent
    keyword := keyword
    separator := separator
    gap := argument.takeWhile isBlank
    delimiter := (argument.dropWhile isBlank).takeWhile (! isBlank ·)
    tail := (argument.dropWhile isBlank).dropWhile (! isBlank ·)
    spelled := by rw [hword, hgap]
    indent_blank := hindent
    keyword_lower := hkeyword
    separator_blank := hseparator
    gap_blank := fun _ => List.mem_takeWhile_imp
    delimiter_ne := ?_
    delimiter_word := fun c hc => by simpa using List.mem_takeWhile_imp hc
    tail_head := ?_ }⟩
  · have hc : isBlank c = false := by simpa using hhead
    simp [hrest, hc]
  · intro x hx
    have hnot := List.head?_dropWhile_not (! isBlank ·) (argument.dropWhile isBlank)
    rw [hx] at hnot
    simpa using hnot

theorem clientCommand_delimiterLine (l : DelimiterLine line) :
    clientCommand line = some l.delimiter := by
  have hkeyword := isBlank_of_keyword l.keyword_lower
  have hseparator : isBlank l.separator = true := by
    rcases l.separator_blank with h | h <;> rw [h] <;> decide
  obtain ⟨c, keyword, hcons⟩ : ∃ c keyword, l.keyword = c :: keyword :=
    List.exists_cons_of_ne_nil fun hnil => by simpa [hnil] using l.keyword_lower
  have htext : line.dropWhile isBlank =
      l.keyword ++ l.separator :: (l.gap ++ (l.delimiter ++ l.tail)) := by
    conv_lhs => rw [l.spelled]
    refine blanks_append l.indent_blank fun x hx => hkeyword x ?_
    simp_all
  obtain ⟨d, delimiter, hd⟩ := List.exists_cons_of_ne_nil l.delimiter_ne
  have hargument : (l.gap ++ (l.delimiter ++ l.tail)).dropWhile isBlank = l.delimiter ++ l.tail := by
    refine blanks_append l.gap_blank fun x hx => l.delimiter_word x ?_
    simp_all
  obtain ⟨hword, hrest⟩ := @word_append l.keyword (l.separator :: (l.gap ++ (l.delimiter ++ l.tail)))
    hkeyword (by simpa using hseparator)
  simp only [clientCommand, htext, hword, hrest, hargument,
    (word_append l.delimiter_word l.tail_head).1]
  rw [if_pos ⟨l.keyword_lower, l.separator_blank, l.delimiter_ne⟩]

theorem clientCommand_eq_some {d : Str} :
    clientCommand line = some d ↔ ∃ l : DelimiterLine line, l.delimiter = d := by
  constructor
  · intro h
    have hcommand := h
    simp only [clientCommand] at h
    split at h
    · simp at h
    · rename_i separator argument hargument
      obtain ⟨⟨hkeyword, hseparator, hne⟩, -⟩ := Option.ite_none_right_eq_some.mp h
      have hindent := List.takeWhile_append_dropWhile (p := isBlank) (l := line)
      have hsplit := List.takeWhile_append_dropWhile (p := (! isBlank ·)) (l := line.dropWhile isBlank)
      rw [hargument] at hsplit
      rw [← hsplit] at hindent
      obtain ⟨l⟩ := @nonempty_delimiterLine (line.takeWhile isBlank) _ argument separator
        (fun _ => List.mem_takeWhile_imp) hkeyword hseparator fun hblank => hne (by
          rw [List.dropWhile_eq_nil_iff.mpr hblank]
          rfl)
      rw [hindent] at l
      exact ⟨l, Option.some.inj ((clientCommand_delimiterLine l).symm.trans hcommand)⟩
  · rintro ⟨l, rfl⟩
    exact clientCommand_delimiterLine l

/-! ### The splitter's reading of a line -/

theorem trim_argument (l : DelimiterLine line) :
    ∃ blanks, (∀ c ∈ blanks, isBlank c = true) ∧
      l.delimiter ++ l.tail = trim (l.delimiter ++ l.tail) ++ blanks ∧
        trim (l.delimiter ++ l.tail) ≠ [] := by
  obtain ⟨d, delimiter, hd⟩ := List.exists_cons_of_ne_nil l.delimiter_ne
  have hblank : isBlank d = false := l.delimiter_word d (by simp [hd])
  obtain ⟨left, right, hsplit, hleft, hright⟩ := exists_strip isBlank (l.delimiter ++ l.tail)
  have hnil : left = [] := by
    by_contra hne
    obtain ⟨x, left, rfl⟩ := List.exists_cons_of_ne_nil hne
    rw [hd, List.cons_append, List.cons_append] at hsplit
    obtain rfl := (List.cons.inj hsplit).1
    simpa [hblank] using hleft d (by simp)
  rw [hnil, List.nil_append] at hsplit
  refine ⟨right, hright, hsplit, fun htrim => ?_⟩
  have hall := strip_eq_nil.mp htrim d (by simp [hd])
  simp [hblank] at hall

theorem length_keyword {keyword : Str} (h : keyword.map tolower = "delimiter".toList) :
    keyword.length = 9 := by
  rw [← List.length_map tolower, h]
  rfl

theorem drop_keyword {keyword rest : Str} (h : keyword.length = 9) (separator : Char) :
    (keyword ++ separator :: rest).drop "DELIMITER ".toList.length = rest := by
  rw [List.append_cons, List.drop_left' (by simp [h])]

theorem prefix_keyword {keyword word rest : Str} {separator : Char} (h : keyword.length = 9)
    (hword : word.length = 9) :
    (word ++ [' ']) <+: keyword ++ separator :: rest ↔ keyword = word ∧ separator = ' ' := by
  rw [List.append_cons keyword, prefix_append_of_length_le (by simp; omega)]
  constructor
  · intro hbegin
    obtain ⟨hsame, hblank⟩ := List.append_inj' (hbegin.eq_of_length (by simp; omega)) rfl
    exact ⟨hsame.symm, (List.singleton_inj.mp hblank).symm⟩
  · rintro ⟨rfl, hseparator⟩
    rw [hseparator]

theorem trim_delimiterLine (l : DelimiterLine line) :
    trim line = l.keyword ++ l.separator :: (l.gap ++ trim (l.delimiter ++ l.tail)) := by
  obtain ⟨blanks, hblanks, hargument, hne⟩ := trim_argument l
  have hlength := length_keyword l.keyword_lower
  have hhead : ∀ c ∈ (l.keyword ++ l.separator :: (l.gap ++ trim (l.delimiter ++ l.tail))).head?,
      isBlank c = false := by
    intro c hc
    rw [List.head?_append_of_ne_nil _ (List.length_pos_iff.mp (by omega))] at hc
    exact isBlank_of_keyword l.keyword_lower c (List.mem_of_mem_head? hc)
  have hlast : ∀ c ∈ (l.keyword ++ l.separator :: (l.gap ++ trim (l.delimiter ++ l.tail))).getLast?,
      isBlank c = false := by
    rw [List.getLast?_append_of_ne_nil _ (by simp), List.getLast?_cons_of_ne_nil (by simp [hne]),
      List.getLast?_append_of_ne_nil _ hne]
    exact getLast?_strip isBlank _
  have hstrip := strip_append (by simp) hhead hlast l.indent blanks
  rw [List.dropWhile_eq_nil_iff.mpr l.indent_blank, List.rdropWhile_eq_nil_iff.mpr hblanks] at hstrip
  conv_lhs => rw [l.spelled, hargument]
  simpa [trim] using hstrip

theorem isDelimiterCommand_delimiterLine (l : DelimiterLine line) :
    isDelimiterCommand line =
      if (l.keyword = "DELIMITER".toList ∨ l.keyword = "delimiter".toList) ∧ l.separator = ' ' then
        some (trim (l.delimiter ++ l.tail))
      else none := by
  obtain ⟨-, -, -, hne⟩ := trim_argument l
  have hline := trim_delimiterLine l
  have hvalue : trim (trim (l.delimiter ++ l.tail)) = trim (l.delimiter ++ l.tail) := strip_strip isBlank _
  generalize trim (l.delimiter ++ l.tail) = value at hline hne hvalue ⊢
  have hkeyword := length_keyword l.keyword_lower
  have hpos := List.length_pos_iff.mpr hne
  have hlength : ¬ (l.keyword ++ l.separator :: (l.gap ++ value)).length ≤ "DELIMITER ".toList.length := by
    have h10 : "DELIMITER ".toList.length = 10 := rfl
    simp only [List.length_append, List.length_cons, h10]
    omega
  have hupper : "DELIMITER ".toList <+: l.keyword ++ l.separator :: (l.gap ++ value) ↔
      l.keyword = "DELIMITER".toList ∧ l.separator = ' ' :=
    @prefix_keyword l.keyword "DELIMITER".toList _ _ hkeyword rfl
  have hlower : "delimiter ".toList <+: l.keyword ++ l.separator :: (l.gap ++ value) ↔
      l.keyword = "delimiter".toList ∧ l.separator = ' ' :=
    @prefix_keyword l.keyword "delimiter".toList _ _ hkeyword rfl
  simp only [isDelimiterCommand, hline, if_neg hlength, drop_keyword hkeyword,
    trim_blank_append l.gap_blank, hvalue, hupper, hlower, or_and_right, List.isEmpty_iff, hne, if_false,
    ite_not]

theorem nonempty_of_isDelimiterCommand {d : Str} (h : isDelimiterCommand line = some d) :
    Nonempty (DelimiterLine line) := by
  simp only [isDelimiterCommand] at h
  split_ifs at h with hlen hprefix hempty
  obtain ⟨keyword, hkeyword, argument, hline⟩ : ∃ keyword : Str, keyword.map tolower = "delimiter".toList ∧
      ∃ argument, trim line = keyword ++ ' ' :: argument := by
    rcases hprefix with ⟨argument, h⟩ | ⟨argument, h⟩
    · exact ⟨"DELIMITER".toList, by decide, argument, h.symm⟩
    · exact ⟨"delimiter".toList, by decide, argument, h.symm⟩
  obtain ⟨left, right, hsplit, hleft, hright⟩ := exists_strip isBlank line
  have hspelled : line = left ++ (keyword ++ ' ' :: (argument ++ right)) := by
    rw [hsplit, show strip isBlank line = keyword ++ ' ' :: argument from hline]
    simp
  rw [hspelled]
  refine nonempty_delimiterLine hleft hkeyword (Or.inl rfl) fun hblank => hempty ?_
  have hdrop : (trim line).drop "DELIMITER ".toList.length = argument := by
    rw [hline]
    exact drop_keyword (length_keyword hkeyword) ' '
  rw [hdrop, List.isEmpty_iff]
  exact strip_eq_nil.mpr fun c hc => hblank c (by simp [hc])

/-- **The lines that the splitter reads as the client.** -/
theorem isDelimiterCommand_eq_clientCommand :
    isDelimiterCommand line = clientCommand line ↔ Understood line := by
  constructor
  · intro h l
    rw [isDelimiterCommand_delimiterLine l, clientCommand_delimiterLine l] at h
    obtain ⟨⟨hkeyword, hseparator⟩, hvalue⟩ := Option.ite_none_right_eq_some.mp h
    obtain ⟨blanks, hblanks, hargument, -⟩ := trim_argument l
    rw [Option.some.inj hvalue, List.append_cancel_left_eq] at hargument
    exact ⟨hkeyword, hseparator, hargument ▸ hblanks⟩
  · intro h
    rcases isEmpty_or_nonempty (DelimiterLine line) with hnone | ⟨⟨l⟩⟩
    · have hcode : isDelimiterCommand line = none :=
        Option.eq_none_iff_forall_ne_some.mpr fun d hd => hnone.elim (nonempty_of_isDelimiterCommand hd).some
      have hclient : clientCommand line = none :=
        Option.eq_none_iff_forall_ne_some.mpr fun d hd => hnone.elim (clientCommand_eq_some.mp hd).choose
      rw [hcode, hclient]
    · obtain ⟨hkeyword, hseparator, htail⟩ := h l
      have hvalue : trim (l.delimiter ++ l.tail) = l.delimiter := by
        have hstrip := strip_append l.delimiter_ne
          (fun c hc => l.delimiter_word c (List.mem_of_mem_head? hc))
          (fun c hc => l.delimiter_word c (List.mem_of_mem_getLast? hc)) [] l.tail
        rw [List.rdropWhile_eq_nil_iff.mpr htail] at hstrip
        simpa [trim] using hstrip
      rw [isDelimiterCommand_delimiterLine l, clientCommand_delimiterLine l,
        if_pos ⟨hkeyword, hseparator⟩, hvalue]

end line

/-! ### The client's scan -/

/-- The DELIMITER command of the client that a line is, where it starts in the Normal state. -/
def clientDelimiterCommand (s : Splitter) (line : Str) : Option Str :=
  if s.state = .Normal then clientCommand line else none

/-- The step of the client's scan: the splitter's, but for the reading of DELIMITER lines. -/
def Moment.clientNext (dollarQuoting : Bool) : Moment → Option Moment
  | .reading [] _ => none
  | .reading (line :: rest) s =>
    match clientDelimiterCommand s line with
    | some newDelimiter => some (.reading rest { s with delimiter := newDelimiter })
    | none => some (.scanning (line ++ ['\n']) 0 rest s)
  | .scanning line pos rest s => (Moment.scanning line pos rest s).next dollarQuoting

def clientScanLines (dollarQuoting : Bool) : List Str → Splitter → Splitter
  | [], s => s
  | line :: rest, s =>
    match clientDelimiterCommand s line with
    | some newDelimiter => clientScanLines dollarQuoting rest { s with delimiter := newDelimiter }
    | none =>
      let line := line ++ ['\n']
      clientScanLines dollarQuoting rest (scanLine dollarQuoting line line.length 0 s)

/-- The statements of a file as the client splits it. -/
def clientStatements (dollarQuoting : Bool) (file : Str) : List Str :=
  (pushStatement (clientScanLines dollarQuoting (lines '\n' file) (initial []))).queryList

/-- The moment before the first line. -/
def start (file : Str) : Moment := .reading (lines '\n' file) (initial [])

/-- After every number of steps the splitter stands where the client stands, with the same delimiter in
force, the same pending statement and the same statements cut off, and in the end it has the same
statements. -/
def SplitsAsClient (dollarQuoting : Bool) (file : Str) : Prop :=
  (∀ n, afterSteps (Moment.next dollarQuoting) n (start file) =
    afterSteps (Moment.clientNext dollarQuoting) n (start file)) ∧
  loadQueriesFromFile dollarQuoting [] file = clientStatements dollarQuoting file

section scan
variable {dollarQuoting : Bool}

theorem next_eq_clientNext_iff {line : Str} {rest : List Str} {s : Splitter} :
    (Moment.reading (line :: rest) s).next dollarQuoting =
        (Moment.reading (line :: rest) s).clientNext dollarQuoting ↔
      delimiterCommand s line = clientDelimiterCommand s line := by
  rw [Moment.next, Moment.clientNext]
  cases delimiterCommand s line <;> cases clientDelimiterCommand s line <;> simp

theorem delimiterCommand_eq_client_iff {line : Str} {s : Splitter} :
    delimiterCommand s line = clientDelimiterCommand s line ↔
      (s.state = .Normal → Understood line) := by
  rw [delimiterCommand, clientDelimiterCommand]
  by_cases hstate : s.state = .Normal
  · rw [if_pos hstate, if_pos hstate, isDelimiterCommand_eq_clientCommand]
    exact ⟨fun h _ => h, fun h => h hstate⟩
  · rw [if_neg hstate, if_neg hstate]
    exact ⟨fun _ h => absurd h hstate, fun _ => rfl⟩

/-- The scans part at a line that the splitter does not understand, and nowhere else. -/
theorem forall_next_eq_iff {m : Moment} :
    (∀ m', Reach (Moment.clientNext dollarQuoting) m m' →
        m'.next dollarQuoting = m'.clientNext dollarQuoting) ↔
      ∀ line rest s, Reach (Moment.clientNext dollarQuoting) m (.reading (line :: rest) s) →
        s.state = .Normal → Understood line := by
  constructor
  · intro h line rest s hreach
    exact delimiterCommand_eq_client_iff.mp (next_eq_clientNext_iff.mp (h _ hreach))
  · intro h m' hreach
    rcases m' with ⟨_ | ⟨line, rest⟩, s⟩ | ⟨line, pos, rest, s⟩
    · rfl
    · exact next_eq_clientNext_iff.mpr (delimiterCommand_eq_client_iff.mpr (h line rest s hreach))
    · rfl

theorem scanLines_eq_client {ls : List Str} {s : Splitter}
    (h : ∀ line rest t, Reach (Moment.clientNext dollarQuoting) (.reading ls s)
      (.reading (line :: rest) t) → t.state = .Normal → Understood line) :
    scanLines dollarQuoting ls s = clientScanLines dollarQuoting ls s := by
  induction ls generalizing s with
  | nil => rfl
  | cons line rest ih =>
    have hread : delimiterCommand s line = clientDelimiterCommand s line :=
      delimiterCommand_eq_client_iff.mpr (h line rest s Relation.ReflTransGen.refl)
    rw [scanLines, clientScanLines, hread]
    cases hcmd : clientDelimiterCommand s line with
    | some newDelimiter =>
      refine ih fun l r t hreach => h l r t (Relation.ReflTransGen.head ?_ hreach)
      rw [Moment.clientNext, hcmd]
    | none =>
      have hscan : Reach (Moment.clientNext dollarQuoting) (.scanning (line ++ ['\n']) 0 rest s)
          (.reading rest (scanLine dollarQuoting (line ++ ['\n']) (line ++ ['\n']).length 0 s)) :=
        scanLine_moments (fun _ _ _ _ => rfl) (by omega)
      refine ih fun l r t hreach => h l r t (Relation.ReflTransGen.head ?_ (hscan.trans hreach))
      rw [Moment.clientNext, hcmd]

/-- **DELIMITER as in the client.** The splitter cuts a script as the client does if and only if it
understands every line outside literals and comments, in the client's reading of the script. -/
theorem splitsAsClient_iff (dollarQuoting : Bool) (file : Str) :
    SplitsAsClient dollarQuoting file ↔
      ∀ line rest s, Reach (Moment.clientNext dollarQuoting) (start file) (.reading (line :: rest) s) →
        s.state = .Normal → Understood line := by
  rw [SplitsAsClient, afterSteps_eq_iff, forall_next_eq_iff]
  refine ⟨fun h => h.1, fun h => ⟨h, ?_⟩⟩
  rw [loadQueriesFromFile, splitStatements, clientStatements, scanLines_eq_client h]

/-- A comment behind the delimiter becomes part of it, and no later statement is cut off. -/
theorem splitStatements_not_client :
    loadQueriesFromFile false [] "DELIMITER ; -- back\nSELECT 1;\nSELECT 2;\n".toList =
        ["SELECT 1;\nSELECT 2;".toList] ∧
      clientStatements false "DELIMITER ; -- back\nSELECT 1;\nSELECT 2;\n".toList =
        ["SELECT 1".toList, "SELECT 2".toList] ∧
      ¬ SplitsAsClient false "DELIMITER ; -- back\nSELECT 1;\nSELECT 2;\n".toList := by
  have hcode : loadQueriesFromFile false [] "DELIMITER ; -- back\nSELECT 1;\nSELECT 2;\n".toList =
      ["SELECT 1;\nSELECT 2;".toList] := by decide
  have hclient : clientStatements false "DELIMITER ; -- back\nSELECT 1;\nSELECT 2;\n".toList =
      ["SELECT 1".toList, "SELECT 2".toList] := by decide
  refine ⟨hcode, hclient, fun h => ?_⟩
  have heq := h.2
  rw [hcode, hclient] at heq
  exact absurd heq (by decide)

/-- So are small and capital letters mixed, and a tab behind the word. -/
example : clientStatements false "Delimiter\t$$\nSELECT 1$$\n".toList = ["SELECT 1".toList] ∧
    loadQueriesFromFile false [] "Delimiter\t$$\nSELECT 1$$\n".toList =
      ["Delimiter\t$$\nSELECT 1$$".toList] := by decide

end scan

end PQuery.SqlFile

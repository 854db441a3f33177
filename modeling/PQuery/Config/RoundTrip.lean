import PQuery.Config.Semantics

/-!
# Configurations that are written and read back

A section is a name and a list of assignments, each text with the conditions under which it can be
written. Each rendered line is of one kind only (`classify_header`, `classify_assignment`), whatever
characters with a meaning of their own the texts contain, so the kinds of a rendered file are those
of the sections, with blank and comment lines between them (`Rendered.kinds`).
-/

namespace PQuery.Config

open ListScan

/-- A key that is the first word of its line and starts no header or comment. -/
structure KeyText (key : Str) : Prop where
  ne : key ≠ []
  noSpace : ∀ c ∈ key, isspace c = false
  head : ∀ c ∈ key.head?, c ∉ ['[', '#', ';']
  noDashes : ¬ ['-', '-'] <+: key
  noSign : '=' ∉ key.tail

/-- Words joined by single white space, in one line. -/
structure ValueText (value : Str) : Prop where
  words : Value value
  line : '\n' ∉ value

theorem valueText_of_words {w : Str} {ws : List Str} (h : ∀ x ∈ w :: ws, Word x) :
    ValueText (w ++ ws.flatMap (' ' :: ·)) := by
  have hwords : ∀ {ws : List Str}, (∀ x ∈ ws, Word x) → Words (ws.flatMap (' ' :: ·)) := by
    intro ws hws
    induction ws with
    | nil => exact .nil
    | cons x ws ih =>
      rw [List.forall_mem_cons] at hws
      exact .cons rfl hws.1 (ih hws.2)
  have hline : ∀ x ∈ w :: ws, '\n' ∉ x := fun x hx hnl => by
    have hspace := (h x hx).2 _ hnl
    simp [isspace] at hspace
  rw [List.forall_mem_cons] at h hline
  refine ⟨⟨w, _, rfl, h.1, hwords h.2⟩, fun hnl => ?_⟩
  rcases List.mem_append.mp hnl with hnl | hnl
  · exact hline.1 hnl
  · obtain ⟨x, hx, hmem⟩ := List.mem_flatMap.mp hnl
    rcases List.mem_cons.mp hmem with hblank | hmem
    · cases hblank
    · exact hline.2 x hx hmem

structure NameText (name : Str) : Prop where
  ne : name ≠ []
  noBracket : ']' ∉ name
  line : '\n' ∉ name

structure Entry where
  key : Str
  value : Str
  key_text : KeyText key
  value_text : ValueText value

structure Section where
  name : Str
  name_text : NameText name
  entries : List Entry

def Entry.line (e : Entry) : Str := e.key ++ " = ".toList ++ e.value

def Section.header (s : Section) : Str := '[' :: (s.name ++ [']'])

def Section.lines (s : Section) : List Str := s.header :: s.entries.map Entry.line

/-- What a section has written, in order. -/
def Section.written (s : Section) : List ((Str × Str) × Str) :=
  s.entries.map fun e => ((s.name, e.key), e.value)

/-- The lines of a file: the rendered lines, with blank and comment lines anywhere between them. -/
inductive Rendered : List Str → List Str → Prop
  | nil : Rendered [] []
  | line {rendered ls : List Str} (l : Str) (h : Rendered rendered ls) :
      Rendered (l :: rendered) (l :: ls)
  | between {rendered ls : List Str} (l : Str) (hl : Blank l ∨ Comment l) (hnl : '\n' ∉ l)
      (h : Rendered rendered ls) : Rendered rendered (l :: ls)

/-! ### The kind of a rendered line -/

theorem classify_header (s : Section) : classify s.header = .header s.name := by
  have hdrop : s.header.dropWhile isspace = '[' :: (s.name ++ [']']) :=
    List.dropWhile_cons_of_neg (by decide)
  refine classified_iff.mp (.header (fun hblank => ?_) (fun hcomment => ?_) ?_)
  · have hspace := hblank '[' (by simp [Section.header])
    simp [isspace] at hspace
  · rw [comment_iff, hdrop] at hcomment
    simp [List.cons_prefix_cons] at hcomment
  · exact header_iff.mpr ⟨hdrop, s.name_text.ne, s.name_text.noBracket⟩

theorem Entry.cuts (e : Entry) : Cuts e.line e.key e.value := by
  obtain ⟨c, k, hkey⟩ := List.exists_cons_of_ne_nil e.key_text.ne
  have hc : isspace c = false := e.key_text.noSpace c (by simp [hkey])
  have hchars : ∀ d ∈ k, isKeyChar d = true := by
    intro d hd
    have hspace := e.key_text.noSpace d (by simp [hkey, hd])
    have hsign : d ≠ '=' := by
      rintro rfl
      exact e.key_text.noSign (by simpa [hkey] using hd)
    have hblank : d ≠ ' ' ∧ d ≠ '\t' := by
      constructor <;> rintro rfl <;> simp [isspace] at hspace
    simp [isKeyChar, hsign, hblank]
  refine ⟨[], [' '], [' '], [], ⟨?_, ?_, ?_, ?_, ?_, ⟨c, k, hkey, hc, hchars⟩, e.value_text.words⟩, ?_⟩
  · simp [Entry.line]
  · simp [Blank]
  · simp [Blank, isspace]
  · simp [Blank, isspace]
  · simp [Blank]
  · simp [isKeyChar]

theorem classify_entry (e : Entry) : classify e.line = .assignment e.key e.value := by
  obtain ⟨c, k, hkey⟩ := List.exists_cons_of_ne_nil e.key_text.ne
  have hc : isspace c = false := e.key_text.noSpace c (by simp [hkey])
  have hhead : c ∉ ['[', '#', ';'] := e.key_text.head c (by simp [hkey])
  have hline : e.line = c :: (k ++ " = ".toList ++ e.value) := by simp [Entry.line, hkey]
  have hdrop : e.line.dropWhile isspace = c :: (k ++ " = ".toList ++ e.value) := by
    rw [hline, List.dropWhile_cons_of_neg (by simp [hc])]
  simp only [List.mem_cons, List.not_mem_nil, or_false, not_or] at hhead
  refine classified_iff.mp (.assignment (fun hblank => ?_) (fun hcomment => ?_) (fun name hheader => ?_) ?_)
  · have hspace := hblank c (by simp [hline])
    simp [hc] at hspace
  · rw [comment_iff, hdrop] at hcomment
    rcases hcomment with hopen | hopen | hopen
    · exact hhead.2.2 (List.cons_prefix_cons.mp hopen).1.symm
    · exact hhead.2.1 (List.cons_prefix_cons.mp hopen).1.symm
    · -- two dashes, both of them in the key
      have hspelled : c :: (k ++ " = ".toList ++ e.value) = e.key ++ ' ' :: ("= ".toList ++ e.value) := by
        simp [hkey]
      rw [hspelled, prefix_append_cons (by decide)] at hopen
      exact e.key_text.noDashes hopen
  · rw [header_iff, hdrop] at hheader
    exact hhead.1 (List.cons.inj hheader.1).1
  · exact assignment_iff.mpr e.cuts

theorem classify_between {l : Str} (hl : Blank l ∨ Comment l) :
    classify l = .blank ∨ classify l = .comment := by
  by_cases hblank : Blank l
  · exact .inl (classified_iff.mp (.blank hblank))
  · exact .inr (classified_iff.mp (.comment hblank (hl.resolve_left hblank)))

/-! ### The kinds of a rendered file -/

def Section.kinds (s : Section) : List LineKind :=
  .header s.name :: s.entries.map fun e => .assignment e.key e.value

theorem classify_lines (sections : List Section) :
    (sections.flatMap Section.lines).map classify = sections.flatMap Section.kinds := by
  rw [List.map_flatMap]
  refine List.flatMap_congr fun s _ => ?_
  rw [Section.lines, Section.kinds, List.map_cons, classify_header, List.map_map]
  congr 1
  exact List.map_congr_left fun e _ => classify_entry e

theorem Rendered.kinds {rendered ls : List Str} (h : Rendered rendered ls) :
    headers (ls.map classify) = headers (rendered.map classify) ∧
      (∀ above, assignments above (ls.map classify) = assignments above (rendered.map classify)) ∧
      (.malformed ∈ ls.map classify ↔ .malformed ∈ rendered.map classify) := by
  induction h with
  | nil => exact ⟨rfl, fun _ => rfl, Iff.rfl⟩
  | line l _ ih =>
    obtain ⟨hheaders, hassignments, hmalformed⟩ := ih
    rw [List.map_cons, List.map_cons]
    refine ⟨?_, fun above => ?_, ?_⟩
    · rw [headers, headers, List.filterMap_cons, List.filterMap_cons]
      rw [headers, headers] at hheaders
      rw [hheaders]
    · cases classify l <;> simp [assignments, hassignments]
    · rw [List.mem_cons, List.mem_cons, hmalformed]
  | between l hl _ _ ih =>
    obtain ⟨hheaders, hassignments, hmalformed⟩ := ih
    rw [List.map_cons]
    rcases classify_between hl with hkind | hkind
    · rw [hkind]
      exact ⟨hheaders, hassignments, by simpa using hmalformed⟩
    · rw [hkind]
      exact ⟨hheaders, hassignments, by simpa using hmalformed⟩

theorem headers_kinds (sections : List Section) :
    headers (sections.flatMap Section.kinds) = sections.map Section.name := by
  have hentries : ∀ entries : List Entry,
      headers (entries.map fun e => .assignment e.key e.value) = [] := by
    intro entries
    rw [headers, List.filterMap_map, List.filterMap_eq_nil_iff]
    exact fun e _ => rfl
  induction sections with
  | nil => rfl
  | cons s sections ih =>
    rw [List.flatMap_cons, List.map_cons, ← ih, headers, List.filterMap_append, Section.kinds,
      List.filterMap_cons]
    have hnone := hentries s.entries
    rw [headers] at hnone
    rw [hnone]
    rfl

theorem assignments_entries (above : Option Str) (entries : List Entry) (kinds : List LineKind) :
    assignments above ((entries.map fun e => .assignment e.key e.value) ++ kinds) =
      (entries.map fun e => ((above, e.key), e.value)) ++ assignments above kinds := by
  induction entries with
  | nil => rfl
  | cons e entries ih => rw [List.map_cons, List.map_cons, List.cons_append, assignments, ih, List.cons_append]

theorem assignments_kinds (above : Option Str) (sections : List Section) :
    assignments above (sections.flatMap Section.kinds) =
      (sections.flatMap Section.written).map fun x => ((some x.1.1, x.1.2), x.2) := by
  induction sections generalizing above with
  | nil => rfl
  | cons s sections ih =>
    rw [List.flatMap_cons, List.flatMap_cons, Section.kinds, List.cons_append, assignments,
      assignments_entries, ih, List.map_append, Section.written, List.map_map]
    rfl

theorem lookup_some (xs : List ((Str × Str) × Str)) (sec name : Str) :
    (xs.map fun x => ((some x.1.1, x.1.2), x.2)).lookup (some sec, name) = xs.lookup (sec, name) := by
  induction xs with
  | nil => rfl
  | cons x xs ih =>
    have hkey : ((some sec, name) == (some x.1.1, x.1.2)) = ((sec, name) == x.1) := by
      rw [Bool.eq_iff_iff, beq_iff_eq, beq_iff_eq, Prod.ext_iff, Prod.ext_iff, Option.some.injEq]
    rw [List.map_cons, List.lookup_cons, List.lookup_cons, hkey, ih]

theorem malformed_not_mem (sections : List Section) : .malformed ∉ sections.flatMap Section.kinds := by
  intro hmem
  obtain ⟨s, _, hs⟩ := List.mem_flatMap.mp hmem
  rw [Section.kinds, List.mem_cons] at hs
  rcases hs with hs | hs
  · cases hs
  · obtain ⟨e, _, he⟩ := List.mem_map.mp hs
    cases he

theorem Section.newline_not_mem {s : Section} {l : Str} (hl : l ∈ s.lines) : '\n' ∉ l := by
  rcases List.mem_cons.mp hl with rfl | hl
  · simp [Section.header, s.name_text.line]
  · obtain ⟨e, _, rfl⟩ := List.mem_map.mp hl
    have hkey : '\n' ∉ e.key := fun hnl => by
      have hspace := e.key_text.noSpace _ hnl
      simp [isspace] at hspace
    simp [Entry.line, hkey, e.value_text.line]

theorem Rendered.newline_not_mem {rendered ls : List Str} (h : Rendered rendered ls)
    (hrendered : ∀ l ∈ rendered, '\n' ∉ l) : ∀ l ∈ ls, '\n' ∉ l := by
  induction h with
  | nil => exact hrendered
  | line l _ ih =>
    rw [List.forall_mem_cons] at hrendered ⊢
    exact ⟨hrendered.1, ih hrendered.2⟩
  | between l _ hnl _ ih => exact List.forall_mem_cons.mpr ⟨hnl, ih hrendered⟩

/-- **Configurations are read back.** Whatever sections are rendered, with blank and comment lines
anywhere between the lines, the reader reports no malformed line, the section names in order, for
every section and key the last value written for it, and the default where none is. -/
theorem iniReader_round_trip (sections : List Section) {ls : List Str}
    (h : Rendered (sections.flatMap Section.lines) ls) :
    (INIReader.open (some (ls.flatMap (· ++ ['\n'])))).error = 0 ∧
      (INIReader.open (some (ls.flatMap (· ++ ['\n'])))).sections = sections.map Section.name ∧
      ∀ sec name default_value,
        (INIReader.open (some (ls.flatMap (· ++ ['\n'])))).Get sec name default_value =
          ((sections.flatMap Section.written).reverse.lookup (sec, name)).getD default_value := by
  have hlines : ∀ l ∈ ls, '\n' ∉ l := by
    refine h.newline_not_mem fun l hl => ?_
    obtain ⟨s, _, hs⟩ := List.mem_flatMap.mp hl
    exact s.newline_not_mem hs
  have hreads := reads_open (ls.flatMap (· ++ ['\n']))
  obtain ⟨hheaders, hassignments, hmalformed⟩ := h.kinds
  rw [classify_lines] at hheaders hmalformed
  simp only [classify_lines] at hassignments
  rw [lines_flatMap hlines] at hreads
  refine ⟨?_, ?_, fun sec name default_value => ?_⟩
  · rw [hreads.error, firstMalformed, if_neg (mt hmalformed.mp (malformed_not_mem sections))]
  · rw [hreads.sections, hheaders, headers_kinds]
  · rw [hreads.get, lastValue, hassignments, assignments_kinds, ← List.map_reverse, lookup_some]

/-! ### One more section at the end of a file -/

def appended (file : Str) (s : Section) : Str := file ++ '\n' :: s.lines.flatMap (· ++ ['\n'])

theorem assignments_append {rest : List LineKind} {behind : List ((Option Str × Str) × Str)}
    (hrest : ∀ above, assignments above rest = behind) (above : Option Str) (kinds : List LineKind) :
    assignments above (kinds ++ rest) = assignments above kinds ++ behind := by
  fun_induction assignments above kinds with
  | case1 above => exact hrest above
  | case2 above kinds ih => exact ih
  | case3 above kinds ih => exact ih
  | case4 above name kinds ih => exact ih
  | case5 above key value kinds ih => exact congrArg (_ :: ·) ih
  | case6 above kinds ih => exact ih

theorem assignments_appended (above : Option Str) (file : Str) (s : Section) :
    assignments above ((lines '\n' (appended file s)).map classify) =
      assignments above ((lines '\n' file).map classify) ++
        s.written.map fun x => ((some x.1.1, x.1.2), x.2) := by
  have hsection : ∀ above, assignments above s.kinds =
      s.written.map fun x => ((some x.1.1, x.1.2), x.2) := by
    intro above
    have hentries := assignments_entries (some s.name) s.entries []
    rw [List.append_nil, assignments, List.append_nil] at hentries
    rw [Section.kinds, assignments, hentries, Section.written, List.map_map]
    rfl
  have hlines : lines '\n' (appended file s) = lines '\n' (file ++ ['\n']) ++ s.lines := by
    rw [appended, List.append_cons, lines_append (Or.inr (by simp)),
      lines_flatMap fun _ => s.newline_not_mem]
  have hkinds : s.lines.map classify = s.kinds := by simpa using classify_lines [s]
  rw [hlines, List.map_append, hkinds, assignments_append hsection]
  rcases lines_concat '\n' file with h | h
  · rw [h]
  · have hblank : classify [] = .blank := by decide
    rw [h, List.map_append, List.map_singleton, hblank, assignments_append fun _ => rfl,
      List.append_nil]

/-- What the section sets is found, and the rest of the file counts as before. -/
theorem get_appended (file : Str) (s : Section) (sec name default_value : Str) :
    (INIReader.open (some (appended file s))).Get sec name default_value =
      (s.written.reverse.lookup (sec, name)).getD
        ((INIReader.open (some file)).Get sec name default_value) := by
  rw [(reads_open _).get, (reads_open _).get, lastValue, lastValue, assignments_appended,
    List.reverse_append, List.lookup_append, ← List.map_reverse, lookup_some]
  cases s.written.reverse.lookup (sec, name) <;> rfl

/-- A key and a value with signs and brackets in them, and a second value for the key. -/
theorem iniReader_round_trip_two :
    (INIReader.open (some "[a=b]\n;c\n=k] = x = [y\n=k] = z\n".toList)).error = 0 ∧
      (INIReader.open (some "[a=b]\n;c\n=k] = x = [y\n=k] = z\n".toList)).sections = ["a=b".toList] ∧
      ∀ sec name default_value,
        (INIReader.open (some "[a=b]\n;c\n=k] = x = [y\n=k] = z\n".toList)).Get sec name default_value =
          (([(("a=b".toList, "=k]".toList), "z".toList),
            (("a=b".toList, "=k]".toList), "x = [y".toList)] : List ((Str × Str) × Str)).lookup
              (sec, name)).getD default_value := by
  have hname : NameText "a=b".toList := ⟨by decide, by decide, by decide⟩
  have hkey : KeyText "=k]".toList :=
    ⟨by decide, forall_mem_of_all (by decide), by rintro c ⟨⟩; decide, by decide, by decide⟩
  have hvalue : ValueText "x = [y".toList :=
    @valueText_of_words ['x'] [['='], "[y".toList] (by decide)
  have hvalue' : ValueText "z".toList :=
    @valueText_of_words ['z'] [] (by decide)
  exact iniReader_round_trip
    [⟨"a=b".toList, hname, [⟨"=k]".toList, "x = [y".toList, hkey, hvalue⟩, ⟨"=k]".toList, "z".toList, hkey, hvalue'⟩]⟩]
    (.line _ (.between ";c".toList (.inr ⟨[], ";c".toList, rfl, by simp [Blank], .inl (by decide)⟩) (by decide)
      (.line _ (.line _ .nil))))

end PQuery.Config

import PQuery.Config.Lines

/-!
# What an INI file means

The kinds of its lines say what a file means: the names of its headers, the assignments with the
header above each, and the first malformed line. Lines before the first header have no header above
them; the reader keeps their assignments under the empty name, which no header has. Up to that it
computes the reference (`iniReader_semantics`).
-/

namespace PQuery.Config

open ListScan

/-! ### The reference -/

def LineKind.name : LineKind → Option Str
  | .header name => some name
  | _ => none

def headers (kinds : List LineKind) : List Str := kinds.filterMap LineKind.name

/-- The assignments in the order of the file, each with the header above it; `above` is the header
above the first line. -/
def assignments (above : Option Str) : List LineKind → List ((Option Str × Str) × Str)
  | [] => []
  | .blank :: kinds => assignments above kinds
  | .comment :: kinds => assignments above kinds
  | .header name :: kinds => assignments (some name) kinds
  | .assignment key value :: kinds => ((above, key), value) :: assignments above kinds
  | .malformed :: kinds => assignments above kinds

/-- The last assignment to the key under a header of this name. -/
def lastValue (above : Option Str) (kinds : List LineKind) (sec name : Str) : Option Str :=
  (assignments above kinds).reverse.lookup (some sec, name)

/-- The number of the first malformed line, 0 where there is none. -/
def firstMalformed (kinds : List LineKind) : Int :=
  if .malformed ∈ kinds then kinds.idxOf .malformed + 1 else 0

/-- The reader holds what lines of these kinds mean. -/
structure Reads (above : Option Str) (kinds : List LineKind) (reader : INIReader) : Prop where
  sections : reader.sections = headers kinds
  get : ∀ sec name default_value : Str,
    reader.Get sec name default_value = (lastValue above kinds sec name).getD default_value
  error : reader.error = firstMalformed kinds

instance (line : Str) (kind : LineKind) : Decidable (Classified line kind) :=
  decidable_of_iff _ classified_iff.symm

/-! ### The kinds of the lines -/

theorem forall₂_classified_iff {ls : List Str} {kinds : List LineKind} :
    List.Forall₂ Classified ls kinds ↔ kinds = ls.map classify := by
  induction ls generalizing kinds with
  | nil => simp
  | cons line ls ih =>
    cases kinds with
    | nil => simp
    | cons kind kinds =>
      rw [List.forall₂_cons, ih, classified_iff, List.map_cons, List.cons_eq_cons, eq_comm (a := kind)]

theorem classify_value {line key value : Str} (h : classify line = .assignment key value) : Value value := by
  cases classified_iff.mpr h with
  | assignment _ _ _ h =>
    obtain ⟨_, _, _, _, hparts, _⟩ := assignment_iff.mp h
    exact hparts.value

theorem assignments_value {above : Option Str} {ls : List Str} :
    ∀ x ∈ assignments above (ls.map classify), Value x.2 := by
  induction ls generalizing above with
  | nil => simp [assignments]
  | cons line ls ih =>
    rw [List.map_cons]
    cases hkind : classify line with
    | assignment key value =>
      intro x hx
      rcases List.mem_cons.mp hx with rfl | hx
      · exact classify_value hkind
      · exact ih x hx
    | _ => exact ih

theorem lastValue_value {above : Option Str} {ls : List Str} {sec name value : Str}
    (h : lastValue above (ls.map classify) sec name = some value) : Value value := by
  obtain ⟨l, r, hreverse, -⟩ := List.lookup_eq_some_iff.mp h
  have hmem : ((some sec, name), value) ∈ assignments above (ls.map classify) := by
    rw [← List.mem_reverse, hreverse]
    simp
  exact assignments_value _ hmem

theorem key_beq_false {above : Option Str} {sec name key : Str} (h : above ≠ some sec) :
    ((some sec, name) == (above, key)) = false := by
  rw [beq_eq_false_iff_ne]
  exact fun heq => h (Prod.mk.inj heq).1.symm

/-! ### The reader after each line -/

section readLines
variable (current_section : Str) (line_no : Nat) (reader : INIReader)

theorem readLines_sections (ls : List Str) :
    (readLines current_section line_no reader ls).sections =
      reader.sections ++ headers (ls.map classify) := by
  induction ls generalizing current_section line_no reader with
  | nil => simp [readLines, headers]
  | cons line ls ih =>
    rw [readLines, ih, readLine_eq, List.map_cons]
    cases classify line with
    | header name => simp [headers, LineKind.name]
    | malformed =>
      by_cases herror : reader.error = 0
      · simp only [if_pos herror]
        rfl
      · simp only [if_neg herror]
        rfl
    | _ => rfl

theorem readLines_lookup (ls : List Str) (sec name : Str) :
    (readLines current_section line_no reader ls).map.lookup (sec, name) =
      (lastValue (some current_section) (ls.map classify) sec name).or
        (reader.map.lookup (sec, name)) := by
  induction ls generalizing current_section line_no reader with
  | nil => rfl
  | cons line ls ih =>
    rw [readLines, ih, readLine_eq, List.map_cons]
    cases hkind : classify line with
    | assignment key value =>
      have hkey : ((some sec, name) == (some current_section, key)) =
          ((sec, name) == (current_section, key)) := by
        rw [Bool.eq_iff_iff, beq_iff_eq, beq_iff_eq, Prod.mk.injEq, Prod.mk.injEq, Option.some.injEq]
      simp only [lastValue, assignments, List.reverse_cons, List.lookup_append, List.lookup_cons, hkey,
        Option.or_assoc]
      cases (sec, name) == (current_section, key) with
      | true => rfl
      | false => rfl
    | malformed => by_cases herror : reader.error = 0 <;> simp [herror, lastValue, assignments]
    | _ => rfl

theorem readLines_error (ls : List Str) :
    (readLines current_section line_no reader ls).error =
      if reader.error = 0 ∧ .malformed ∈ ls.map classify then
        (line_no + (ls.map classify).idxOf .malformed + 1 : Int)
      else reader.error := by
  induction ls generalizing current_section line_no reader with
  | nil => simp [readLines]
  | cons line ls ih =>
    have hskip : ∀ {kind : LineKind} {kinds : List LineKind}, kind ≠ .malformed →
        (if reader.error = 0 ∧ .malformed ∈ kinds then
          ((line_no + 1 : Nat) + kinds.idxOf .malformed + 1 : Int) else reader.error) =
        if reader.error = 0 ∧ .malformed ∈ kind :: kinds then
          (line_no + (kind :: kinds).idxOf .malformed + 1 : Int) else reader.error := by
      intro kind kinds hkind
      have hmem : .malformed ∈ kind :: kinds ↔ .malformed ∈ kinds := by simp [Ne.symm hkind]
      rw [List.idxOf_cons_ne _ hkind]
      simp only [hmem]
      push_cast
      congr 1
      omega
    rw [readLines, ih, readLine_eq, List.map_cons]
    cases classify line with
    | malformed =>
      by_cases herror : reader.error = 0
      · simp [herror]
        omega
      · simp [herror]
    | _ => exact hskip (by simp)

end readLines

/-- The reader holds what the lines of the file mean, those before the first header being taken as
under a header without a name. -/
theorem reads_open (file : Str) :
    Reads (some []) ((lines '\n' file).map classify) (INIReader.open (some file)) := by
  refine ⟨?_, fun sec name default_value => ?_, ?_⟩
  · exact readLines_sections [] 0 _ _
  · have hlookup := readLines_lookup [] 0 { sections := [], map := [], error := 0 } (lines '\n' file) sec name
    rw [List.lookup_nil, Option.or_none] at hlookup
    simp only [INIReader.Get, INIReader.open, hlookup]
    cases hvalue : lastValue (some []) ((lines '\n' file).map classify) sec name with
    | none => rfl
    | some value => simp [(lastValue_value hvalue).ne]
  · have herror := readLines_error [] 0 { sections := [], map := [], error := 0 } (lines '\n' file)
    rw [INIReader.open, herror, firstMalformed]
    simp

/-! ### Deleting the malformed lines -/

/-- A file with the lines of another one that are not malformed. -/
def Cleared (file file' : Str) : Prop :=
  lines '\n' file' = (lines '\n' file).filter fun line => decide ¬ Classified line .malformed

theorem exists_cleared (file : Str) : ∃ file', Cleared file file' := by
  refine ⟨_, lines_flatMap fun l hl => ?_⟩
  exact not_mem_of_mem_lines (List.mem_of_mem_filter hl)

theorem headers_filter (kinds : List LineKind) :
    headers (kinds.filter (· ≠ .malformed)) = headers kinds := by
  rw [headers, headers, List.filterMap_filter]
  refine List.filterMap_congr fun kind _ => ?_
  cases kind <;> rfl

theorem assignments_filter (above : Option Str) (kinds : List LineKind) :
    assignments above (kinds.filter (· ≠ .malformed)) = assignments above kinds := by
  fun_induction assignments above kinds with
  | case1 => rfl
  | case2 above kinds ih => simpa [assignments] using ih
  | case3 above kinds ih => simpa [assignments] using ih
  | case4 above name kinds ih => simpa [assignments] using ih
  | case5 above key value kinds ih => simpa [assignments] using ih
  | case6 above kinds ih => simpa [assignments] using ih

theorem cleared_kinds {file file' : Str} (h : Cleared file file') :
    (lines '\n' file').map classify = ((lines '\n' file).map classify).filter (· ≠ .malformed) := by
  rw [h, List.filter_map]
  congr 1
  refine List.filter_congr fun line _ => ?_
  simp only [classified_iff, Function.comp_apply, ne_eq]

/-- **What the reader computes.** For every file the sections, the values of all lookups and the
number of the first malformed line are those of the reference, where the lines before the first
header count as under a header with the empty name; and without its malformed lines the file has the
same sections and values. -/
theorem iniReader_semantics (file : Str) :
    ∃ kinds, List.Forall₂ Classified (lines '\n' file) kinds ∧
      Reads (some []) kinds (INIReader.open (some file)) ∧
      ∀ file', Cleared file file' →
        (INIReader.open (some file')).sections = (INIReader.open (some file)).sections ∧
        ∀ sec name default_value, (INIReader.open (some file')).Get sec name default_value =
          (INIReader.open (some file)).Get sec name default_value := by
  refine ⟨_, forall₂_classified_iff.mpr rfl, reads_open file, fun file' hcleared => ?_⟩
  have hread := reads_open file
  have hread' := reads_open file'
  rw [cleared_kinds hcleared] at hread'
  refine ⟨?_, fun sec name default_value => ?_⟩
  · rw [hread'.sections, hread.sections, headers_filter]
  · rw [hread'.get, hread.get, lastValue, lastValue, assignments_filter]

/-- Before the first header an assignment is under no header, and yet it is found under the empty
name. -/
theorem iniReader_headless :
    ¬ ∃ kinds, List.Forall₂ Classified (lines '\n' "k = v\n".toList) kinds ∧
      Reads none kinds (INIReader.open (some "k = v\n".toList)) := by
  rintro ⟨kinds, hkinds, hreads⟩
  rw [forall₂_classified_iff] at hkinds
  have hkind : (lines '\n' "k = v\n".toList).map classify =
      [.assignment "k".toList "v".toList] := by decide +kernel
  have hget := hreads.get [] "k".toList []
  rw [hkinds, hkind] at hget
  exact absurd hget (by decide +kernel)

end PQuery.Config

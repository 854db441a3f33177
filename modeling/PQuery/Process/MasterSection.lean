import PQuery.Config.RoundTrip
import PQuery.Process.Start

/-!
# Which sections are the master section

The checks of the sections pass over every header that is "master" in any letter case; the paths of the
logs are looked up under "master" itself. So a master section written in capitals is passed over and its
`logdir` and `logfile` have no effect, and the two readings are one exactly where no header of the
file is written so (`oneMaster_iff`).
-/

namespace PQuery.Process

open Config Fork ListScan

/-! ### The three places in the source -/

/-- The header of a section that `buildAllWorkerParams` passes over as the master section. -/
def Excluded (secName : Str) : Prop := secName.map tolower = "master".toList

instance (secName : Str) : Decidable (Excluded secName) := inferInstanceAs (Decidable (_ = _))

/-- The directory that `PQuery::run` hands to the pool. -/
def masterLogDir (configReader : INIReader) : Str :=
  configReader.Get "master".toList "logdir".toList "/tmp".toList

def masterLogName (version : Version) (configReader : INIReader) : Str :=
  configReader.Get "master".toList "logfile".toList
    ("pquery".toList ++ version.PQMAJVERSION ++ "-master.log".toList)

/-- The path that `PQuery::initLogger` hands to `initLogFile`. -/
def masterLogFile (version : Version) (configReader : INIReader) : Str :=
  masterLogDir configReader ++ '/' :: masterLogName version configReader

/-- The loop goes on without a word with exactly these headers. -/
theorem excluded_iff (build : Build) (configReader : INIReader) (secName : Str) :
    Excluded secName ↔ ∀ r, checkSection build configReader r secName = pure r := by
  constructor
  · intro h r
    exact if_pos h
  · intro h
    by_contra hnot
    have hneg : ¬ secName.map tolower = "master".toList := hnot
    have hcheck := h ([], true)
    rw [checkSection, if_neg hneg] at hcheck
    cases hcheck

theorem initLogger_eq (version : Version) (options : CliOptions) (configReader : INIReader) :
    initLogger version options configReader = (do
      if options.logFilePath ≠ [] then setLogFilePath options.logFilePath
      initLogFile (masterLogFile version configReader)) := rfl

theorem run_eq (build : Build) (version : Version) (options : CliOptions) (file : Option Str) :
    run build version options file = (do
      if ← prepareToRun version options (INIReader.open file) then
        let (validParams, configOk) ← buildAllWorkerParams build (INIReader.open file)
        if configOk then runPool build (masterLogDir (INIReader.open file)) validParams
        else return .EXIT_FAILURE
      else return .EXIT_FAILURE) := rfl

/-! ### One notion of the master section -/

section
variable (version : Version) (file secName : Str)

/-- What a section of this name sets at the end of the file is what the logs use. -/
def Used : Prop := ∀ s : Section, s.name = secName → ∀ e, s.entries = [e] →
  (e.key = "logdir".toList →
    masterLogDir (INIReader.open (some (appended file s))) = e.value ∧
    masterLogFile version (INIReader.open (some (appended file s))) =
      e.value ++ '/' :: masterLogName version (INIReader.open (some file))) ∧
  (e.key = "logfile".toList →
    masterLogFile version (INIReader.open (some (appended file s))) =
      masterLogDir (INIReader.open (some file)) ++ '/' :: e.value)

/-- Nothing that a section of this name sets at the end of the file reaches the logs. -/
def Ignored : Prop := ∀ s : Section, s.name = secName →
  masterLogDir (INIReader.open (some (appended file s))) =
    masterLogDir (INIReader.open (some file)) ∧
  masterLogFile version (INIReader.open (some (appended file s))) =
    masterLogFile version (INIReader.open (some file))

end

/-- The last value that a section passed over as the master section sets for a key; what stands before
the first header counts as under the empty name. -/
def lastExcluded (file name : Str) : Option Str :=
  ((assignments (some []) ((lines '\n' file).map classify)).reverse.find? fun x =>
    x.1.1.any (fun header => decide (Excluded header)) && x.1.2 == name).map Prod.snd

/-- The sections of the file that are passed over are those whose settings the logs use, and what the
logs use comes from them. -/
structure OneMaster (version : Version) (file : Str) : Prop where
  used : ∀ secName ∈ (INIReader.open (some file)).sections, Excluded secName → Used version file secName
  ignored : ∀ secName ∈ (INIReader.open (some file)).sections, ¬ Excluded secName →
    Ignored version file secName
  logdir : masterLogDir (INIReader.open (some file)) =
    (lastExcluded file "logdir".toList).getD "/tmp".toList
  logfile : masterLogName version (INIReader.open (some file)) =
    (lastExcluded file "logfile".toList).getD
      ("pquery".toList ++ version.PQMAJVERSION ++ "-master.log".toList)

section
variable {version : Version} {file secName : Str}

theorem get_appended_master (s : Section) (name default_value : Str) (h : s.name ≠ "master".toList) :
    (INIReader.open (some (appended file s))).Get "master".toList name default_value =
      (INIReader.open (some file)).Get "master".toList name default_value := by
  have hnone : s.written.reverse.lookup ("master".toList, name) = none := by
    rw [List.lookup_eq_none_iff]
    intro x hx
    obtain ⟨e, -, rfl⟩ := List.mem_map.mp (List.mem_reverse.mp hx)
    rw [bne_iff_ne]
    exact fun heq => h (Prod.mk.inj heq).1.symm
  rw [get_appended, hnone]
  rfl

theorem ignored_of_ne (h : secName ≠ "master".toList) : Ignored version file secName := by
  rintro s rfl
  refine ⟨get_appended_master s _ _ h, ?_⟩
  rw [masterLogFile, masterLogFile, masterLogDir, masterLogDir, masterLogName, masterLogName,
    get_appended_master s _ _ h, get_appended_master s _ _ h]

theorem used_master (version : Version) (file : Str) : Used version file "master".toList := by
  intro s hname e he
  have hget : ∀ name default_value,
      (INIReader.open (some (appended file s))).Get "master".toList name default_value =
        if name = e.key then e.value
        else (INIReader.open (some file)).Get "master".toList name default_value := by
    intro name default_value
    rw [get_appended, Section.written, he, hname]
    by_cases hkey : name = e.key
    · simp [hkey]
    · have hne : (("master".toList, name) == ("master".toList, e.key)) = false := by
        rw [beq_eq_false_iff_ne]
        exact fun heq => hkey (Prod.mk.inj heq).2
      rw [if_neg hkey, List.map_singleton, List.reverse_singleton, List.lookup_cons, hne]
      rfl
  constructor
  · intro hkey
    refine ⟨by rw [masterLogDir, hget, if_pos hkey.symm], ?_⟩
    rw [masterLogFile, masterLogDir, masterLogName, hget, hget, if_pos hkey.symm, if_neg (by simp [hkey])]
    rfl
  · intro hkey
    rw [masterLogFile, masterLogDir, masterLogName, hget, hget, if_pos hkey.symm, if_neg (by simp [hkey])]
    rfl

theorem nameText_of_mem (h : secName ∈ (INIReader.open (some file)).sections) : NameText secName := by
  rw [(reads_open file).sections] at h
  obtain ⟨kind, hkind, hname⟩ := List.mem_filterMap.mp h
  obtain ⟨line, hline, rfl⟩ := List.mem_map.mp hkind
  have hnl := not_mem_of_mem_lines hline
  cases hclassify : classify line <;> rw [hclassify] at hname <;>
    simp only [LineKind.name, reduceCtorEq, Option.some.injEq] at hname
  case header name =>
    subst hname
    cases classified_iff.mpr hclassify with
    | header _ _ hheader =>
      obtain ⟨ws, rfl, -, hne, hbracket⟩ := hheader
      refine ⟨hne, hbracket, fun hmem => hnl ?_⟩
      simp [hmem]

/-- A section that sets `logdir`. -/
def logdirSection (name value : Str) (hname : NameText name) (hvalue : ValueText value) : Section :=
  ⟨name, hname, [⟨"logdir".toList, value,
    ⟨by decide, forall_mem_of_all (by decide), by rintro c ⟨⟩; decide, by decide, by decide⟩, hvalue⟩]⟩

theorem not_used_ignored (hname : NameText secName) (hused : Used version file secName)
    (hignored : Ignored version file secName) : False := by
  have hvalue : ∀ (value : Str) (hvalue : ValueText value),
      masterLogDir (INIReader.open (some file)) = value := by
    intro value hvalue
    have hset := ((hused (logdirSection secName value hname hvalue) rfl _ rfl).1 rfl).1
    exact (hignored (logdirSection secName value hname hvalue) rfl).1.symm.trans hset
  have ha := hvalue "a".toList (@valueText_of_words ['a'] [] (by decide))
  have hb := hvalue "b".toList (@valueText_of_words ['b'] [] (by decide))
  rw [ha] at hb
  exact absurd hb (by decide)

/-! ### What the logs use of a file -/

theorem mem_assignments {above : Option Str} {kinds : List LineKind} {x : (Option Str × Str) × Str}
    (h : x ∈ assignments above kinds) :
    x.1.1 = above ∨ ∃ header ∈ headers kinds, x.1.1 = some header := by
  fun_induction assignments above kinds with
  | case1 => simp at h
  | case2 above kinds ih => exact ih h
  | case3 above kinds ih => exact ih h
  | case4 above name kinds ih =>
    rcases ih h with hx | ⟨header, hmem, hx⟩
    · exact Or.inr ⟨name, by simp [headers, LineKind.name], hx⟩
    · exact Or.inr ⟨header, List.mem_cons_of_mem name hmem, hx⟩
  | case5 above key value kinds ih =>
    rcases List.mem_cons.mp h with rfl | h
    · exact Or.inl rfl
    · exact ih h
  | case6 above kinds ih => exact ih h

theorem lookup_eq_find? {key : Option Str × Str} {p : (Option Str × Str) × Str → Bool}
    {xs : List ((Option Str × Str) × Str)} (h : ∀ x ∈ xs, p x = (key == x.1)) :
    xs.lookup key = (xs.find? p).map Prod.snd := by
  induction xs with
  | nil => rfl
  | cons x xs ih =>
    rw [List.forall_mem_cons] at h
    rw [List.lookup_cons, List.find?_cons, h.1, ih h.2]
    cases key == x.1 <;> rfl

theorem get_master (h : ∀ secName ∈ (INIReader.open (some file)).sections, Excluded secName →
    secName = "master".toList) (name default_value : Str) :
    (INIReader.open (some file)).Get "master".toList name default_value =
      (lastExcluded file name).getD default_value := by
  rw [(reads_open file).sections] at h
  rw [(reads_open file).get, lastValue, lastExcluded, lookup_eq_find?]
  intro x hx
  obtain ⟨⟨above, key⟩, value⟩ := x
  have hany : above.any (fun header => decide (Excluded header)) = (above == some "master".toList) := by
    rcases mem_assignments (List.mem_reverse.mp hx) with rfl | ⟨header, hheader, rfl⟩
    · decide
    · by_cases hexcluded : Excluded header
      · rw [h header hheader hexcluded]
        decide
      · have hne : header ≠ "master".toList := by
          rintro rfl
          exact hexcluded (by decide)
        have hbeq : (some header == some "master".toList) = false := by
          rw [beq_eq_false_iff_ne]
          exact fun heq => hne (Option.some.inj heq)
        rw [hbeq, Option.any_some, decide_eq_false hexcluded]
  rw [hany, Bool.eq_iff_iff, Bool.and_eq_true, beq_iff_eq, beq_iff_eq, beq_iff_eq, Prod.mk.injEq]
  exact and_congr eq_comm eq_comm

/-- **One notion of the master section.** The logs use the settings of exactly the sections that are
passed over if and only if each of these is spelled "master". -/
theorem oneMaster_iff (version : Version) (file : Str) :
    OneMaster version file ↔ ∀ secName ∈ (INIReader.open (some file)).sections,
      Excluded secName → secName = "master".toList := by
  constructor
  · intro h secName hmem hexcluded
    by_contra hne
    exact not_used_ignored (nameText_of_mem hmem) (h.used secName hmem hexcluded) (ignored_of_ne hne)
  · intro h
    refine ⟨fun secName hmem hexcluded => ?_, fun secName _ hexcluded => ignored_of_ne ?_,
      get_master h _ _, get_master h _ _⟩
    · rw [h secName hmem hexcluded]
      exact used_master version file
    · rintro rfl
      exact hexcluded (by decide)

/-- A section in capitals is passed over, and its directory is not used. -/
theorem master_in_capitals :
    "MASTER".toList ∈ (INIReader.open (some "[MASTER]\nlogdir = /var\n".toList)).sections ∧
      Excluded "MASTER".toList ∧
      masterLogDir (INIReader.open (some "[MASTER]\nlogdir = /var\n".toList)) = "/tmp".toList ∧
      ¬ OneMaster ⟨"3".toList, []⟩ "[MASTER]\nlogdir = /var\n".toList := by
  have hmem : "MASTER".toList ∈ (INIReader.open (some "[MASTER]\nlogdir = /var\n".toList)).sections := by
    decide +kernel
  refine ⟨hmem, by decide, by decide +kernel, fun h => ?_⟩
  exact not_used_ignored (nameText_of_mem hmem) (h.used _ hmem (by decide)) (ignored_of_ne (by decide))

end

end PQuery.Process

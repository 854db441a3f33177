import PQuery.Config.Numbers
import PQuery.Config.RoundTrip

/-!
# What a configuration can ask for

The parameters of the workers that a configuration starts, over all configurations: `Settable` says
what holds of each of them. Everything of this kind can be asked for: `configText` writes the
parameters down, and reading it gives them back (`expressible_iff`).
-/

namespace PQuery.Config

open ListScan

/-! ### The parameters -/

/-- The texts that an option has a default for. -/
def workerParams.texts (p : workerParams) : List Str :=
  [p.address, p.username, p.socket, p.database, p.infile, p.logdir]

/-- What holds of the parameters of an accepted section. -/
structure Settable (build : Build) (p : workerParams) : Prop where
  name : NameText p.myName
  dbtype : checkDbType build p.dbtype = .ok ()
  infiletype : p.infiletype = .eSQL
  texts : ∀ text ∈ p.texts, ValueText text
  password : p.password = [] ∨ ValueText p.password
  port : 1 ≤ p.port ∧ p.port ≤ 65535
  threads : 1 ≤ p.threads ∧ p.threads ≤ 65535
  queries_per_thread : p.queries_per_thread < 2 ^ 63
  query_list_maxsize : p.query_list_maxsize < 2 ^ 63
  timeout_secs : p.timeout_secs < 2 ^ 32
  connect_timeout_secs : p.connect_timeout_secs < 2 ^ 32

/-- The parameters of the workers that one configuration starts: no worker is named after the master,
and workers of one name have the same parameters. -/
structure Together (build : Build) (ps : List workerParams) : Prop where
  settable : ∀ p ∈ ps, Settable build p
  not_master : ∀ p ∈ ps, p.myName.map tolower ≠ "master".toList
  alike : ∀ p ∈ ps, ∀ q ∈ ps, p.myName = q.myName → p = q

/-! ### Writing them down -/

def flagText (b : Bool) : Str := if b then "yes".toList else "no".toList

/-- A name of the type that `getDbType` knows. -/
def dbtypeText : eDBTYPE → Str
  | .ePGSQL => "pgsql".toList
  | _ => "mysql".toList

/-- The options that can always be written. -/
def workerParams.plainOptions (p : workerParams) : List (Str × Str) :=
  [ ("run".toList, flagText true),
    ("address".toList, p.address),
    ("user".toList, p.username),
    ("socket".toList, p.socket),
    ("database".toList, p.database),
    ("dbtype".toList, dbtypeText p.dbtype),
    ("port".toList, to_string p.port),
    ("threads".toList, to_string p.threads),
    ("queries-per-thread".toList, to_string p.queries_per_thread),
    ("query-list-maxsize".toList, to_string p.query_list_maxsize),
    ("timeout".toList, to_string p.timeout_secs),
    ("connect-timeout".toList, to_string p.connect_timeout_secs),
    ("verbose".toList, flagText p.verbose),
    ("shuffle".toList, flagText p.shuffle),
    ("infile".toList, p.infile),
    ("infiletype".toList, "sql".toList),
    ("logdir".toList, p.logdir),
    ("log-all-queries".toList, flagText p.log_all_queries),
    ("log-succeded-queries".toList, flagText p.log_succeeded_queries),
    ("log-failed-queries".toList, flagText p.log_failed_queries),
    ("log-query-statistics".toList, flagText p.log_query_statistics),
    ("log-query-duration".toList, flagText p.log_query_duration),
    ("log-client-output".toList, flagText p.log_client_output),
    ("log-query-numbers".toList, flagText p.log_query_numbers) ]

/-- The options of a section; an empty password is left out. -/
def workerParams.options (p : workerParams) : List (Str × Str) :=
  (if p.password = [] then [] else [("password".toList, p.password)]) ++ p.plainOptions

def workerParams.lines (p : workerParams) : List Str :=
  ('[' :: (p.myName ++ [']'])) :: p.options.map fun o => o.1 ++ " = ".toList ++ o.2

/-- A section for each worker. -/
def configText (ps : List workerParams) : Str :=
  (ps.flatMap workerParams.lines).flatMap (· ++ ['\n'])

/-- What the section of a worker sets. -/
def workerParams.written (p : workerParams) : List ((Str × Str) × Str) :=
  p.options.map fun o => ((p.myName, o.1), o.2)

/-! ### The texts of the options -/

theorem digitsValue_to_string (n : Nat) : digitsValue (to_string n) = n := by
  have hcast : ∀ (digits : Str) (m : Nat),
      digits.foldl (fun (n : Int) c => 10 * n + (c.toNat - '0'.toNat : Nat)) m =
        (Nat.ofDigitChars 10 digits m : Nat) := by
    intro digits
    induction digits with
    | nil => exact fun m => rfl
    | cons c digits ih =>
      intro m
      rw [List.foldl_cons, Nat.ofDigitChars_cons, ← ih]
      push_cast
      rfl
  rw [digitsValue, to_string_natCast]
  refine (hcast _ 0).trans ?_
  rw [Nat.ofDigitChars_ten_toDigits]

theorem digits_to_string (n : Nat) : Digits (to_string n) := by
  obtain ⟨hne, hdigits⟩ := to_string_digits n
  refine ⟨hne, fun c hc => ?_⟩
  have hdigit := hdigits c hc
  simp only [Char.isDigit, Bool.and_eq_true, decide_eq_true_eq] at hdigit
  simpa [isdigit, Char.le_def] using hdigit

theorem numberOf_to_string {n : Nat} (h : n < 2 ^ 63) :
    numberOf (to_string n) = some (n : Int) ∧ FitsInt64 n := by
  have hfits : FitsInt64 n := by
    unfold FitsInt64 int64Min int64Max
    omega
  have hdecimal : Decimal (to_string n) n := by
    have hunsigned := Decimal.unsigned (digits_to_string n)
    rwa [digitsValue_to_string] at hunsigned
  have hsized := (@numberOf_sized (to_string n) [] n n 0 hdecimal .none).mpr ⟨by omega, hfits⟩
  rwa [List.append_nil] at hsized

theorem word_to_string (n : Nat) : Word (to_string n) :=
  ⟨(digits_to_string n).ne, fun c hc => isspace_of_isdigit ((digits_to_string n).digit c hc)⟩

theorem valueText_of_word {w : Str} (h : Word w) : ValueText w := by
  have hwords := @valueText_of_words w [] fun x hx => by
    obtain rfl := List.mem_singleton.mp hx
    exact h
  rwa [List.flatMap_nil, List.append_nil] at hwords

theorem word_flagText (b : Bool) : Word (flagText b) := by
  cases b <;> decide

theorem word_dbtypeText (dbtype : eDBTYPE) : Word (dbtypeText dbtype) := by
  cases dbtype <;> decide

/-- A key whose conditions can be decided. -/
def checkKey (key : Str) : Bool :=
  !key.isEmpty && key.all (fun c => !isspace c) && !(['[', '#', ';'].contains (key.headD 'x')) &&
    !(['-', '-'].isPrefixOf key) && !(key.tail.contains '=')

theorem keyText_of_check {key : Str} (h : checkKey key = true) : KeyText key := by
  simp only [checkKey, Bool.and_eq_true, Bool.not_eq_true', List.all_eq_true] at h
  obtain ⟨⟨⟨⟨hne, hspace⟩, hhead⟩, hdashes⟩, hsign⟩ := h
  refine ⟨by simpa using hne, fun c hc => by simpa using hspace c hc, fun c hc => ?_, ?_, ?_⟩
  · obtain ⟨rest, rfl⟩ := List.head?_eq_some_iff.mp (Option.mem_def.mp hc)
    simpa using hhead
  · intro hdash
    rw [List.isPrefixOf_iff_prefix.mpr hdash] at hdashes
    cases hdashes
  · simpa using hsign

theorem checkKey_options (p : workerParams) : ∀ o ∈ p.options, checkKey o.1 = true := by
  have hall : ∀ keys : List (Str × Str), (keys.map Prod.fst).all checkKey = true →
      ∀ o ∈ keys, checkKey o.1 = true := by
    intro keys h o ho
    exact List.all_eq_true.mp h o.1 (List.mem_map_of_mem ho)
  refine hall _ ?_
  unfold workerParams.options
  split <;> rfl

theorem Settable.writable {build : Build} {p : workerParams} (h : Settable build p) :
    ∀ o ∈ p.options, KeyText o.1 ∧ ValueText o.2 := by
  have hflag : ∀ b, ValueText (flagText b) := fun b => valueText_of_word (word_flagText b)
  have hnumber : ∀ n : Nat, ValueText (to_string n) := fun n => valueText_of_word (word_to_string n)
  have htexts := h.texts
  simp only [workerParams.texts, List.forall_mem_cons] at htexts
  obtain ⟨haddress, huser, hsocket, hdatabase, hinfile, hlogdir, -⟩ := htexts
  have hvalues : ∀ o ∈ p.options, ValueText o.2 := by
    unfold workerParams.options
    refine List.forall_mem_append.mpr ⟨?_, ?_⟩
    · split_ifs with hpassword
      · exact fun o ho => absurd ho List.not_mem_nil
      · exact List.forall_mem_singleton.mpr (h.password.resolve_left hpassword)
    · unfold workerParams.plainOptions
      simp only [List.forall_mem_cons]
      exact ⟨hflag _, haddress, huser, hsocket, hdatabase, valueText_of_word (word_dbtypeText _), hnumber _,
        hnumber _, hnumber _, hnumber _, hnumber _, hnumber _, hflag _, hflag _, hinfile,
        valueText_of_word (by decide), hlogdir, hflag _,
        hflag _, hflag _, hflag _, hflag _, hflag _, hflag _, fun o ho => absurd ho List.not_mem_nil⟩
  exact fun o ho => ⟨keyText_of_check (checkKey_options p o ho), hvalues o ho⟩

/-! ### What is read back -/

theorem exists_entries : ∀ {os : List (Str × Str)}, (∀ o ∈ os, KeyText o.1 ∧ ValueText o.2) →
    ∃ entries : List Entry, entries.map (fun e => (e.key, e.value)) = os := by
  intro os
  induction os with
  | nil => exact fun _ => ⟨[], rfl⟩
  | cons o os ih =>
    intro h
    obtain ⟨ho, hos⟩ := List.forall_mem_cons.mp h
    obtain ⟨entries, rfl⟩ := ih hos
    exact ⟨⟨o.1, o.2, ho.1, ho.2⟩ :: entries, rfl⟩

theorem exists_section {build : Build} {p : workerParams} (h : Settable build p) :
    ∃ s : Section, s.name = p.myName ∧ s.lines = p.lines ∧ s.written = p.written := by
  obtain ⟨entries, hentries⟩ := exists_entries h.writable
  refine ⟨⟨p.myName, h.name, entries⟩, rfl, ?_, ?_⟩
  · rw [workerParams.lines, ← hentries, List.map_map]
    rfl
  · rw [workerParams.written, ← hentries, List.map_map]
    rfl

theorem exists_sections {build : Build} {ps : List workerParams} (h : ∀ p ∈ ps, Settable build p) :
    ∃ sections : List Section, sections.map Section.name = ps.map workerParams.myName ∧
      sections.flatMap Section.lines = ps.flatMap workerParams.lines ∧
      sections.flatMap Section.written = ps.flatMap workerParams.written := by
  induction ps with
  | nil => exact ⟨[], rfl, rfl, rfl⟩
  | cons p ps ih =>
    obtain ⟨hp, hps⟩ := List.forall_mem_cons.mp h
    obtain ⟨s, hname, hlines, hwritten⟩ := exists_section hp
    obtain ⟨sections, hnames, hrest, hbehind⟩ := ih hps
    refine ⟨s :: sections, ?_, ?_, ?_⟩
    · rw [List.map_cons, List.map_cons, hname, hnames]
    · rw [List.flatMap_cons, List.flatMap_cons, hlines, hrest]
    · rw [List.flatMap_cons, List.flatMap_cons, hwritten, hbehind]

theorem open_configText {build : Build} {ps : List workerParams} (h : ∀ p ∈ ps, Settable build p) :
    (INIReader.open (some (configText ps))).error = 0 ∧
      (INIReader.open (some (configText ps))).sections = ps.map workerParams.myName ∧
      ∀ sec name default_value, (INIReader.open (some (configText ps))).Get sec name default_value =
        ((ps.flatMap workerParams.written).reverse.lookup (sec, name)).getD default_value := by
  obtain ⟨sections, hnames, hlines, hwritten⟩ := exists_sections h
  have hreads := reads_open (configText ps)
  have hone : ∀ l ∈ ps.flatMap workerParams.lines, '\n' ∉ l := by
    intro l hl
    rw [← hlines] at hl
    obtain ⟨s, -, hs⟩ := List.mem_flatMap.mp hl
    exact s.newline_not_mem hs
  rw [configText, lines_flatMap hone, ← hlines, classify_lines] at hreads
  rw [configText]
  refine ⟨?_, ?_, fun sec name default_value => ?_⟩
  · rw [← hlines, hreads.error, firstMalformed, if_neg (malformed_not_mem sections)]
  · rw [← hlines, hreads.sections, headers_kinds, hnames]
  · rw [← hlines, hreads.get, lastValue, assignments_kinds, ← List.map_reverse, lookup_some, hwritten]

theorem lookup_written {ps : List workerParams} {p : workerParams} (hp : p ∈ ps)
    (halike : ∀ q ∈ ps, q.myName = p.myName → q = p) (name : Str) :
    (ps.flatMap workerParams.written).reverse.lookup (p.myName, name) = p.options.reverse.lookup name := by
  have hsame : ∀ os : List (Str × Str),
      (os.map fun o => ((p.myName, o.1), o.2)).lookup (p.myName, name) = os.lookup name := by
    intro os
    induction os with
    | nil => rfl
    | cons o os ih =>
      have hkey : ((p.myName, name) == (p.myName, o.1)) = (name == o.1) := by
        rw [Bool.eq_iff_iff, beq_iff_eq, beq_iff_eq, Prod.mk.injEq, and_iff_right rfl]
      rw [List.map_cons, List.lookup_cons, List.lookup_cons, hkey, ih]
  have hother : ∀ q : workerParams, q.myName ≠ p.myName →
      q.written.reverse.lookup (p.myName, name) = none := by
    intro q hq
    rw [List.lookup_eq_none_iff]
    intro x hx
    obtain ⟨o, -, rfl⟩ := List.mem_map.mp (List.mem_reverse.mp hx)
    exact bne_iff_ne.mpr fun heq => hq (Prod.mk.inj heq).1.symm
  have hall : ∀ qs : List workerParams, (∀ q ∈ qs, q.myName = p.myName → q = p) →
      (qs.flatMap workerParams.written).reverse.lookup (p.myName, name) =
        if p ∈ qs then p.options.reverse.lookup name else none := by
    intro qs
    induction qs with
    | nil => exact fun _ => rfl
    | cons q qs ih =>
      intro h
      obtain ⟨hq, hqs⟩ := List.forall_mem_cons.mp h
      rw [List.flatMap_cons, List.reverse_append, List.lookup_append, ih hqs]
      by_cases hname : q.myName = p.myName
      · obtain rfl := hq hname
        rw [workerParams.written, ← List.map_reverse, hsame, if_pos List.mem_cons_self]
        split
        · exact Option.or_self
        · rfl
      · have hne : p ≠ q := fun heq => hname (heq ▸ rfl)
        rw [hother q hname, Option.or_none]
        simp [hne]
  rw [hall ps halike, if_pos hp]

/-! ### The parameters that are read back -/

theorem setup_of_checked {build : Build} {reader : INIReader} {secName : Str} {p : workerParams}
    (h : Checked build reader secName p) : setupWorkerParams build reader secName = .ok p := by
  have hdbtype : p.dbtype = reader.getDbType secName "dbtype".toList .eMYSQL :=
    congrArg workerParams.dbtype h.unchecked
  have hinfiletype : p.infiletype = reader.getInfileType secName "infiletype".toList .eSQL :=
    congrArg workerParams.infiletype h.unchecked
  refine mapError_eq_ok.mpr (bind_eq_ok.mpr ⟨(), hdbtype ▸ h.dbtype, bind_eq_ok.mpr ⟨_, hdbtype ▸ h.port,
    bind_eq_ok.mpr ⟨_, h.threads, bind_eq_ok.mpr ⟨_, h.queries_per_thread, bind_eq_ok.mpr
      ⟨_, h.query_list_maxsize, bind_eq_ok.mpr ⟨_, h.timeout, bind_eq_ok.mpr ⟨_, h.connect_timeout,
        bind_eq_ok.mpr ⟨(), ?_, ?_⟩⟩⟩⟩⟩⟩⟩⟩)
  · rw [← hdbtype, ← hinfiletype]
    exact h.infiletype
  · exact congrArg Except.ok h.unchecked.symm

section
variable {reader : INIReader} {secName : Str} {value : Str → Option Str}
  (h : Serves reader secName value)
include h

theorem integerOption_to_string {name : Str} {n : Nat} (default_value : Int) {min max : Int} {bits : Nat}
    (hvalue : value name = some (to_string n)) (hn : n < 2 ^ 63) (hmin : min ≤ n) (hmax : (n : Int) ≤ max)
    (hbits : max < 2 ^ bits) : integerOption reader secName name default_value min max bits = .ok n := by
  have hget : reader.Get secName name [] = to_string n := by rw [h.get, hvalue, Option.getD_some]
  have hread : reader.GetInteger secName name default_value = .ok (n : Int) :=
    (getInteger_ok_iff hget (to_string_digits n).1).mpr (numberOf_to_string hn)
  have hrange : checkIntRange name n min max = .ok (n : Int) := if_neg (by omega)
  have hcast : ((n : Int) % 2 ^ bits).toNat = n := by
    rw [Int.emod_eq_of_lt (by omega) (by omega), Int.toNat_natCast]
  rw [integerOption, hread]
  refine bind_eq_ok.mpr ⟨n, rfl, bind_eq_ok.mpr ⟨n, hrange, ?_⟩⟩
  rw [hcast]
  rfl

theorem getBoolean_flagText {name : Str} {b : Bool} (hvalue : value name = some (flagText b)) :
    reader.GetBoolean secName name false = b := by
  rw [getBoolean_eq h, hvalue]
  cases b <;> decide

end

theorem checked_of_options {build : Build} {reader : INIReader} {p : workerParams} (hp : Settable build p)
    (h : Serves reader p.myName fun name => p.options.reverse.lookup name) :
    Checked build reader p.myName p := by
  have hplain : ∀ {name value : Str}, p.plainOptions.reverse.lookup name = some value →
      p.options.reverse.lookup name = some value := by
    intro name value hvalue
    rw [workerParams.options, List.reverse_append, List.lookup_append, hvalue]
    rfl
  have htext : ∀ {name value : Str} (default_value : Str), p.plainOptions.reverse.lookup name = some value →
      reader.Get p.myName name default_value = value := by
    intro name value default_value hvalue
    rw [h.get, hplain hvalue, Option.getD_some]
  have hflag : ∀ {name : Str} {b : Bool}, p.plainOptions.reverse.lookup name = some (flagText b) →
      reader.GetBoolean p.myName name false = b := fun hvalue => getBoolean_flagText h (hplain hvalue)
  have hdbtype : reader.getDbType p.myName "dbtype".toList .eMYSQL = p.dbtype := by
    rw [getDbType_eq h, hplain rfl]
    have hne := dbtype_of_check hp.dbtype
    cases hdb : p.dbtype with
    | eMYSQL => rfl
    | ePGSQL => rfl
    | eNONE => exact absurd hdb hne
  have hinfiletype : reader.getInfileType p.myName "infiletype".toList .eSQL = p.infiletype := by
    rw [getInfileType_eq h, hplain rfl, hp.infiletype]
    rfl
  have hpassword : reader.Get p.myName "password".toList [] = p.password := by
    have hnone : p.plainOptions.reverse.lookup "password".toList = none := rfl
    rw [h.get, workerParams.options, List.reverse_append, List.lookup_append, hnone, Option.none_or]
    by_cases hempty : p.password = []
    · rw [if_pos hempty, hempty]
      rfl
    · rw [if_neg hempty]
      rfl
  have hport : readPort reader p.myName p.dbtype = .ok p.port := by
    obtain ⟨hmin, hmax⟩ := hp.port
    have hread : ∀ default_value,
        integerOption reader p.myName "port".toList default_value 1 65535 16 = .ok p.port :=
      fun default_value => integerOption_to_string h default_value (hplain rfl) (by omega) (by omega)
        (by omega) (by decide)
    have hne := dbtype_of_check hp.dbtype
    cases hdb : p.dbtype with
    | eMYSQL => exact hread 3306
    | ePGSQL => exact hread 5432
    | eNONE => exact absurd hdb hne
  obtain ⟨hthreads, hthreads'⟩ := hp.threads
  have hqueries := hp.queries_per_thread
  have hmaxsize := hp.query_list_maxsize
  have htimeout := hp.timeout_secs
  have hconnect := hp.connect_timeout_secs
  refine ⟨hp.dbtype, hport, ?_, ?_, ?_, ?_, ?_, ?_, ?_⟩
  · exact integerOption_to_string h 10 (hplain rfl) (by omega) (by omega) (by omega) (by decide)
  · refine integerOption_to_string h 10000 (hplain rfl) hqueries (by omega) ?_ (by decide)
    unfold int64Max
    omega
  · refine integerOption_to_string h 1073741824 (hplain rfl) hmaxsize (by omega) ?_ (by decide)
    unfold int64Max
    omega
  · refine integerOption_to_string h 0 (hplain rfl) (by omega) (by omega) ?_ (by decide)
    unfold uint32Max
    omega
  · refine integerOption_to_string h 60 (hplain rfl) (by omega) (by omega) ?_ (by decide)
    unfold uint32Max
    omega
  · rw [hp.infiletype]
    rfl
  · rw [htext _ rfl, htext _ rfl, hpassword, htext _ rfl, htext _ rfl, hdbtype, hflag rfl, hflag rfl,
      htext _ rfl, hinfiletype, htext _ rfl, hflag rfl, hflag rfl, hflag rfl, hflag rfl, hflag rfl, hflag rfl,
      hflag rfl]

/-! ### The parameters that a configuration has -/

theorem nameText_of_section {file secName : Str} (h : secName ∈ (INIReader.open (some file)).sections) :
    NameText secName := by
  rw [(reads_open file).sections] at h
  obtain ⟨kind, hkind, hname⟩ := List.mem_filterMap.mp h
  obtain ⟨line, hline, rfl⟩ := List.mem_map.mp hkind
  have hone : '\n' ∉ line := not_mem_of_mem_lines hline
  cases hclass : classify line with
  | header sec =>
    rw [hclass] at hname
    obtain rfl : sec = secName := Option.some.inj hname
    cases classified_iff.mpr hclass with
    | header _ _ h =>
      obtain ⟨ws, rfl, -, hne, hbracket⟩ := h
      exact ⟨hne, hbracket, fun hnl => hone (by simp [hnl])⟩
  | _ =>
    rw [hclass] at hname
    cases hname

theorem assignments_line {above : Option Str} {ls : List Str} :
    ∀ x ∈ assignments above (ls.map classify), ∃ line ∈ ls, ∃ key, classify line = .assignment key x.2 := by
  induction ls generalizing above with
  | nil => simp [assignments]
  | cons line ls ih =>
    have hrest : ∀ above, ∀ x ∈ assignments above (ls.map classify),
        ∃ l ∈ line :: ls, ∃ key, classify l = .assignment key x.2 := by
      intro above x hx
      obtain ⟨l, hl, hkey⟩ := ih x hx
      exact ⟨l, List.mem_cons_of_mem line hl, hkey⟩
    rw [List.map_cons]
    cases hkind : classify line with
    | assignment key value =>
      intro x hx
      rcases List.mem_cons.mp hx with rfl | hx
      · exact ⟨line, List.mem_cons_self, key, hkind⟩
      · exact hrest above x hx
    | _ => exact hrest _

theorem valueText_of_valueIn {file secName name text : Str} (h : valueIn file secName name = some text) :
    ValueText text := by
  refine ⟨lastValue_value h, fun hnl => ?_⟩
  obtain ⟨l, r, hreverse, -⟩ := List.lookup_eq_some_iff.mp h
  have hmem : ((some secName, name), text) ∈ assignments none ((lines '\n' file).map classify) := by
    rw [← List.mem_reverse, hreverse]
    simp
  obtain ⟨line, hline, key, hkey⟩ := assignments_line _ hmem
  cases classified_iff.mpr hkey with
  | assignment _ _ _ h =>
    obtain ⟨ws₀, ws₁, ws₂, ws₃, hparts, -⟩ := assignment_iff.mp h
    refine not_mem_of_mem_lines hline ?_
    rw [hparts.spelled]
    simp [hnl]

theorem settable_of_setup {build : Build} {file secName : Str} {p : workerParams}
    (hsec : secName ∈ (INIReader.open (some file)).sections)
    (hsetup : setupWorkerParams build (INIReader.open (some file)) secName = .ok p) :
    Settable build p ∧ p.myName = secName := by
  have hserves := serves_open hsec
  have hchecked := checked_of_setup hsetup
  have hname : p.myName = secName := congrArg workerParams.myName hchecked.unchecked
  have hget : ∀ {name default_value : Str}, ValueText default_value →
      ValueText ((INIReader.open (some file)).Get secName name default_value) := by
    intro name default_value hdefault
    rw [hserves.get]
    cases hvalue : valueIn file secName name with
    | none => exact hdefault
    | some text => exact valueText_of_valueIn hvalue
  have hrange : ∀ {name : Str} {default_value min max : Int} {bits n : Nat}, 0 ≤ min → max < 2 ^ bits →
      integerOption (INIReader.open (some file)) secName name default_value min max bits = .ok n →
      min ≤ n ∧ (n : Int) ≤ max := fun hmin hmax hoption => (integerOption_range hserves hmin hmax hoption).2
  have hport := (readPort_range hserves (dbtype_of_check hchecked.dbtype) hchecked.port).2
  have hthreads := hrange (by decide) (by decide) hchecked.threads
  have hqueries := hrange (by decide) (by decide) hchecked.queries_per_thread
  have hmaxsize := hrange (by decide) (by decide) hchecked.query_list_maxsize
  have htimeout := hrange (by decide) (by decide) hchecked.timeout
  have hconnect := hrange (by decide) (by decide) hchecked.connect_timeout
  unfold int64Max at hqueries hmaxsize
  unfold uint32Max at htimeout hconnect
  refine ⟨⟨?_, hchecked.dbtype, infiletype_of_check hchecked.infiletype, ?_, ?_, by omega, by omega, by omega,
    by omega, by omega, by omega⟩, hname⟩
  · rw [hname]
    exact nameText_of_section hsec
  · rw [hchecked.unchecked]
    simp only [workerParams.texts, List.forall_mem_cons]
    exact ⟨hget (valueText_of_word (by decide)), hget (valueText_of_word (by decide)),
      hget (valueText_of_word (by decide)), hget (valueText_of_word (by decide)),
      hget (valueText_of_word (by decide)), hget (valueText_of_word (by decide)),
      fun text htext => absurd htext List.not_mem_nil⟩
  · have hpassword : p.password = (INIReader.open (some file)).Get secName "password".toList [] :=
      congrArg workerParams.password hchecked.unchecked
    rw [hpassword, hserves.get]
    cases hvalue : valueIn file secName "password".toList with
    | none => exact .inl rfl
    | some text => exact .inr (valueText_of_valueIn hvalue)

/-! ### All sections -/

theorem results_ok_iff {results : List (Except Str workerParams)} {ps : List workerParams} :
    (if (results.filterMap fun r => match r with
        | .error e => some e
        | .ok _ => none) ≠ [] then .error (results.filterMap fun r => match r with
        | .error e => some e
        | .ok _ => none)
      else .ok (results.filterMap fun r => match r with
        | .ok p => some p
        | .error _ => none) : Except (List Str) (List workerParams)) = .ok ps ↔
      results = ps.map .ok := by
  constructor
  · intro h
    split_ifs at h with herrors
    obtain rfl := Except.ok.inj h
    clear h
    induction results with
    | nil => rfl
    | cons r results ih =>
      cases r with
      | error e => simp at herrors
      | ok p => simpa using ih (by simpa using herrors)
  · rintro rfl
    simp [List.filterMap_map]

theorem buildAllWorkerParams_ok_iff {build : Build} {reader : INIReader} {ps : List workerParams} :
    buildAllWorkerParams build reader = .ok ps ↔
      (reader.sections.filter fun secName => secName.map tolower ≠ "master".toList &&
        reader.GetBoolean secName "run".toList false).map (setupWorkerParams build reader) =
          ps.map .ok :=
  results_ok_iff

/-- **What a configuration can ask for.** The parameters of the workers that some configuration starts are
exactly those in which every worker has a name, a driver that is compiled in, an SQL file, texts that fit
in a line and numbers in their ranges, none is named after the master and those of one name are the same.
Each such list is that of the configuration that `configText` writes. -/
theorem expressible_iff (build : Build) (ps : List workerParams) :
    ((∃ file, buildAllWorkerParams build (INIReader.open (some file)) = .ok ps) ↔ Together build ps) ∧
      (Together build ps → (INIReader.open (some (configText ps))).error = 0 ∧
        buildAllWorkerParams build (INIReader.open (some (configText ps))) = .ok ps) := by
  have hwritten : Together build ps → (INIReader.open (some (configText ps))).error = 0 ∧
      buildAllWorkerParams build (INIReader.open (some (configText ps))) = .ok ps := by
    intro h
    obtain ⟨herror, hsections, hget⟩ := open_configText h.settable
    have hserves : ∀ p ∈ ps, Serves (INIReader.open (some (configText ps))) p.myName
        fun name => p.options.reverse.lookup name := by
      intro p hp
      refine ⟨fun name default_value => ?_, fun name text htext => ?_⟩
      · rw [hget, lookup_written hp fun q hq hname => (h.alike p hp q hq hname.symm).symm]
      · obtain ⟨l, r, hreverse, -⟩ := List.lookup_eq_some_iff.mp htext
        have hmem : (name, text) ∈ p.options := by
          rw [← List.mem_reverse, hreverse]
          simp
        exact ((h.settable p hp).writable _ hmem).2.words.ne
    refine ⟨herror, buildAllWorkerParams_ok_iff.mpr ?_⟩
    rw [hsections, List.filter_eq_self.mpr, List.map_map]
    · exact List.map_congr_left fun p hp =>
        setup_of_checked (checked_of_options (h.settable p hp) (hserves p hp))
    · intro secName hsecName
      obtain ⟨p, hp, rfl⟩ := List.mem_map.mp hsecName
      have hrun := @getBoolean_flagText _ _ _ (hserves p hp) "run".toList true (by
        rw [workerParams.options, List.reverse_append, List.lookup_append]
        rfl)
      rw [hrun, Bool.and_true, decide_eq_true_eq]
      exact h.not_master p hp
  refine ⟨⟨?_, fun h => ⟨configText ps, (hwritten h).2⟩⟩, hwritten⟩
  rintro ⟨file, hfile⟩
  have hresults := buildAllWorkerParams_ok_iff.mp hfile
  have hsetup : ∀ p ∈ ps, ∃ secName ∈ (INIReader.open (some file)).sections,
      secName.map tolower ≠ "master".toList ∧
        setupWorkerParams build (INIReader.open (some file)) secName = .ok p := by
    intro p hp
    have hmem : (.ok p : Except Str workerParams) ∈ ps.map .ok := List.mem_map_of_mem hp
    rw [← hresults] at hmem
    obtain ⟨secName, hsecName, hsetup⟩ := List.mem_map.mp hmem
    obtain ⟨hsec, hruns⟩ := List.mem_filter.mp hsecName
    simp only [ne_eq, decide_not, Bool.and_eq_true, Bool.not_eq_true', decide_eq_false_iff_not] at hruns
    exact ⟨secName, hsec, hruns.1, hsetup⟩
  refine ⟨fun p hp => ?_, fun p hp => ?_, fun p hp q hq hname => ?_⟩
  · obtain ⟨secName, hsec, -, hok⟩ := hsetup p hp
    exact (settable_of_setup hsec hok).1
  · obtain ⟨secName, hsec, hmaster, hok⟩ := hsetup p hp
    rw [(settable_of_setup hsec hok).2]
    exact hmaster
  · obtain ⟨secName, hsec, -, hok⟩ := hsetup p hp
    obtain ⟨secName', hsec', -, hok'⟩ := hsetup q hq
    obtain rfl : secName = secName' := by
      rw [← (settable_of_setup hsec hok).2, hname, (settable_of_setup hsec' hok').2]
    exact Except.ok.inj (hok.symm.trans hok')

end PQuery.Config

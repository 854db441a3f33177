import PQuery.Config.Semantics
import PQuery.Config.WorkerConfig

/-!
# What the documented options mean

The help text and the example configuration name two dozen options. Here each has its documented
name and what a value under that name denotes; an absent option denotes its default. The parameters
of an accepted section are these values, up to one: the log of successful queries is looked up under
a misspelt name (`setupWorkerParams_documented`).
-/

namespace PQuery.Config

open ListScan

/-! ### The documentation -/

inductive DocumentedOption
  | database | dbtype | address | port | infile | infiletype | query_list_maxsize | timeout
  | connect_timeout | logdir | socket | user | password | threads | queries_per_thread | verbose
  | log_all_queries | log_succeeded_queries | log_failed_queries | shuffle | log_query_statistics
  | log_query_duration | log_client_output | log_query_numbers
deriving DecidableEq

def DocumentedOption.name : DocumentedOption → Str
  | .database => "database".toList
  | .dbtype => "dbtype".toList
  | .address => "address".toList
  | .port => "port".toList
  | .infile => "infile".toList
  | .infiletype => "infiletype".toList
  | .query_list_maxsize => "query-list-maxsize".toList
  | .timeout => "timeout".toList
  | .connect_timeout => "connect-timeout".toList
  | .logdir => "logdir".toList
  | .socket => "socket".toList
  | .user => "user".toList
  | .password => "password".toList
  | .threads => "threads".toList
  | .queries_per_thread => "queries-per-thread".toList
  | .verbose => "verbose".toList
  | .log_all_queries => "log-all-queries".toList
  | .log_succeeded_queries => "log-succeeded-queries".toList
  | .log_failed_queries => "log-failed-queries".toList
  | .shuffle => "shuffle".toList
  | .log_query_statistics => "log-query-statistics".toList
  | .log_query_duration => "log-query-duration".toList
  | .log_client_output => "log-client-output".toList
  | .log_query_numbers => "log-query-numbers".toList

inductive Denoted
  | text (value : Str)
  | db (dbtype : eDBTYPE)
  | format (infiletype : eINFILETYPE)
  | number (value : Int)
  | truth (value : Bool)
deriving DecidableEq

/-- A flag is set by one of four words, in any case. -/
def truthOf (text : Str) : Bool :=
  let word := text.map tolower
  word = "true".toList ∨ word = "yes".toList ∨ word = "on".toList ∨ word = "1".toList

def dbOf (text : Str) : Option eDBTYPE :=
  let word := text.map tolower
  if word = "mysql".toList ∨ word = "mariadb".toList then some .eMYSQL
  else if word = "pgsql".toList ∨ word = "postgres".toList ∨ word = "postgresql".toList then
    some .ePGSQL
  else none

def formatOf (text : Str) : Option eINFILETYPE :=
  let word := text.map tolower
  if word = "sql".toList then some .eSQL
  else if word = "genlog".toList then some .eGENLOG
  else if word = "binlog".toList then some .eBINLOG
  else none

/-- What the text behind the digits multiplies by. -/
def sizeSuffix : Str → Option Int
  | [] => some 1
  | c :: _ => if c = '\x00' then some 1 else multiplier c

/-- An integer of 64 bits, and a size behind it. Text behind the size is not looked at: it is the
subject of `malformed_numbers`. -/
def numberOf (text : Str) : Option Int :=
  (readInt64 text).bind fun r => (sizeSuffix (r.2.dropWhile isspace)).map (r.1 * ·)

def defaultPort : eDBTYPE → Int
  | .eMYSQL => 3306
  | .ePGSQL => 5432
  | .eNONE => 0

/-- What an option denotes where `value` gives the texts of the options that are present; nothing
where its text has no meaning for it. -/
def denoted (value : Str → Option Str) (o : DocumentedOption) : Option Denoted :=
  let text default_value := some (.text ((value o.name).getD default_value))
  let truth := some (.truth ((value o.name).any truthOf))
  let number default_value := ((value o.name).elim (some default_value) numberOf).map .number
  let dbtype := (value DocumentedOption.dbtype.name).elim (some .eMYSQL) dbOf
  match o with
  | .database => text "test".toList
  | .dbtype => dbtype.map .db
  | .address => text "localhost".toList
  | .port => dbtype.bind fun dbtype => number (defaultPort dbtype)
  | .infile => text "pquery.sql".toList
  | .infiletype => ((value o.name).elim (some .eSQL) formatOf).map .format
  | .query_list_maxsize => number 1073741824
  | .timeout => number 0
  | .connect_timeout => number 60
  | .logdir => text "/tmp".toList
  | .socket => text "/var/run/mysqld/mysql.sock".toList
  | .user => text "test".toList
  | .password => text []
  | .threads => number 10
  | .queries_per_thread => number 10000
  | .verbose => truth
  | .log_all_queries => truth
  | .log_succeeded_queries => truth
  | .log_failed_queries => truth
  | .shuffle => truth
  | .log_query_statistics => truth
  | .log_query_duration => truth
  | .log_client_output => truth
  | .log_query_numbers => truth

/-- The field of each option. -/
def workerParams.field (p : workerParams) : DocumentedOption → Denoted
  | .database => .text p.database
  | .dbtype => .db p.dbtype
  | .address => .text p.address
  | .port => .number p.port
  | .infile => .text p.infile
  | .infiletype => .format p.infiletype
  | .query_list_maxsize => .number p.query_list_maxsize
  | .timeout => .number p.timeout_secs
  | .connect_timeout => .number p.connect_timeout_secs
  | .logdir => .text p.logdir
  | .socket => .text p.socket
  | .user => .text p.username
  | .password => .text p.password
  | .threads => .number p.threads
  | .queries_per_thread => .number p.queries_per_thread
  | .verbose => .truth p.verbose
  | .log_all_queries => .truth p.log_all_queries
  | .log_succeeded_queries => .truth p.log_succeeded_queries
  | .log_failed_queries => .truth p.log_failed_queries
  | .shuffle => .truth p.shuffle
  | .log_query_statistics => .truth p.log_query_statistics
  | .log_query_duration => .truth p.log_query_duration
  | .log_client_output => .truth p.log_client_output
  | .log_query_numbers => .truth p.log_query_numbers

/-- The last value of an option in the sections of this name. -/
def valueIn (file secName name : Str) : Option Str :=
  lastValue none ((lines '\n' file).map classify) secName name

/-- The documented name and the name in the code set the flag alike. -/
def SpelledAlike (value : Str → Option Str) : Prop :=
  (value DocumentedOption.log_succeeded_queries.name).any truthOf =
    (value "log-succeded-queries".toList).any truthOf

/-! ### The sections of the file -/

theorem lastValue_above {above above' : Option Str} {secName : Str} (h : above ≠ some secName)
    (h' : above' ≠ some secName) (kinds : List LineKind) (name : Str) :
    lastValue above kinds secName name = lastValue above' kinds secName name := by
  unfold lastValue
  induction kinds with
  | nil => rfl
  | cons kind kinds ih =>
    cases kind with
    | assignment key value =>
      simp only [assignments, List.reverse_cons, List.lookup_append, List.lookup_cons,
        key_beq_false h, key_beq_false h', List.lookup_nil, Option.or_none]
      exact ih
    | header sec => rfl
    | _ => exact ih

theorem header_ne {file secName : Str} (h : secName ∈ (INIReader.open (some file)).sections) :
    secName ≠ [] := by
  rw [(reads_open file).sections] at h
  obtain ⟨kind, hkind, hname⟩ := List.mem_filterMap.mp h
  obtain ⟨line, -, hline⟩ := List.mem_map.mp hkind
  cases kind with
  | header sec =>
    obtain rfl : sec = secName := Option.some.inj hname
    cases classified_iff.mpr hline with
    | header _ _ h =>
      obtain ⟨_, _, _, hne, _⟩ := h
      exact hne
  | _ => cases hname

/-- The lookups in a section give the texts of its options, none of them empty. -/
structure Serves (reader : INIReader) (secName : Str) (value : Str → Option Str) : Prop where
  get : ∀ name default_value : Str,
    reader.Get secName name default_value = (value name).getD default_value
  ne : ∀ name text, value name = some text → text ≠ []

theorem serves_open {file secName : Str} (h : secName ∈ (INIReader.open (some file)).sections) :
    Serves (INIReader.open (some file)) secName (valueIn file secName) := by
  refine ⟨fun name default_value => ?_, fun name text htext => (lastValue_value htext).ne⟩
  have habove : some [] ≠ some secName := fun heq => header_ne h (Option.some.inj heq).symm
  have hnone : none ≠ some secName := fun heq => by cases heq
  rw [(reads_open file).get, lastValue_above habove hnone, valueIn]

/-! ### The typed lookups -/

theorem exists_of_isOk {ε α : Type} {x : Except ε α} (h : x.isOk = true) : ∃ a, x = .ok a := by
  cases x with
  | error e => cases h
  | ok a => exact ⟨a, rfl⟩

theorem some_of_getD {α : Type} {o : Option α} {a none_value : α} (h : o.getD none_value = a)
    (hne : a ≠ none_value) : o = some a := by
  cases o with
  | none => exact absurd h.symm hne
  | some b => exact congrArg some h

theorem bind_eq_ok {ε α β : Type} {x : Except ε α} {f : α → Except ε β} {b : β} :
    x >>= f = .ok b ↔ ∃ a, x = .ok a ∧ f a = .ok b := by
  cases x with
  | error e => simp [bind, Except.bind]
  | ok a => simp [bind, Except.bind]

theorem mapError_eq_ok {ε ε' α : Type} {x : Except ε α} {f : ε → ε'} {a : α} :
    x.mapError f = .ok a ↔ x = .ok a := by
  cases x with
  | error e => simp [Except.mapError]
  | ok b => simp [Except.mapError]

theorem map_eq_ok {ε α β : Type} {x : Except ε α} {f : α → β} {b : β} :
    x.map f = .ok b ↔ ∃ a, x = .ok a ∧ f a = b := by
  cases x with
  | error e => simp [Except.map]
  | ok a => simp [Except.map]

/-! ### Integers of 64 bits -/

def FitsInt64 (n : Int) : Prop := int64Min ≤ n ∧ n ≤ int64Max

theorem tdiv_lt_iff {max ipart f : Int} (hmax : 0 ≤ max) (hf : 0 < f) :
    max.tdiv f < ipart ↔ max < ipart * f := by
  rw [Int.tdiv_eq_ediv_of_nonneg hmax, Int.ediv_lt_iff_lt_mul hf]

theorem lt_tdiv_iff {min ipart f : Int} (hmin : min ≤ 0) (hf : 0 < f) :
    ipart < min.tdiv f ↔ ipart * f < min := by
  have hneg : min.tdiv f = -(-min).tdiv f := by rw [Int.neg_tdiv, neg_neg]
  rw [hneg, lt_neg, tdiv_lt_iff (by omega) hf, Int.neg_mul, neg_lt_neg_iff]

theorem multiplier_pos {c : Char} {f : Int} (h : multiplier c = some f) : 0 < f := by
  unfold multiplier at h
  split_ifs at h
  all_goals
    obtain rfl := Option.some.inj h
    decide

/-- The guard before the product is passed where the product fits. -/
theorem guard_iff (ipart : Int) {f : Int} (hf : 0 < f) :
    ¬ (ipart ≠ 0 ∧ (int64Max.tdiv f < ipart ∨ ipart < int64Min.tdiv f)) ↔ FitsInt64 (ipart * f) := by
  rw [tdiv_lt_iff (by decide) hf, lt_tdiv_iff (by decide) hf, FitsInt64, not_and, not_or, not_lt, not_lt]
  constructor
  · intro h
    by_cases hzero : ipart = 0
    · rw [hzero, Int.zero_mul]
      decide
    · exact ⟨(h hzero).2, (h hzero).1⟩
  · exact fun h _ => ⟨h.2, h.1⟩

theorem readInt64_fits {text rest : Str} {ipart : Int} (h : readInt64 text = some (ipart, rest)) :
    FitsInt64 ipart := by
  unfold readInt64 at h
  simp only [Option.ite_none_left_eq_some, Option.some.injEq, Prod.mk.injEq, not_or, not_lt] at h
  obtain ⟨-, hfits, rfl, -⟩ := h
  exact hfits

/-- A number is returned if the text denotes it and it fits, whatever the product would be. -/
theorem getInteger_ok_iff {reader : INIReader} {sec name text : Str} {default_value n : Int}
    (hget : reader.Get sec name [] = text) (hne : text ≠ []) :
    reader.GetInteger sec name default_value = .ok n ↔ numberOf text = some n ∧ FitsInt64 n := by
  rw [INIReader.GetInteger, hget, numberOf]
  simp only [if_neg hne]
  cases hread : readInt64 text with
  | none => simp
  | some r =>
    obtain ⟨ipart, rest⟩ := r
    have hfits := readInt64_fits hread
    simp only [Option.bind_some]
    cases rest.dropWhile isspace with
    | nil =>
      simp only [List.headD_nil, if_true, sizeSuffix, Option.map_some, Int.mul_one, Except.ok.injEq,
        Option.some.injEq]
      exact ⟨fun hn => ⟨hn, hn ▸ hfits⟩, And.left⟩
    | cons c rest =>
      by_cases hc : c = '\x00'
      · rw [if_pos (show (c :: rest).headD '\x00' = '\x00' from hc), sizeSuffix, if_pos hc,
          Option.map_some, Int.mul_one, Except.ok.injEq, Option.some.injEq]
        exact ⟨fun hn => ⟨hn, hn ▸ hfits⟩, And.left⟩
      · rw [if_neg (show (c :: rest).headD '\x00' ≠ '\x00' from hc), sizeSuffix, if_neg hc,
          List.headD_cons]
        cases hsize : multiplier c with
        | none => simp
        | some f =>
          have hguard := guard_iff ipart (multiplier_pos hsize)
          simp only [Option.map_some, Option.some.injEq]
          split_ifs with hout
          · have hnot : ¬ FitsInt64 (ipart * f) := fun hfit => hguard.mpr hfit hout
            simp only [false_iff, not_and]
            rintro rfl
            exact hnot
          · rw [Except.ok.injEq]
            exact ⟨fun hn => ⟨hn, hn ▸ hguard.mp hout⟩, And.left⟩

/-! ### The checks of an accepted section -/

/-- What has been read for the parameters of an accepted section. -/
structure Checked (build : Build) (reader : INIReader) (secName : Str) (p : workerParams) : Prop where
  dbtype : checkDbType build p.dbtype = .ok ()
  port : readPort reader secName p.dbtype = .ok p.port
  threads : integerOption reader secName "threads".toList 10 1 65535 16 = .ok p.threads
  queries_per_thread :
    integerOption reader secName "queries-per-thread".toList 10000 0 int64Max 64 =
      .ok p.queries_per_thread
  query_list_maxsize :
    integerOption reader secName "query-list-maxsize".toList 1073741824 0 int64Max 64 =
      .ok p.query_list_maxsize
  timeout : integerOption reader secName "timeout".toList 0 0 uint32Max 32 = .ok p.timeout_secs
  connect_timeout :
    integerOption reader secName "connect-timeout".toList 60 0 uint32Max 32 = .ok p.connect_timeout_secs
  infiletype : checkInfileType p.dbtype p.infiletype = .ok ()
  unchecked : p = { p with
    myName := secName
    address := reader.Get secName "address".toList "localhost".toList
    username := reader.Get secName "user".toList "test".toList
    password := reader.Get secName "password".toList []
    socket := reader.Get secName "socket".toList "/var/run/mysqld/mysql.sock".toList
    database := reader.Get secName "database".toList "test".toList
    dbtype := reader.getDbType secName "dbtype".toList .eMYSQL
    verbose := reader.GetBoolean secName "verbose".toList false
    shuffle := reader.GetBoolean secName "shuffle".toList false
    infile := reader.Get secName "infile".toList "pquery.sql".toList
    infiletype := reader.getInfileType secName "infiletype".toList .eSQL
    logdir := reader.Get secName "logdir".toList "/tmp".toList
    log_all_queries := reader.GetBoolean secName "log-all-queries".toList false
    log_succeeded_queries := reader.GetBoolean secName "log-succeded-queries".toList false
    log_failed_queries := reader.GetBoolean secName "log-failed-queries".toList false
    log_query_statistics := reader.GetBoolean secName "log-query-statistics".toList false
    log_query_duration := reader.GetBoolean secName "log-query-duration".toList false
    log_client_output := reader.GetBoolean secName "log-client-output".toList false
    log_query_numbers := reader.GetBoolean secName "log-query-numbers".toList false }

theorem checked_of_setup {build : Build} {reader : INIReader} {secName : Str} {p : workerParams}
    (hsetup : setupWorkerParams build reader secName = .ok p) : Checked build reader secName p := by
  obtain ⟨⟨⟩, hdbtype, hsetup⟩ := bind_eq_ok.mp (mapError_eq_ok.mp hsetup)
  obtain ⟨port, hport, hsetup⟩ := bind_eq_ok.mp hsetup
  obtain ⟨threads, hthreads, hsetup⟩ := bind_eq_ok.mp hsetup
  obtain ⟨queries_per_thread, hqueries, hsetup⟩ := bind_eq_ok.mp hsetup
  obtain ⟨query_list_maxsize, hmaxsize, hsetup⟩ := bind_eq_ok.mp hsetup
  obtain ⟨timeout_secs, htimeout, hsetup⟩ := bind_eq_ok.mp hsetup
  obtain ⟨connect_timeout_secs, hconnect, hsetup⟩ := bind_eq_ok.mp hsetup
  obtain ⟨⟨⟩, hinfiletype, hsetup⟩ := bind_eq_ok.mp hsetup
  obtain rfl := Except.ok.inj hsetup
  exact ⟨hdbtype, hport, hthreads, hqueries, hmaxsize, htimeout, hconnect, hinfiletype, rfl⟩

section
variable {reader : INIReader} {secName : Str} {value : Str → Option Str}
  (h : Serves reader secName value)
include h

theorem getBoolean_eq (name : Str) :
    reader.GetBoolean secName name false = (value name).any truthOf := by
  rw [INIReader.GetBoolean, h.get]
  cases value name with
  | none => rfl
  | some text =>
    simp only [Option.getD_some, Option.any_some, truthOf, ite_self, List.mem_cons, List.not_mem_nil,
      or_false]
    split_ifs with htrue
    · exact (decide_eq_true htrue).symm
    · exact (decide_eq_false htrue).symm

theorem getDbType_eq (name : Str) :
    reader.getDbType secName name .eMYSQL = ((value name).elim (some .eMYSQL) dbOf).getD .eNONE := by
  rw [INIReader.getDbType, h.get]
  cases hvalue : value name with
  | none => rfl
  | some text =>
    have hne : text.map tolower ≠ [] := by simpa using h.ne name text hvalue
    simp only [Option.getD_some, if_neg hne, Option.elim_some, dbOf]
    split_ifs <;> rfl

theorem getInfileType_eq (name : Str) :
    reader.getInfileType secName name .eSQL =
      ((value name).elim (some .eSQL) formatOf).getD .eUNKNOWN := by
  rw [INIReader.getInfileType, h.get]
  cases hvalue : value name with
  | none => rfl
  | some text =>
    have hne : text.map tolower ≠ [] := by simpa using h.ne name text hvalue
    simp only [Option.getD_some, if_neg hne, Option.elim_some, formatOf]
    split_ifs <;> rfl

theorem numberOf_of_getInteger {name : Str} {default_value n : Int}
    (hget : reader.GetInteger secName name default_value = .ok n) :
    (value name).elim (some default_value) numberOf = some n := by
  have htext := h.get name []
  cases hvalue : value name with
  | none =>
    rw [hvalue, Option.getD_none] at htext
    rw [INIReader.GetInteger, htext] at hget
    exact congrArg some (Except.ok.inj hget)
  | some text =>
    rw [hvalue, Option.getD_some] at htext
    exact ((getInteger_ok_iff htext (h.ne name text hvalue)).mp hget).1

theorem integerOption_range {name : Str} {default_value min max : Int} {bits n : Nat}
    (hmin : 0 ≤ min) (hmax : max < 2 ^ bits)
    (hoption : integerOption reader secName name default_value min max bits = .ok n) :
    (value name).elim (some default_value) numberOf = some (n : Int) ∧ min ≤ n ∧ n ≤ max := by
  obtain ⟨m, hget, hoption⟩ := bind_eq_ok.mp hoption
  obtain ⟨m', hrange, hoption⟩ := bind_eq_ok.mp hoption
  have hn : (m' % 2 ^ bits).toNat = n := Except.ok.inj hoption
  unfold checkIntRange at hrange
  split_ifs at hrange with hout
  obtain rfl : m = m' := Except.ok.inj hrange
  have hm : m % 2 ^ bits = m := Int.emod_eq_of_lt (by omega) (by omega)
  have hvalue : (n : Int) = m := by rw [← hn, hm, Int.toNat_of_nonneg (by omega)]
  rw [numberOf_of_getInteger h (mapError_eq_ok.mp hget), hvalue]
  exact ⟨rfl, by omega⟩

theorem readPort_range {dbtype : eDBTYPE} {n : Nat} (hdbtype : dbtype ≠ .eNONE)
    (hport : readPort reader secName dbtype = .ok n) :
    (value DocumentedOption.port.name).elim (some (defaultPort dbtype)) numberOf = some (n : Int) ∧
      1 ≤ (n : Int) ∧ (n : Int) ≤ 65535 := by
  cases dbtype with
  | eMYSQL => exact integerOption_range h (by decide) (by decide) hport
  | ePGSQL => exact integerOption_range h (by decide) (by decide) hport
  | eNONE => exact absurd rfl hdbtype

omit h in
theorem dbtype_of_check {build : Build} {dbtype : eDBTYPE} (hcheck : checkDbType build dbtype = .ok ()) :
    dbtype ≠ .eNONE := by
  rintro rfl
  simp [checkDbType] at hcheck

omit h in
theorem infiletype_of_check {dbtype : eDBTYPE} {infiletype : eINFILETYPE}
    (hcheck : checkInfileType dbtype infiletype = .ok ()) : infiletype = .eSQL := by
  by_contra hne
  cases infiletype with
  | eSQL => exact hne rfl
  | eUNKNOWN => cases hcheck
  | eGENLOG => by_cases hpg : dbtype = .ePGSQL <;> simp [checkInfileType, hpg] at hcheck
  | eBINLOG => by_cases hpg : dbtype = .ePGSQL <;> simp [checkInfileType, hpg] at hcheck

/-! ### The parameters of an accepted section -/

/-- The parameters of a section whose options have these texts. -/
structure Accepted (secName : Str) (value : Str → Option Str) (p : workerParams) : Prop where
  myName : p.myName = secName
  threads : 0 < p.threads
  infiletype : p.infiletype = .eSQL
  misspelt : p.log_succeeded_queries = (value "log-succeded-queries".toList).any truthOf
  documented : ∀ o, o ≠ .log_succeeded_queries → denoted value o = some (p.field o)

theorem accepted_of_setup {build : Build} {p : workerParams}
    (hsetup : setupWorkerParams build reader secName = .ok p) : Accepted secName value p := by
  have hchecked := checked_of_setup hsetup
  have htext : ∀ name default_value, some (Denoted.text ((value name).getD default_value)) =
      some (.text (reader.Get secName name default_value)) := by
    intro name default_value
    rw [h.get]
  have htruth : ∀ name, some (Denoted.truth ((value name).any truthOf)) =
      some (.truth (reader.GetBoolean secName name false)) := by
    intro name
    rw [getBoolean_eq h]
  have hnumber : ∀ {name : Str} {default_value : Int} {n : Nat},
      (value name).elim (some default_value) numberOf = some (n : Int) →
      ((value name).elim (some default_value) numberOf).map Denoted.number = some (.number n) := by
    intro name default_value n hn
    rw [hn, Option.map_some]
  have hdbtype : p.dbtype = reader.getDbType secName "dbtype".toList .eMYSQL :=
    congrArg workerParams.dbtype hchecked.unchecked
  have hinfiletype : p.infiletype = reader.getInfileType secName "infiletype".toList .eSQL :=
    congrArg workerParams.infiletype hchecked.unchecked
  have hlogged : p.log_succeeded_queries = reader.GetBoolean secName "log-succeded-queries".toList false :=
    congrArg workerParams.log_succeeded_queries hchecked.unchecked
  have hne := dbtype_of_check hchecked.dbtype
  have hsql := infiletype_of_check hchecked.infiletype
  have hdb : (value DocumentedOption.dbtype.name).elim (some .eMYSQL) dbOf = some p.dbtype :=
    some_of_getD ((getDbType_eq h _).symm.trans hdbtype.symm) hne
  have hformat : (value DocumentedOption.infiletype.name).elim (some .eSQL) formatOf =
      some p.infiletype :=
    some_of_getD ((getInfileType_eq h _).symm.trans hinfiletype.symm) (by rw [hsql]; decide)
  have hthreads_pos : (1 : Int) ≤ p.threads :=
    (integerOption_range h (by decide) (by decide) hchecked.threads).2.1
  refine ⟨congrArg workerParams.myName hchecked.unchecked, Int.natCast_pos.mp hthreads_pos, hsql,
    hlogged.trans (getBoolean_eq h _), fun o ho => ?_⟩
  rw [hchecked.unchecked]
  cases o with
  | dbtype =>
    rw [← hdbtype]
    exact congrArg (Option.map Denoted.db) hdb
  | port =>
    simp only [denoted, hdb, Option.bind_some]
    exact hnumber (readPort_range h hne hchecked.port).1
  | infiletype =>
    rw [← hinfiletype]
    exact congrArg (Option.map Denoted.format) hformat
  | query_list_maxsize =>
    exact hnumber (integerOption_range h (by decide) (by decide) hchecked.query_list_maxsize).1
  | timeout => exact hnumber (integerOption_range h (by decide) (by decide) hchecked.timeout).1
  | connect_timeout =>
    exact hnumber (integerOption_range h (by decide) (by decide) hchecked.connect_timeout).1
  | threads => exact hnumber (integerOption_range h (by decide) (by decide) hchecked.threads).1
  | queries_per_thread =>
    exact hnumber (integerOption_range h (by decide) (by decide) hchecked.queries_per_thread).1
  | database => exact htext _ _
  | address => exact htext _ _
  | infile => exact htext _ _
  | logdir => exact htext _ _
  | socket => exact htext _ _
  | user => exact htext _ _
  | password => exact htext _ _
  | log_succeeded_queries => exact absurd rfl ho
  | verbose => exact htruth _
  | log_all_queries => exact htruth _
  | log_failed_queries => exact htruth _
  | shuffle => exact htruth _
  | log_query_statistics => exact htruth _
  | log_query_duration => exact htruth _
  | log_client_output => exact htruth _
  | log_query_numbers => exact htruth _

end

/-- The parameters are the denoted ones if and only if the misspelt name makes no difference. -/
theorem denoted_iff_spelledAlike {build : Build} {file secName : Str} {p : workerParams}
    (hsec : secName ∈ (INIReader.open (some file)).sections)
    (hsetup : setupWorkerParams build (INIReader.open (some file)) secName = .ok p) :
    (∀ o, denoted (valueIn file secName) o = some (p.field o)) ↔ SpelledAlike (valueIn file secName) := by
  have haccepted := accepted_of_setup (serves_open hsec) hsetup
  have hfield : denoted (valueIn file secName) .log_succeeded_queries =
      some (p.field .log_succeeded_queries) ↔ SpelledAlike (valueIn file secName) := by
    simp only [denoted, workerParams.field, Option.some.injEq, Denoted.truth.injEq, haccepted.misspelt]
    rfl
  rw [← hfield]
  refine ⟨fun hall => hall _, fun hlogged o => ?_⟩
  by_cases ho : o = .log_succeeded_queries
  · rw [ho]
    exact hlogged
  · exact haccepted.documented o ho

/-- **The documented options.** Every parameter of an accepted section is what its option denotes
under its documented name if and only if the two spellings set the log of successful queries alike.
Where they do, sections in which some option denotes different values have different parameters. -/
theorem setupWorkerParams_documented {build : Build} {file secName : Str} {p : workerParams}
    (hsec : secName ∈ (INIReader.open (some file)).sections)
    (hsetup : setupWorkerParams build (INIReader.open (some file)) secName = .ok p) :
    ((∀ o, denoted (valueIn file secName) o = some (p.field o)) ↔ SpelledAlike (valueIn file secName)) ∧
    ∀ build' file' secName' p', secName' ∈ (INIReader.open (some file')).sections →
      setupWorkerParams build' (INIReader.open (some file')) secName' = .ok p' →
      SpelledAlike (valueIn file secName) → SpelledAlike (valueIn file' secName') →
      (∃ o, denoted (valueIn file secName) o ≠ denoted (valueIn file' secName') o) → p ≠ p' := by
  refine ⟨denoted_iff_spelledAlike hsec hsetup, ?_⟩
  rintro build' file' secName' p' hsec' hsetup' hspelled hspelled' ⟨o, ho⟩ rfl
  have hp := (denoted_iff_spelledAlike hsec hsetup).mpr hspelled o
  have hp' := (denoted_iff_spelledAlike hsec' hsetup').mpr hspelled' o
  exact ho (hp.trans hp'.symm)

/-- A section with both spellings, and one that does not set the flag. -/
theorem setupWorkerParams_documented_two : ∃ p p',
    setupWorkerParams ⟨true, true⟩ (INIReader.open (some
      "[w]\nlog-succeeded-queries = yes\nlog-succeded-queries = On\n".toList)) "w".toList = .ok p ∧
    setupWorkerParams ⟨true, true⟩ (INIReader.open (some "[w]\nthreads = 2\n".toList)) "w".toList = .ok p' ∧
    (∀ o, denoted (valueIn "[w]\nlog-succeeded-queries = yes\nlog-succeded-queries = On\n".toList
      "w".toList) o = some (p.field o)) ∧ p ≠ p' := by
  obtain ⟨p, hp⟩ := exists_of_isOk (x := setupWorkerParams ⟨true, true⟩ (INIReader.open (some
    "[w]\nlog-succeeded-queries = yes\nlog-succeded-queries = On\n".toList)) "w".toList)
    (by decide +kernel)
  obtain ⟨p', hp'⟩ := exists_of_isOk (x := setupWorkerParams ⟨true, true⟩ (INIReader.open (some
    "[w]\nthreads = 2\n".toList)) "w".toList) (by decide +kernel)
  obtain ⟨hiff, hne⟩ := setupWorkerParams_documented (by decide +kernel) hp
  have hspelled : SpelledAlike (valueIn "[w]\nlog-succeeded-queries = yes\nlog-succeded-queries = On\n".toList
      "w".toList) := by unfold SpelledAlike; decide +kernel
  refine ⟨p, p', hp, hp', hiff.mpr hspelled, hne _ _ _ _ (by decide +kernel) hp' hspelled ?_ ?_⟩
  · unfold SpelledAlike
    decide +kernel
  · exact ⟨.threads, by decide +kernel⟩

/-- With the documented spelling alone the flag is not set: the section has the parameters of one
without it. -/
theorem setupWorkerParams_misspelt : ∃ p,
    (INIReader.open (some "[w]\nlog-succeeded-queries = yes\n".toList)).error = 0 ∧
    setupWorkerParams ⟨true, true⟩ (INIReader.open (some "[w]\nlog-succeeded-queries = yes\n".toList))
      "w".toList = .ok p ∧
    setupWorkerParams ⟨true, true⟩ (INIReader.open (some "[w]\n".toList)) "w".toList = .ok p ∧
    denoted (valueIn "[w]\nlog-succeeded-queries = yes\n".toList "w".toList) .log_succeeded_queries =
      some (.truth true) ∧
    denoted (valueIn "[w]\n".toList "w".toList) .log_succeeded_queries = some (.truth false) ∧
    p.field .log_succeeded_queries = .truth false := by
  obtain ⟨p, hp⟩ := exists_of_isOk (x := setupWorkerParams ⟨true, true⟩ (INIReader.open (some
    "[w]\nlog-succeeded-queries = yes\n".toList)) "w".toList) (by decide +kernel)
  have hsame : setupWorkerParams ⟨true, true⟩ (INIReader.open (some "[w]\n".toList)) "w".toList =
      setupWorkerParams ⟨true, true⟩ (INIReader.open (some
        "[w]\nlog-succeeded-queries = yes\n".toList)) "w".toList := by decide +kernel
  have hmisspelt := (accepted_of_setup (serves_open (by decide +kernel)) hp).misspelt
  refine ⟨p, by decide +kernel, hp, hsame.trans hp, by decide +kernel, by decide +kernel, ?_⟩
  rw [workerParams.field, hmisspelt]
  decide +kernel

end PQuery.Config

import PQuery.Library.KeywordValue
import PQuery.Config.WorkerConfig

/-!
# The connection string of a PostgreSQL worker

`PgsqlDatabase::connect` writes the parameters of the connection one after another, without any
quoting, and the client library reads the string by its keyword and value grammar. The library gives
back what was meant exactly for the records whose texts are plain; the default password, which is
empty, is not.
-/

namespace PQuery.Pgsql

open Config KeywordValue

/-- The string given to `PQconnectdb`. -/
def conninfo (dbParams : workerParams) : Str :=
  "host=".toList ++ dbParams.address ++ " user=".toList ++ dbParams.username ++
    " password=".toList ++ dbParams.password ++ " dbname=".toList ++ dbParams.database ++
    " port=".toList ++ to_string dbParams.port ++
    if dbParams.connect_timeout_secs > 0 then
      " connect_timeout=".toList ++ to_string dbParams.connect_timeout_secs
    else []

/-- The connection that the record asks for. -/
def settings (dbParams : workerParams) : List Setting :=
  [("host".toList, dbParams.address), ("user".toList, dbParams.username),
    ("password".toList, dbParams.password), ("dbname".toList, dbParams.database),
    ("port".toList, to_string dbParams.port)] ++
    if dbParams.connect_timeout_secs > 0 then
      [("connect_timeout".toList, to_string dbParams.connect_timeout_secs)]
    else []

/-- The client library reads the settings that are meant and no others. -/
def Connects (dbParams : workerParams) : Prop :=
  ∃ ps, decode isspace (cString (conninfo dbParams)) = some ps ∧
    ∀ keyword, valueOf ps keyword = valueOf (settings dbParams) keyword

/-- A text that can stand in the string as it is: not empty, without white space, backslashes and
NULs, and not starting with a quote. -/
def PlainText (text : Str) : Prop := Plain isspace text ∧ '\x00' ∉ text

theorem conninfo_eq (dbParams : workerParams) :
    conninfo dbParams = encode (settings dbParams) := by
  unfold conninfo settings
  by_cases h : dbParams.connect_timeout_secs > 0
  · rw [if_pos h, if_pos h]
    simp [encode]
  · rw [if_neg h, if_neg h]
    simp [encode]

/-- The keywords that the string may use, in its order. -/
def keywords : List Str :=
  ["host".toList, "user".toList, "password".toList, "dbname".toList, "port".toList,
    "connect_timeout".toList]

theorem settings_map_fst (dbParams : workerParams) :
    ((settings dbParams).map Prod.fst).Sublist keywords := by
  unfold settings
  by_cases h : dbParams.connect_timeout_secs > 0
  · rw [if_pos h]
    exact List.Sublist.refl _
  · rw [if_neg h]
    exact List.take_sublist 5 keywords

theorem settings_isKeyword (dbParams : workerParams) :
    ∀ e ∈ settings dbParams, IsKeyword isspace e.1 := by
  have hkeys : ∀ name ∈ keywords, IsKeyword isspace name := by
    have hall : keywords.all (fun name => decide (name ≠ [] ∧
        name.all (fun c => decide (c ≠ '=' ∧ isspace c = false)) = true)) = true := by decide
    intro name hname
    obtain ⟨hne, hchars⟩ := of_decide_eq_true (List.all_eq_true.mp hall name hname)
    exact ⟨hne, forall_mem_of_all hchars⟩
  exact fun e he => hkeys _ ((settings_map_fst dbParams).subset (List.mem_map_of_mem he))

theorem settings_nodup (dbParams : workerParams) : ((settings dbParams).map Prod.fst).Nodup :=
  (settings_map_fst dbParams).nodup (by decide)

theorem plain_to_string (n : Nat) : PlainText (to_string n) := by
  obtain ⟨hne, hdigits⟩ := to_string_digits n
  have hdigit : ∀ c : Char, c.isDigit = true →
      isspace c = false ∧ c ≠ '\\' ∧ c ≠ '\'' ∧ c ≠ '\x00' := by
    intro c hc
    refine ⟨?_, ?_, ?_, ?_⟩
    · rw [← Bool.not_eq_true]
      intro hs
      simp only [isspace, Bool.or_eq_true, beq_iff_eq] at hs
      rcases hs with ((((rfl | rfl) | rfl) | rfl) | rfl) | rfl <;> simp [Char.isDigit] at hc
    all_goals
      rintro rfl
      simp [Char.isDigit] at hc
  refine ⟨⟨hne, fun h => ?_, fun c hc => ?_⟩, fun h => ?_⟩
  · exact (hdigit '\'' (hdigits _ (List.mem_of_mem_head? h))).2.2.1 rfl
  · exact ⟨(hdigit c (hdigits c hc)).1, (hdigit c (hdigits c hc)).2.1⟩
  · exact (hdigit '\x00' (hdigits _ h)).2.2.2 rfl

/-- The texts that decide whether the string is read as it is meant. -/
def PlainFields (dbParams : workerParams) : Prop :=
  PlainText dbParams.address ∧ PlainText dbParams.username ∧ PlainText dbParams.password ∧
    PlainText dbParams.database

theorem plainText_settings {dbParams : workerParams} (h : PlainFields dbParams) :
    ∀ e ∈ settings dbParams, PlainText e.2 := by
  obtain ⟨ha, hu, hp, hd⟩ := h
  intro e he
  simp only [settings, List.mem_append, List.mem_cons, List.not_mem_nil, or_false] at he
  rcases he with (rfl | rfl | rfl | rfl | rfl) | he
  · exact ha
  · exact hu
  · exact hp
  · exact hd
  · exact plain_to_string _
  · split at he
    · rw [List.mem_singleton] at he
      exact he ▸ plain_to_string _
    · simp at he

theorem cString_eq_self {text : Str} : cString text = text ↔ '\x00' ∉ text := by
  rw [cString, List.takeWhile_eq_self_iff]
  constructor
  · intro h hmem
    simpa using h _ hmem
  · exact fun h c hc => by simpa using ne_of_mem_of_not_mem hc h

/-- A string that is read as it is meant holds the settings and nothing else, in some order. -/
theorem Connects.perm {dbParams : workerParams} (h : Connects dbParams) :
    '\x00' ∉ conninfo dbParams ∧
      ∃ ps, decode isspace (encode (settings dbParams)) = some ps ∧ ps.Perm (settings dbParams) := by
  obtain ⟨ps, hdecode, hvalue⟩ := h
  have hnodup := settings_nodup dbParams
  have hsub : ∀ e ∈ settings dbParams, e ∈ ps := fun e he =>
    mem_of_valueOf ((hvalue e.1).trans (valueOf_of_mem hnodup he))
  have hcut : cString (conninfo dbParams) <+: conninfo dbParams := List.takeWhile_prefix _
  have hle := weight_le isspace hdecode
  have hweight := weight_encode (show settings dbParams ≠ [] from List.cons_ne_nil _ _)
  rw [← conninfo_eq] at hweight
  have hcutle := hcut.length_le
  have hperm := perm_of_subset hnodup hsub (by omega)
  have hwhole : cString (conninfo dbParams) = conninfo dbParams :=
    hcut.eq_of_length (by rw [weight_perm hperm] at hle; omega)
  rw [hwhole, conninfo_eq] at hdecode
  exact ⟨cString_eq_self.mp hwhole, ps, hdecode, hperm⟩

/-- **The connection string is read as it is meant exactly for the records with plain texts.** -/
theorem connects_iff (dbParams : workerParams) : Connects dbParams ↔ PlainFields dbParams := by
  constructor
  · intro h
    obtain ⟨hnul, ps, hdecode, hperm⟩ := h.perm
    have hplain := plain_of_decode (by decide) (by decide) (settings_isKeyword dbParams)
      (settings_nodup dbParams) hdecode hperm
    have htext : ∀ keyword v, (keyword, v) ∈ (settings dbParams).dropLast → PlainText v := by
      intro keyword v he
      refine ⟨hplain _ he, fun hmem => hnul ?_⟩
      rw [conninfo_eq]
      exact mem_encode_of_mem (List.dropLast_subset _ he) hmem
    have hmem : ∀ e ∈ (settings dbParams).take 4, e ∈ (settings dbParams).dropLast := by
      unfold settings
      split <;> simp
    exact ⟨htext _ _ (hmem _ (List.mem_of_getElem? (show _[0]? = some _ from rfl))),
      htext _ _ (hmem _ (List.mem_of_getElem? (show _[1]? = some _ from rfl))),
      htext _ _ (hmem _ (List.mem_of_getElem? (show _[2]? = some _ from rfl))),
      htext _ _ (hmem _ (List.mem_of_getElem? (show _[3]? = some _ from rfl)))⟩
  · intro h
    have htexts := plainText_settings h
    have hnul : '\x00' ∉ conninfo dbParams := by
      rw [conninfo_eq]
      intro hmem
      rcases mem_encode hmem with h | h | ⟨e, he, h | h⟩
      · simp at h
      · simp at h
      · exact absurd ((settings_map_fst dbParams).subset (List.mem_map_of_mem he)) fun hkey => by
          have hall : ∀ name ∈ keywords, '\x00' ∉ name := by decide
          exact hall _ hkey h
      · exact (htexts e he).2 h
    refine ⟨settings dbParams, ?_, fun keyword => rfl⟩
    rw [cString_eq_self.mpr hnul, conninfo_eq]
    exact decode_encode (by decide) (by decide) (settings_isKeyword dbParams)
      fun e he => (htexts e he).1

/-- With the default password the library takes the database for the password. -/
theorem not_connects_default :
    ∃ p, setupWorkerParams ⟨true, true⟩
        (INIReader.open (some "[pg]\ndbtype = pgsql\n".toList)) "pg".toList = .ok p ∧
      p.dbtype = .ePGSQL ∧ ¬ Connects p ∧
      decode isspace (cString (conninfo p)) = some
        [("host".toList, "localhost".toList), ("user".toList, "test".toList),
          ("password".toList, "dbname=test".toList), ("port".toList, "5432".toList),
          ("connect_timeout".toList, "60".toList)] := by
  have hread : setupWorkerParams ⟨true, true⟩
      (INIReader.open (some "[pg]\ndbtype = pgsql\n".toList)) "pg".toList =
      .ok {
        myName := "pg".toList, database := "test".toList, dbtype := .ePGSQL,
        address := "localhost".toList, socket := "/var/run/mysqld/mysql.sock".toList,
        username := "test".toList, password := [], infile := "pquery.sql".toList,
        infiletype := .eSQL, logdir := "/tmp".toList, port := 5432, threads := 10,
        queries_per_thread := 10000, query_list_maxsize := 1073741824, verbose := false,
        log_all_queries := false, log_failed_queries := false, log_succeeded_queries := false,
        log_query_statistics := false, log_query_duration := false, log_client_output := false,
        log_query_numbers := false, shuffle := false, timeout_secs := 0,
        connect_timeout_secs := 60 } := by
    decide +kernel
  generalize hp : workerParams.mk _ _ _ _ _ _ _ _ _ _ _ _ _ _ _ _ _ _ _ _ _ _ _ _ _ = p at hread
  have hdecode : decode isspace (cString (conninfo p)) = some
      [("host".toList, "localhost".toList), ("user".toList, "test".toList),
        ("password".toList, "dbname=test".toList), ("port".toList, "5432".toList),
        ("connect_timeout".toList, "60".toList)] := by
    subst hp
    decide +kernel
  refine ⟨p, hread, by rw [← hp], ?_, hdecode⟩
  rintro ⟨ps, hps, hvalue⟩
  rw [hdecode] at hps
  obtain rfl := Option.some.inj hps
  have hdbname := hvalue "dbname".toList
  subst hp
  exact absurd hdbname (by decide +kernel)

end PQuery.Pgsql

import PQuery.Config.Options
import PQuery.DbWorker.ExecuteTests
import PQuery.Process.Sections
import PQuery.Process.Start

/-!
# The files of the workers

A worker opens its own log and, in its threads, a log of the queries and one of the client output.
The paths are made of the name of its section and of its `logdir`, and nothing checks that they differ
from those of another worker. They do exactly where the sections that run have different names and
differ in what stands before the number of a thread (`workers_apart`). Two files are taken to be the
same where their paths are the same text.
-/

namespace PQuery.Process

open Config DbWorker Fork ListScan

/-! ### What is opened -/

/-- `reinitChildLog` -/
def workerLog (masterLogDir name : Str) : Str := masterLogDir ++ '/' :: name ++ "_worker.log".toList

/-- A file of `workerThread`. -/
def threadFile (mParams : workerParams) (number : Nat) (extension : Str) : Str :=
  mParams.logdir ++ '/' :: mParams.myName ++ "_thread-".toList ++ to_string number ++ extension

/-- The logs that `workerThread` creates: that of the client output and that of the queries. -/
def extensions (mParams : workerParams) : List Str :=
  (if mParams.log_client_output then [".out".toList] else []) ++
    if logsThread mParams then [".sql".toList] else []

/-- The files that `workerThread` opens: with an empty list it returns before. -/
def threadFiles (w : Worker) (number : Nat) : List Str :=
  if w.queryList = [] then [] else (extensions w.params).map (threadFile w.params number)

/-- A file that a thread of `executeTests` opens, for some answers of the outside. -/
def ThreadsOpen (Params : workerParams) (path : Str) : Prop :=
  ∃ testConnection infile previous w, prepare Params testConnection infile previous = some w ∧
    ∃ number < w.params.threads, path ∈ threadFiles w number

/-- A file that a worker with these parameters opens. -/
def Opens (masterLogDir : Str) (Params : workerParams) (path : Str) : Prop :=
  path = workerLog masterLogDir Params.myName ∨ ThreadsOpen Params path

/-- A file that a process has opened itself or in a section it has run. -/
def Opened (t : Tree system ExitStatus) (path : Str) : Prop :=
  (∃ answer, ⟨.initLogFile path, answer⟩ ∈ t.calls) ∨ ∃ x ∈ executed t, ThreadsOpen x.1 path

/-! ### What the configuration says -/

section
variable (file secName : Str)

/-- What stands before the number of a thread. -/
def stem : Str :=
  (valueIn file secName DocumentedOption.logdir.name).getD "/tmp".toList ++ '/' :: secName

def flagIn (name : Str) : Bool := (valueIn file secName name).any truthOf

/-- The kinds of logs that the section asks for; where its list has no room, none is opened. -/
def asked : List Str :=
  if (valueIn file secName DocumentedOption.query_list_maxsize.name).elim (some 1073741824) numberOf =
      some 0 then []
  else
    (if flagIn file secName "log-client-output".toList then [".out".toList] else []) ++
      if ["log-failed-queries".toList, "log-all-queries".toList, "log-succeded-queries".toList,
        "log-query-duration".toList, "log-query-statistics".toList, "log-query-numbers".toList].any
          (flagIn file secName) then [".sql".toList] else []

end

/-- Sections with different names, and different stems where both ask for one kind of log. -/
def Apart (file secName secName' : Str) : Prop :=
  secName ≠ secName' ∧ (stem file secName = stem file secName' →
    ∀ extension ∈ asked file secName, extension ∉ asked file secName')

instance (file secName secName' : Str) : Decidable (Apart file secName secName') :=
  inferInstanceAs (Decidable (_ ∧ (_ → _)))

/-! ### The paths -/

theorem workerLog_inj {masterLogDir name name' : Str} :
    workerLog masterLogDir name = workerLog masterLogDir name' ↔ name = name' := by
  simp [workerLog]

theorem mem_extensions {p : workerParams} {extension : Str} (h : extension ∈ extensions p) :
    extension ∈ [".out".toList, ".sql".toList] := by
  rcases List.mem_append.mp h with h | h
  · split_ifs at h
    · exact List.mem_append_left _ h
    · cases h
  · split_ifs at h
    · exact List.mem_cons_of_mem _ h
    · cases h

theorem length_extension {extension : Str} (h : extension ∈ [".out".toList, ".sql".toList]) :
    extension.length = 4 := by
  have hall : ∀ e ∈ [".out".toList, ".sql".toList], e.length = 4 := by decide
  exact hall extension h

theorem threadFile_inj {p q : workerParams} {number number' : Nat} {extension extension' : Str}
    (hextension : extension ∈ extensions p) (hextension' : extension' ∈ extensions q)
    (h : threadFile p number extension = threadFile q number' extension') :
    p.logdir ++ '/' :: p.myName = q.logdir ++ '/' :: q.myName ∧ extension = extension' := by
  have hlength : extension.length = extension'.length := by
    rw [length_extension (mem_extensions hextension), length_extension (mem_extensions hextension')]
  have hdash : ∀ n : Nat, '-' ∉ to_string n := fun n hmem => by
    have hdigit := (to_string_digits n).2 '-' hmem
    cases hdigit
  have hsplit : ∀ (base : Str) (n : Nat), base ++ "_thread-".toList ++ to_string n =
      (base ++ "_thread".toList) ++ '-' :: to_string n := fun base n => by simp
  obtain ⟨hpath, hsame⟩ := List.append_inj' h hlength
  rw [hsplit, hsplit] at hpath
  have hbase := (append_cons_inj (hdash number) (hdash number') hpath).1
  exact ⟨List.append_cancel_right hbase, hsame⟩

theorem workerLog_ne_threadFile {masterLogDir name : Str} {p q : workerParams} {number : Nat}
    {extension : Str} (hextension : extension ∈ extensions q) :
    workerLog masterLogDir name ≠ threadFile p number extension := by
  intro h
  have hmem := mem_extensions hextension
  have hlength : ".log".toList.length = extension.length := (length_extension hmem).symm
  have hsplit : workerLog masterLogDir name =
      (masterLogDir ++ '/' :: name ++ "_worker".toList) ++ ".log".toList := by simp [workerLog]
  rw [hsplit] at h
  rw [← (List.append_inj' h hlength).2] at hmem
  exact absurd hmem (by decide)

/-! ### The threads of a worker -/

theorem adjusted_paths (p : workerParams) (queryList : List Str) :
    threadFile (adjustRuntimeParams p queryList) = threadFile p ∧
      extensions (adjustRuntimeParams p queryList) = extensions p := by
  unfold adjustRuntimeParams
  by_cases hshuffle : p.shuffle = true
  · rw [if_pos hshuffle]
    exact ⟨rfl, rfl⟩
  · rw [if_neg hshuffle]
    exact ⟨rfl, rfl⟩

theorem path_of_threadsOpen {p : workerParams} {path : Str} (h : ThreadsOpen p path) :
    0 < p.query_list_maxsize ∧ ∃ number, ∃ extension ∈ extensions p, path = threadFile p number extension := by
  obtain ⟨testConnection, infile, previous, w, hprepare, number, -, hpath⟩ := h
  cases infile with
  | none =>
    have hnone : prepare p testConnection none previous = none := by
      unfold prepare loadQueryList
      cases testConnection <;> cases createInfileParser p <;> rfl
    rw [hnone] at hprepare
    cases hprepare
  | some file =>
    obtain ⟨hqueries, hparams, hsize⟩ := prepare_eq_some hprepare
    unfold threadFiles at hpath
    split_ifs at hpath with hlist
    · cases hpath
    · have hfile : file ≠ [] := by
        rintro rfl
        exact hlist (hqueries.trans (by cases p.dbtype <;> rfl))
      rw [hparams, (adjusted_paths p _).1, (adjusted_paths p _).2] at hpath
      obtain ⟨extension, hextension, rfl⟩ := List.mem_map.mp hpath
      exact ⟨(List.length_pos_iff.mpr hfile).trans_le hsize, number, extension, hextension, rfl⟩

/-- Where the list has room for a byte, thread 0 opens its files for a file of one byte. -/
theorem threadsOpen_of_room {p : workerParams} (hinfiletype : p.infiletype = .eSQL)
    (hthreads : 0 < p.threads) (hsize : 0 < p.query_list_maxsize) {extension : Str}
    (hextension : extension ∈ extensions p) : ThreadsOpen p (threadFile p 0 extension) := by
  have hparser : createInfileParser p = some (.SqlFileParser (p.dbtype == .ePGSQL)) := by
    unfold createInfileParser
    rw [hinfiletype]
    cases p.dbtype <;> rfl
  have hvalid : validateInfileSize p (some "a".toList) = true := by
    have hlt : ¬ p.query_list_maxsize < 1 := by omega
    simp [validateInfileSize, getInfileSize, hlt]
  have hlist : SqlFile.loadQueriesFromFile (p.dbtype == .ePGSQL) [] "a".toList ≠ [] := by
    cases p.dbtype <;> decide +kernel
  generalize hqueries : SqlFile.loadQueriesFromFile (p.dbtype == .ePGSQL) [] "a".toList = queryList at hlist
  refine ⟨true, some "a".toList, none, ⟨adjustRuntimeParams p queryList, queryList⟩, ?_, 0, ?_, ?_⟩
  · unfold prepare loadQueryList
    simp only [hparser, hvalid, ← hqueries]
    rfl
  · unfold adjustRuntimeParams
    by_cases hshuffle : p.shuffle = true
    · rwa [if_pos hshuffle]
    · rw [if_neg hshuffle]
      exact Nat.one_pos
  · rw [threadFiles, if_neg hlist, (adjusted_paths p _).1, (adjusted_paths p _).2]
    exact List.mem_map_of_mem hextension

/-! ### Two accepted sections -/

section
variable {file secName secName' : Str} {p q : workerParams}

theorem accepted_stem (h : Accepted secName (valueIn file secName) p) :
    p.logdir ++ '/' :: p.myName = stem file secName := by
  have hlogdir := Denoted.text.inj (Option.some.inj (h.documented .logdir (by decide)))
  rw [stem, hlogdir, h.myName]

theorem mem_asked (h : Accepted secName (valueIn file secName) p) {extension : Str} :
    extension ∈ asked file secName ↔ 0 < p.query_list_maxsize ∧ extension ∈ extensions p := by
  have houtput := Denoted.truth.inj (Option.some.inj (h.documented .log_client_output (by decide)))
  have hfailed := Denoted.truth.inj (Option.some.inj (h.documented .log_failed_queries (by decide)))
  have hall := Denoted.truth.inj (Option.some.inj (h.documented .log_all_queries (by decide)))
  have hduration := Denoted.truth.inj (Option.some.inj (h.documented .log_query_duration (by decide)))
  have hstatistics := Denoted.truth.inj (Option.some.inj (h.documented .log_query_statistics (by decide)))
  have hnumbers := Denoted.truth.inj (Option.some.inj (h.documented .log_query_numbers (by decide)))
  have hlogs : logsThread p = ["log-failed-queries".toList, "log-all-queries".toList,
      "log-succeded-queries".toList, "log-query-duration".toList, "log-query-statistics".toList,
      "log-query-numbers".toList].any (flagIn file secName) := by
    rw [logsThread, ← hfailed, ← hall, h.misspelt, ← hduration, ← hstatistics, ← hnumbers]
    simp only [List.any_cons, List.any_nil, Bool.or_false, Bool.or_assoc]
    rfl
  obtain ⟨n, hn, hsize⟩ := Option.map_eq_some_iff.mp (h.documented .query_list_maxsize (by decide))
  obtain rfl : n = p.query_list_maxsize := Denoted.number.inj hsize
  have hextensions : extensions p = (if flagIn file secName "log-client-output".toList then
      [".out".toList] else []) ++ if logsThread p then [".sql".toList] else [] := by
    rw [extensions, ← houtput]
    rfl
  rw [asked, hn, ← hlogs, ← hextensions]
  by_cases hroom : some (p.query_list_maxsize : Int) = some 0
  · have hzero : p.query_list_maxsize = 0 := by simpa using hroom
    simp [hzero]
  · have hpos : 0 < p.query_list_maxsize := by
      rw [Option.some.injEq] at hroom
      omega
    rw [if_neg hroom, and_iff_right hpos]

/-- The workers of two sections have different names and files if and only if the sections are apart. -/
theorem apart_iff (hp : Accepted secName (valueIn file secName) p)
    (hq : Accepted secName' (valueIn file secName') q) (masterLogDir : Str) :
    (p.myName ≠ q.myName ∧ ∀ path, Opens masterLogDir p path → ¬ Opens masterLogDir q path) ↔
      Apart file secName secName' := by
  unfold Apart
  rw [hp.myName, hq.myName, ← accepted_stem hp, ← accepted_stem hq]
  refine and_congr_right fun hname => ⟨fun hopens hstem extension hmem hmem' => ?_,
    fun hapart path hpath hpath' => ?_⟩
  · obtain ⟨hsize, hextension⟩ := (mem_asked hp).mp hmem
    obtain ⟨hsize', hextension'⟩ := (mem_asked hq).mp hmem'
    have hpath := threadsOpen_of_room hp.infiletype hp.threads hsize hextension
    have hpath' := threadsOpen_of_room hq.infiletype hq.threads hsize' hextension'
    have hsame : threadFile q 0 extension = threadFile p 0 extension := by
      rw [threadFile, threadFile, hstem]
    rw [hsame] at hpath'
    exact hopens _ (.inr hpath) (.inr hpath')
  · rcases hpath with rfl | hthreads
    · rcases hpath' with hlog | hthreads'
      · rw [hp.myName, hq.myName, workerLog_inj] at hlog
        exact hname hlog
      · obtain ⟨-, number', extension', hextension', hlog⟩ := path_of_threadsOpen hthreads'
        exact workerLog_ne_threadFile hextension' hlog
    · obtain ⟨hsize, number, extension, hextension, rfl⟩ := path_of_threadsOpen hthreads
      rcases hpath' with hlog | hthreads'
      · exact workerLog_ne_threadFile hextension hlog.symm
      · obtain ⟨hsize', number', extension', hextension', hfile⟩ := path_of_threadsOpen hthreads'
        obtain ⟨hstem, rfl⟩ := threadFile_inj hextension hextension' hfile
        exact hapart hstem extension ((mem_asked hp).mpr ⟨hsize, hextension⟩)
          ((mem_asked hq).mpr ⟨hsize', hextension'⟩)

end

/-! ### What a child opens -/

/-- The calls of a child: it opens the log of its worker and runs the section of its worker. -/
def OwnCall (masterLogDir : Str) (Params : workerParams) : Call → Prop
  | .setLogFilePath _ => False
  | .initLogFile path => path = workerLog masterLogDir Params.myName
  | .executeTests Params' => Params' = Params
  | _ => True

theorem safe_work (build : Build) (masterLogDir : Str) (Params : workerParams) :
    Safe (OwnCall masterLogDir Params) (fun wrc => wrc = .eERROR ∨ wrc = .eCHILD)
      (work build masterLogDir Params) := by
  have henter : Within (OwnCall masterLogDir Params) (enterChild masterLogDir Params).run := by
    refine (within_enterChild masterLogDir Params).imp fun c hc => ?_
    cases c with
    | setLogFilePath path => exact hc.elim
    | initLogFile path => exact hc
    | executeTests Params' => exact hc.elim
    | _ => trivial
  unfold work
  refine henter.safe.bind fun _ _ => ?_
  cases checkDbType build Params.dbtype with
  | error message =>
    exact (safe_cerr trivial).bind fun _ _ => (safe_addRecordToLog trivial).bind fun _ _ => .pure (.inl rfl)
  | ok _ =>
    refine Safe.bind (Q := fun _ => True) (.call rfl fun _ => .ret fun _ _ => trivial) fun success _ => ?_
    cases success with
    | true => exact .pure (.inr rfl)
    | false => exact .pure (.inl rfl)

theorem Works.calls {build : Build} {masterLogDir : Str} {Params : workerParams}
    {t : Tree system ExitStatus} (h : Works build masterLogDir Params t) :
    ∀ e ∈ t.calls, OwnCall masterLogDir Params e.1 := by
  obtain ⟨next, herror, hchild, h⟩ := h
  have hends : Ends (OwnCall masterLogDir Params) (fun _ => True)
      (Prog.catching (work build masterLogDir Params) fatal next) := by
    refine (safe_work build masterLogDir Params).catching (fun _ => .call trivial fun _ => .ret trivial) ?_
    rintro wrc (rfl | rfl)
    · rw [herror]
      exact .ret trivial
    · rw [hchild]
      exact .ret trivial
  exact (hends.runs h).2.1

theorem Works.opens {build : Build} {masterLogDir : Str} {Params : workerParams}
    {t : Tree system ExitStatus} (h : Works build masterLogDir Params t) {path : Str}
    (hpath : Opened t path) : Opens masterLogDir Params path := by
  rcases hpath with ⟨answer, hcall⟩ | ⟨x, hx, hpath⟩
  · exact .inl (h.calls _ hcall)
  · obtain ⟨e, he, hexecution⟩ := List.mem_filterMap.mp hx
    obtain ⟨c, answer⟩ := e
    cases c with
    | executeTests Params' =>
      obtain rfl : Params' = Params := h.calls _ he
      obtain rfl := Option.some.inj hexecution
      exact .inr hpath
    | _ => cases hexecution

/-! ### All workers -/

theorem accepted_of_build {build : Build} {file : Str} {params : List workerParams}
    (h : Config.buildAllWorkerParams build (INIReader.open (some file)) = .ok params) :
    params.map workerParams.myName = running (INIReader.open (some file)) ∧
      ∀ p ∈ params, Accepted p.myName (valueIn file p.myName) p := by
  have haccepted : ∀ secNames ⊆ (INIReader.open (some file)).sections, ∀ params,
      List.Forall₂ (fun secName p => setupWorkerParams build (INIReader.open (some file)) secName = .ok p)
        secNames params →
      params.map workerParams.myName = secNames ∧
        ∀ p ∈ params, Accepted p.myName (valueIn file p.myName) p := by
    intro secNames hsub params hparams
    induction hparams with
    | nil => exact ⟨rfl, by simp⟩
    | @cons secName p secNames params hp _ ih =>
      obtain ⟨hsec, hsub⟩ := List.cons_subset.mp hsub
      obtain ⟨hnames, hall⟩ := ih hsub
      have hp := accepted_of_setup (serves_open hsec) hp
      refine ⟨by rw [List.map_cons, hp.myName, hnames], List.forall_mem_cons.mpr ⟨?_, hall⟩⟩
      rwa [hp.myName]
  exact haccepted _ List.filter_sublist.subset _ (params_of_build h).2

/-- **Which workers share no file.** The workers of an accepted configuration have different names and
open different files if and only if the sections that run are apart. Then in every run of the program
no two children open the same file. A file is the text of its path as the code opens it: two texts that lead
to one file by `.`, `//` or a link are two files here. -/
theorem workers_apart {build : Build} {file : Str} {params : List workerParams}
    (hbuild : Config.buildAllWorkerParams build (INIReader.open (some file)) = .ok params) :
    (∀ masterLogDir, (params.map workerParams.myName).Nodup ∧
        params.Pairwise (fun p q => ∀ path, Opens masterLogDir p path → ¬ Opens masterLogDir q path) ↔
      (running (INIReader.open (some file))).Pairwise (Apart file)) ∧
    ((running (INIReader.open (some file))).Pairwise (Apart file) → ∀ version options t,
      Runs (main (run build version options (some file))) t →
        t.children.Pairwise fun child child' => ∀ path, Opened child path → ¬ Opened child' path) := by
  obtain ⟨hnames, haccepted⟩ := accepted_of_build hbuild
  have hiff : ∀ masterLogDir, (params.map workerParams.myName).Nodup ∧
        params.Pairwise (fun p q => ∀ path, Opens masterLogDir p path → ¬ Opens masterLogDir q path) ↔
      (running (INIReader.open (some file))).Pairwise (Apart file) := by
    intro masterLogDir
    rw [← hnames, List.nodup_iff_pairwise_ne, List.pairwise_map, List.pairwise_map,
      ← List.pairwise_and_iff]
    exact List.Pairwise.iff_of_mem fun hp hq => apart_iff (haccepted _ hp) (haccepted _ hq) masterLogDir
  refine ⟨hiff, fun hapart version options t hruns => ?_⟩
  obtain ⟨before, t, rfl, -, hchildren | hpool⟩ := runs_run hbuild hruns
  · rw [Tree.children_graft, hchildren]
    exact .nil
  · generalize INIReader.Get _ _ _ _ = masterLogDir at hpool
    rw [main_runPool] at hpool
    obtain ⟨-, started, hstarted, hworks⟩ := runs_runAll hpool
    have hopens := ((hiff masterLogDir).mpr hapart).2.sublist hstarted.sublist
    rw [Tree.children_graft, List.pairwise_iff_getElem]
    intro i j hi hj hij path hpath hpath'
    have hi' := hworks.length_eq ▸ hi
    have hj' := hworks.length_eq ▸ hj
    have hdisjoint := List.pairwise_iff_getElem.mp hopens i j hi' hj' hij path
    exact hdisjoint ((hworks.get hi' hi).opens hpath) ((hworks.get hj' hj).opens hpath')

theorem workers_apart_two : ∃ params,
    Config.buildAllWorkerParams ⟨true, true⟩ (INIReader.open (some
      "[a]\nrun = yes\n[b]\nrun = yes\nlogdir = /var\n".toList)) = .ok params ∧
    (params.map workerParams.myName).Nodup ∧
    ∀ version options t, Runs (main (run ⟨true, true⟩ version options (some
        "[a]\nrun = yes\n[b]\nrun = yes\nlogdir = /var\n".toList))) t →
      t.children.Pairwise fun child child' => ∀ path, Opened child path → ¬ Opened child' path := by
  obtain ⟨params, hparams⟩ := exists_of_isOk (x := Config.buildAllWorkerParams ⟨true, true⟩
    (INIReader.open (some "[a]\nrun = yes\n[b]\nrun = yes\nlogdir = /var\n".toList))) (by decide +kernel)
  obtain ⟨hiff, hruns⟩ := workers_apart hparams
  have hapart : (running (INIReader.open (some
      "[a]\nrun = yes\n[b]\nrun = yes\nlogdir = /var\n".toList))).Pairwise
        (Apart "[a]\nrun = yes\n[b]\nrun = yes\nlogdir = /var\n".toList) := by decide +kernel
  exact ⟨params, hparams, ((hiff []).mpr hapart).1, hruns hapart⟩

/-- Two sections of one name are accepted as two workers of this name, which open one log. -/
theorem workers_of_one_name : ∃ params,
    Config.buildAllWorkerParams ⟨true, true⟩ (INIReader.open (some "[w]\nrun = yes\n[w]\n".toList)) =
      .ok params ∧ ¬ (params.map workerParams.myName).Nodup ∧
    ¬ params.Pairwise fun p q => ∀ path, Opens "/tmp".toList p path → ¬ Opens "/tmp".toList q path := by
  obtain ⟨params, hparams⟩ := exists_of_isOk (x := Config.buildAllWorkerParams ⟨true, true⟩
    (INIReader.open (some "[w]\nrun = yes\n[w]\n".toList))) (by decide +kernel)
  have hnames := (accepted_of_build hparams).1
  have hrunning : running (INIReader.open (some "[w]\nrun = yes\n[w]\n".toList)) =
      ["w".toList, "w".toList] := by decide +kernel
  rw [hrunning] at hnames
  refine ⟨params, hparams, by rw [hnames]; decide, fun hpairwise => ?_⟩
  obtain ⟨p, params, rfl, hp, hnames⟩ := List.map_eq_cons_iff.mp hnames
  obtain ⟨q, params, rfl, hq, -⟩ := List.map_eq_cons_iff.mp hnames
  have hdisjoint := (List.pairwise_cons.mp hpairwise).1 q List.mem_cons_self
  exact hdisjoint _ (.inl rfl) (.inl (by rw [hp, hq]))

end PQuery.Process

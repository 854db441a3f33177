import PQuery.DbWorker.ExecuteTests

/-!
# Exceptions of the threads

What a thread does on its own is not changed by the shared variables, so what becomes of it depends
on its own steps only (`solo`), and an exception of another thread is not seen. A thread that has
thrown has come to its end, and one that has not can always take its next step (`exists_step`); with
a number of queries that the loop's counter can reach it takes finitely many (`remaining_step`).
`thread_failed` says whether some thread has thrown.
-/

namespace PQuery.DbWorker

open Interleaving

/-! ### A thread alone -/

/-- A step of a thread, without the shared variables. -/
def Thread.solo (w : Worker) (a : Action) (t : Thread) : Option Thread :=
  (t.step w a .initial).map Prod.snd

/-- The step throws: nothing is created, the connection throws, the query or what follows it in the
pass does, an operation on the way out does. -/
def Thread.Throws (w : Worker) (t : Thread) : Action → Prop
  | .start succeeds => w.queryList ≠ [] ∧ succeeds = false
  | .connect result => result = none
  | .iterate a => t.loop.i < w.params.queries_per_thread ∧
      (a.queryThrows = true ∨
        (t.loop.perform w a).db.consecutive_failures < maxConFailures ∧ BodyThrows w a)
  | .operate succeeds => succeeds = false ∧ ∃ op ops, t.phase = .leaving (op :: ops) ∧
      op.mayThrow = true

/-- A bound on the steps that a thread still takes. -/
def Thread.remaining (w : Worker) (t : Thread) : Nat :=
  if t.threw then 0
  else
    match t.phase with
    | .starting => w.params.queries_per_thread + 10
    | .connecting => w.params.queries_per_thread + 9
    | .looping => w.params.queries_per_thread - t.loop.i + 8
    | .leaving ops => ops.length

section
variable {w : Worker} {s s' : Shared} {t t' : Thread} {a : Action}

theorem step_solo (a : Action) (s : Shared) (t : Thread) :
    (t.step w a s).map Prod.snd = t.solo w a := by
  unfold Thread.solo Thread.step
  cases t.threw with
  | true => rfl
  | false =>
    simp only [Bool.false_eq_true, if_false]
    split
    case h_1 succeeds _ =>
      cases w.queryList.isEmpty <;> cases succeeds <;> rfl
    case h_5 a _ =>
      match loopStep w a t.loop with
      | (l, none) => rfl
      | (l, some .threw) => rfl
      | (l, some .finished) => rfl
      | (l, some .aborted) => rfl
    case h_6 op ops succeeds _ =>
      cases succeeds <;> cases op.mayThrow <;> rfl
    all_goals rfl

theorem loopStep_threw {a : Answer} {l : Loop} : (loopStep w a l).2 = some .threw ↔
    l.i < w.params.queries_per_thread ∧ (a.queryThrows = true ∨
      (l.perform w a).db.consecutive_failures < maxConFailures ∧ BodyThrows w a) := by
  unfold loopStep
  by_cases hi : l.i < w.params.queries_per_thread
  · rw [if_pos hi]
    rcases iteration_cases (w := w) (a := a) (l := l) with ⟨hquery, hr⟩ | ⟨hquery, habort, hr⟩ |
      ⟨hquery, hlow, hbody, hr⟩ | ⟨hquery, hlow, hbody, hr⟩
    · simp [hr, hi, hquery]
    · simp [hr, hquery, habort]
    · simp [hr, hi, hquery, hlow, hbody]
    · simp [hr, hquery, hbody]
  · simp [hi]

theorem threw_iff (hstep : t.step w a s = some (s', t')) : t'.threw = true ↔ t.Throws w a := by
  obtain ⟨hthrew, hmove⟩ := move_of_step hstep
  have hnot : ∀ {t' : Thread}, t'.threw = t.threw → ¬ t.Throws w a →
      (t'.threw = true ↔ t.Throws w a) := by
    intro t' hsame hthrows
    refine iff_of_false ?_ hthrows
    simp [hsame, hthrew]
  cases hmove with
  | emptyList b _ hempty => exact hnot rfl fun h => h.1 hempty
  | created _ => exact hnot rfl fun h => by cases h.2
  | connected _ _ => exact hnot rfl fun h => by cases h
  | refused _ _ => exact hnot rfl fun h => by cases h
  | passed answer l _ hr =>
    refine hnot rfl fun h => ?_
    rw [Thread.Throws, ← loopStep_threw, hr] at h
    cases h
  | left answer l exit _ hexit hr =>
    refine hnot rfl fun h => ?_
    rw [Thread.Throws, ← loopStep_threw, hr] at h
    exact hexit (Option.some.inj h)
  | operated b op ops hphase hok =>
    refine hnot rfl ?_
    rintro ⟨rfl, op', ops', hphase', hmay⟩
    cases hphase.symm.trans hphase'
    simp [hmay] at hok
  | startThrew hphase =>
    refine iff_of_true rfl ⟨fun hempty => ?_, rfl⟩
    simp [Thread.step, hthrew, hphase, hempty] at hstep
  | connectThrew _ => exact iff_of_true rfl rfl
  | loopThrew answer l _ hr =>
    refine iff_of_true rfl ?_
    rw [Thread.Throws, ← loopStep_threw, hr]
  | operationThrew op ops hphase hmay => exact iff_of_true rfl ⟨rfl, op, ops, hphase, hmay⟩

theorem step_thread_failed (hstep : t.step w a s = some (s', t')) :
    s'.thread_failed = (s.thread_failed || t'.threw) := by
  obtain ⟨hthrew, hmove⟩ := move_of_step hstep
  cases hmove with
  | operated b op ops _ _ =>
    show (s.apply t.loop.db op).thread_failed = (s.thread_failed || t.threw)
    rw [hthrew, Bool.or_false]
    cases op <;> rfl
  | startThrew _ => exact (Bool.or_true _).symm
  | connectThrew _ => exact (Bool.or_true _).symm
  | loopThrew _ _ _ _ => exact (Bool.or_true _).symm
  | operationThrew _ _ _ _ => exact (Bool.or_true _).symm
  | _ => simp [hthrew]

theorem exists_step (w : Worker) (h : ¬ t.Joined) (s : Shared) : ∃ a r, t.step w a s = some r := by
  obtain ⟨number, phase, threw, connected, loop⟩ := t
  cases threw with
  | true => exact absurd (.inl rfl) h
  | false =>
    cases phase with
    | starting =>
      refine ⟨.start true, ?_⟩
      cases hempty : w.queryList with
      | nil => simp [Thread.step, hempty]
      | cons query queries => simp [Thread.step, hempty]
    | connecting => exact ⟨.connect none, _, rfl⟩
    | looping => exact ⟨.iterate .quiet, _, rfl⟩
    | leaving ops =>
      cases ops with
      | nil => exact absurd (.inr rfl) h
      | cons op ops => exact ⟨.operate true, _, rfl⟩

/-- A step makes the bound on what a thread still takes smaller. -/
theorem remaining_step (hq : w.params.queries_per_thread < 2 ^ 32)
    (hstep : t.step w a s = some (s', t')) : t'.remaining w < t.remaining w := by
  obtain ⟨hthrew, hmove⟩ := move_of_step hstep
  unfold Thread.remaining
  rw [if_neg (by simp [hthrew] : ¬ t.threw = true)]
  cases hmove with
  | emptyList b hphase _ => simp [hthrew, hphase, emptyListOps]
  | created hphase => simp [hthrew, hphase]
  | connected errorString hphase =>
    simp only [hthrew, hphase, Bool.false_eq_true, if_false]
    omega
  | refused errorString hphase =>
    simp only [hthrew, hphase, Bool.false_eq_true, if_false, refusedOps, List.length_cons,
      List.length_nil]
    omega
  | passed answer l hphase hr =>
    obtain ⟨hi, _, rfl⟩ := loopStep_none hr
    simp only [hthrew, hphase, Bool.false_eq_true, if_false]
    have hnext : (t.loop.completed w answer).i = t.loop.i + 1 :=
      Nat.mod_eq_of_lt (show t.loop.i + 1 < 2 ^ 32 by omega)
    omega
  | left answer l exit hphase _ _ =>
    have hlength : (leavingOps w l exit).length ≤ 4 := by
      unfold leavingOps abortedOps
      cases exit <;> cases logsThread w.params <;> simp [finishedOps, calculateQueries]
    simp only [hthrew, hphase, Bool.false_eq_true, if_false]
    omega
  | operated b op ops hphase _ => simp [hthrew, hphase]
  | startThrew hphase => simp [hphase]
  | connectThrew hphase => simp [hphase]
  | loopThrew answer l hphase _ => simp [hphase]
  | operationThrew op ops hphase _ => simp [hphase]

end

/-! ### The threads of a worker -/

/-- No step of the schedule throws. -/
def NoneThrows (w : Worker) (schedule : List (Nat × Action)) : Prop :=
  Along (Thread.step w) (fun t a => ¬ t.Throws w a) (initial w.params.threads) schedule

section
variable {w : Worker} {schedule : List (Nat × Action)} {c : Config Shared Thread}

theorem getElem?_initial (threads k : Nat) :
    (initial threads).locals[k]? = if k < threads then some (Thread.initial k) else none := by
  unfold initial
  by_cases hk : k < threads
  · rw [if_pos hk]
    simp [hk]
  · rw [if_neg hk]
    simp [Nat.le_of_not_lt hk]

theorem length_locals_of_run (h : spawnWorkerThreads w schedule = some c) :
    c.locals.length = w.params.threads := by
  refine run_invariant (I := fun d : Config Shared Thread => d.locals.length = w.params.threads)
    ?_ (by simp [initial]) h
  rintro d e d' hd hnext
  obtain ⟨t, s', t', _, _, rfl⟩ := next_eq_some.mp hnext
  exact List.length_set.trans hd

theorem exists_local (h : spawnWorkerThreads w schedule = some c) {k : Nat}
    (hk : k < w.params.threads) : ∃ t, c.locals[k]? = some t := by
  have hbound : k < c.locals.length := by rwa [length_locals_of_run h]
  exact ⟨_, List.getElem?_eq_getElem hbound⟩

/-- The flag is set if and only if some thread has thrown. -/
theorem thread_failed_iff (h : spawnWorkerThreads w schedule = some c) :
    c.shared.thread_failed = true ↔ ∃ t ∈ c.locals, t.threw = true := by
  let I (d : Config Shared Thread) : Prop :=
    d.shared.thread_failed = true ↔ ∃ t ∈ d.locals, t.threw = true
  have hinitial : I (initial w.params.threads) := by
    refine iff_of_false Bool.false_ne_true ?_
    rintro ⟨t, ht, hthrew⟩
    obtain ⟨k, _, rfl⟩ := List.mem_map.mp ht
    cases hthrew
  refine run_invariant (I := I) ?_ hinitial h
  rintro d e d' hd hnext
  obtain ⟨t, s', t', ht, hstep, rfl⟩ := next_eq_some.mp hnext
  have hbound : e.1 < d.locals.length := (List.getElem?_eq_some_iff.mp ht).1
  show s'.thread_failed = true ↔ ∃ u ∈ d.locals.set e.1 t', u.threw = true
  rw [step_thread_failed hstep, Bool.or_eq_true, show _ ↔ _ from hd]
  constructor
  · rintro (⟨u, hu, hthrew⟩ | hthrew)
    · obtain ⟨j, hj⟩ := List.mem_iff_getElem?.mp hu
      -- the thread that takes the step has not thrown before, so it is another one
      have hne : e.1 ≠ j := by
        rintro rfl
        obtain rfl := Option.some.inj (ht.symm.trans hj)
        rw [(move_of_step hstep).1] at hthrew
        cases hthrew
      refine ⟨u, List.mem_of_getElem? (i := j) ?_, hthrew⟩
      rwa [List.getElem?_set_ne hne]
    · exact ⟨t', List.mem_set hbound t', hthrew⟩
  · rintro ⟨u, hu, hthrew⟩
    rcases List.mem_or_eq_of_mem_set hu with hu | rfl
    · exact .inl ⟨u, hu, hthrew⟩
    · exact .inr hthrew

theorem noneThrows_iff (h : spawnWorkerThreads w schedule = some c) :
    NoneThrows w schedule ↔ ∀ t ∈ c.locals, t.threw = false := by
  have halong := run_along (I := fun _ => True) (J := fun t : Thread => t.threw = false)
    (P := fun t a => ¬ t.Throws w a) (fun _ _ => trivial)
    (fun {a s t s' t'} _ hstep => by
      rw [← threw_iff hstep, Bool.not_eq_true]
      exact (and_iff_right (move_of_step hstep).1).symm) (fun _ _ => trivial) h
  rw [halong]
  refine (and_iff_right ?_).symm
  rintro t ht
  obtain ⟨k, _, rfl⟩ := List.mem_map.mp ht
  rfl

/-- What a thread does when its connection is refused, or it finds the list empty. -/
def calmActions (w : Worker) : List Action :=
  if w.queryList.isEmpty then [.start true, .operate true]
  else [.start true, .connect (some (false, []))] ++ List.replicate 6 (.operate true)

theorem soloRun_operate (ops : List Op) : ∀ {t : Thread}, t.threw = false →
    t.phase = .leaving ops → ∃ t', soloRun (Thread.solo w) t
      (List.replicate ops.length (.operate true)) = some t' ∧ t'.threw = false ∧ t'.Joined := by
  induction ops with
  | nil => exact fun {t} hthrew hphase => ⟨t, rfl, hthrew, .inr hphase⟩
  | cons op ops ih =>
    intro t hthrew hphase
    have hstep : Thread.solo w (.operate true) t =
        some { t with phase := .leaving ops, loop := t.loop.apply op } := by
      simp [Thread.solo, Thread.step, hthrew, hphase]
    obtain ⟨t', hrun, hend⟩ :=
      @ih { t with phase := .leaving ops, loop := t.loop.apply op } hthrew rfl
    exact ⟨t', soloRun_cons.mpr ⟨_, hstep, hrun⟩, hend⟩

theorem soloRun_calmActions (w : Worker) (number : Nat) :
    ∃ t', soloRun (Thread.solo w) (Thread.initial number) (calmActions w) = some t' ∧
      t'.threw = false ∧ t'.Joined := by
  unfold calmActions
  cases hempty : w.queryList with
  | nil =>
    obtain ⟨t', hrun, hend⟩ := @soloRun_operate w (emptyListOps number)
      { Thread.initial number with phase := .leaving (emptyListOps number) } rfl rfl
    refine ⟨t', soloRun_cons.mpr ⟨_, ?_, hrun⟩, hend⟩
    simp [Thread.solo, Thread.step, Thread.initial, hempty]
  | cons query queries =>
    obtain ⟨t', hrun, hend⟩ := @soloRun_operate w (refusedOps w.params number [])
      { Thread.initial number with
        phase := .leaving (refusedOps w.params number []), connected := some false } rfl rfl
    refine ⟨t', soloRun_cons.mpr ⟨{ Thread.initial number with phase := .connecting }, ?_,
      soloRun_cons.mpr ⟨_, rfl, hrun⟩⟩, hend⟩
    simp [Thread.solo, Thread.step, Thread.initial, hempty]

/-- What becomes of a thread depends on its own steps only. -/
theorem own_determines (h : spawnWorkerThreads w schedule = some c) {k : Nat} {t : Thread}
    (ht : c.locals[k]? = some t) :
    soloRun (Thread.solo w) (Thread.initial k) (own k schedule) = some t ∧ k < w.params.threads := by
  have hk : k < w.params.threads := by
    have hlength : c.locals.length = w.params.threads := length_locals_of_run h
    rw [← hlength]
    exact (List.getElem?_eq_some_iff.mp ht).1
  have hstart : (initial w.params.threads).locals[k]? = some (Thread.initial k) := by
    rw [getElem?_initial, if_pos hk]
  obtain ⟨t', ht', hrun⟩ := soloRun_of_run step_solo h hstart
  obtain rfl := Option.some.inj (ht.symm.trans ht')
  exact ⟨hrun, hk⟩

/-- The actions of thread `k` where it does not throw: its own, or else calm ones. -/
def calmedActions (w : Worker) (schedule : List (Nat × Action)) (c : Config Shared Thread)
    (k : Nat) : List Action :=
  if (c.locals[k]?).any (·.threw) then calmActions w else own k schedule

theorem soloRun_calmedActions (h : spawnWorkerThreads w schedule = some c) {k : Nat} {t : Thread}
    (ht : c.locals[k]? = some t) :
    ∃ t', soloRun (Thread.solo w) (Thread.initial k) (calmedActions w schedule c k) = some t' ∧
      t'.threw = false ∧ (t.Joined → t'.Joined) ∧
      (t.threw = false → calmedActions w schedule c k = own k schedule ∧ t' = t) := by
  unfold calmedActions
  cases hthrew : t.threw with
  | true =>
    obtain ⟨t', hrun, hcalm, hjoined⟩ := soloRun_calmActions w k
    rw [if_pos (by simp [ht, hthrew])]
    exact ⟨t', hrun, hcalm, fun _ => hjoined, fun hfalse => by cases hfalse⟩
  | false =>
    rw [if_neg (by simp [ht, hthrew])]
    exact ⟨t, (own_determines h ht).1, hthrew, id, fun _ => ⟨rfl, rfl⟩⟩

/-- There is a run in which the threads that have not thrown do the same, and the others come to
their end without an exception. -/
theorem exists_calm_run (h : spawnWorkerThreads w schedule = some c) :
    ∃ schedule' c', spawnWorkerThreads w schedule' = some c' ∧ (∀ t ∈ c'.locals, t.threw = false) ∧
      ((∀ t ∈ c.locals, t.Joined) → ∀ t ∈ c'.locals, t.Joined) ∧
      ∀ k t, c.locals[k]? = some t → t.threw = false →
        own k schedule' = own k schedule ∧ c'.locals[k]? = some t := by
  have hown : ∀ k < w.params.threads,
      own k (sequential (calmedActions w schedule c) w.params.threads) =
        calmedActions w schedule c k := by
    intro k hk
    rw [own_sequential, if_pos hk]
  obtain ⟨c', hc'⟩ : ∃ c',
      spawnWorkerThreads w (sequential (calmedActions w schedule c) w.params.threads) = some c' := by
    refine exists_run_of_soloRun step_solo (fun e he => ?_) fun k l hl => ?_
    · rw [initial, List.length_map, List.length_range]
      exact lt_of_mem_sequential he
    · rw [getElem?_initial] at hl
      by_cases hk : k < w.params.threads
      · rw [if_pos hk] at hl
        obtain rfl := Option.some.inj hl
        obtain ⟨t, ht⟩ := exists_local h hk
        obtain ⟨t', hrun, _⟩ := soloRun_calmedActions h ht
        exact ⟨t', by rw [hown k hk]; exact hrun⟩
      · rw [if_neg hk] at hl
        cases hl
  have hafter : ∀ {k t t'}, c.locals[k]? = some t → c'.locals[k]? = some t' →
      t'.threw = false ∧ (t.Joined → t'.Joined) ∧
        (t.threw = false → calmedActions w schedule c k = own k schedule ∧ t' = t) := by
    intro k t t' ht ht'
    obtain ⟨hrun, hk⟩ := own_determines hc' ht'
    obtain ⟨u, hrun', hend⟩ := soloRun_calmedActions h ht
    rw [hown k hk] at hrun
    obtain rfl := Option.some.inj (hrun.symm.trans hrun')
    exact hend
  refine ⟨_, c', hc', fun t' ht' => ?_, fun hall t' ht' => ?_, fun k t ht hthrew => ?_⟩
  · obtain ⟨k, hk⟩ := List.mem_iff_getElem?.mp ht'
    obtain ⟨t, ht⟩ := exists_local h (own_determines hc' hk).2
    exact (hafter ht hk).1
  · obtain ⟨k, hk⟩ := List.mem_iff_getElem?.mp ht'
    obtain ⟨t, ht⟩ := exists_local h (own_determines hc' hk).2
    exact (hafter ht hk).2.1 (hall t (List.mem_of_getElem? ht))
  · have hk : k < w.params.threads := (own_determines h ht).2
    obtain ⟨t', ht'⟩ := exists_local hc' hk
    obtain ⟨hsame, rfl⟩ := (hafter ht ht').2.2 hthrew
    exact ⟨(hown k hk).trans hsame, ht'⟩

theorem length_schedule_le (hq : w.params.queries_per_thread < 2 ^ 32)
    (h : spawnWorkerThreads w schedule = some c) :
    schedule.length ≤ w.params.threads * (w.params.queries_per_thread + 10) := by
  have hle := run_length (Thread.remaining w) (fun hstep => remaining_step hq hstep) h
  have hstart : ((initial w.params.threads).locals.map (Thread.remaining w)).sum =
      w.params.threads * (w.params.queries_per_thread + 10) := by
    have hbound : Thread.remaining w ∘ Thread.initial =
        fun _ => w.params.queries_per_thread + 10 := rfl
    rw [initial, List.map_map, hbound]
    simp
  omega

end

/-- **Exceptions of the threads.** Whatever the threads of a prepared worker have done: a thread has
come to the same state in every run in which its own steps are the same, whatever the others do, and
there is one in which those that have thrown come to their end without an exception. A thread that
has not come to its end can take a step, and with a number of queries that the counter can reach
there are finitely many. When all have come to their end, the final report is written, and what is
returned is false if and only if some step of a thread has thrown. -/
theorem exception_isolation (percentage : Nat → Nat → Str) (p : Config.workerParams)
    (testConnection : Bool) (infile : Option Str) (w : Worker) (schedule : List (Nat × Action))
    (c : Config Shared Thread) (hprepare : prepare p testConnection infile none = some w)
    (h : spawnWorkerThreads w schedule = some c) :
    (∀ k t schedule' c', c.locals[k]? = some t → spawnWorkerThreads w schedule' = some c' →
        own k schedule' = own k schedule → c'.locals[k]? = some t) ∧
      (∃ schedule' c', spawnWorkerThreads w schedule' = some c' ∧ NoneThrows w schedule' ∧
        ((∀ t ∈ c.locals, t.Joined) → ∀ t ∈ c'.locals, t.Joined) ∧
        ∀ k t, c.locals[k]? = some t → t.threw = false →
          own k schedule' = own k schedule ∧ c'.locals[k]? = some t) ∧
      (∀ t ∈ c.locals, ¬ t.Joined → ∀ s, ∃ a r, t.step w a s = some r) ∧
      (w.params.queries_per_thread < 2 ^ 32 →
        schedule.length ≤ w.params.threads * (w.params.queries_per_thread + 10)) ∧
      ((∀ t ∈ c.locals, t.Joined) → ∃ result,
        executeTests percentage p testConnection infile schedule =
            some (result, adjustTexts p w.queryList ++ c.shared.workerLog ++
              [writeFinalReport percentage c.shared.totals ++ "\n".toList]) ∧
          (result = false ↔ ∃ t ∈ c.locals, t.threw = true) ∧
          (result = true ↔ NoneThrows w schedule)) := by
  refine ⟨fun k t schedule' c' ht h' hown => ?_, ?_, fun t _ hjoined s => exists_step w hjoined s,
    fun hq => length_schedule_le hq h, fun hall => ?_⟩
  · obtain ⟨hrun, hk⟩ := own_determines h ht
    obtain ⟨t', ht'⟩ := exists_local h' hk
    have hrun' := (own_determines h' ht').1
    rw [hown] at hrun'
    obtain rfl := Option.some.inj (hrun.symm.trans hrun')
    exact ht'
  · obtain ⟨schedule', c', h', hcalm, hjoined, hsame⟩ := exists_calm_run h
    exact ⟨schedule', c', h', (noneThrows_iff h').mpr hcalm, hjoined, hsame⟩
  · refine ⟨!c.shared.thread_failed, ?_, ?_, ?_⟩
    · unfold executeTests
      rw [hprepare]
      simp only [h]
      exact if_pos hall
    · rw [← thread_failed_iff h, Bool.not_eq_false']
    · rw [noneThrows_iff h, Bool.not_eq_true', ← Bool.not_eq_true, thread_failed_iff h]
      simp

/-- Two threads: the connection of one throws, the other performs its query. -/
def oneThrows : List (Nat × Action) :=
  [(0, .start true), (1, .start true), (1, .connect (some (true, []))), (0, .connect none),
    (1, .iterate .quiet), (1, .iterate .quiet), (1, .operate true), (1, .operate true),
    (1, .operate true)]

/-- With two threads, one of which throws, `executeTests` returns false, and there is a run without
an exception in which the other does the same. -/
theorem exception_isolation_two :
    ∃ w c, prepare
        { dbtype := .eMYSQL, infiletype := .eSQL, threads := 2, queries_per_thread := 1,
          query_list_maxsize := 1073741824, shuffle := true }
        true (some "SELECT 1;\n".toList) none = some w ∧
      spawnWorkerThreads w oneThrows = some c ∧ c.locals.map (·.threw) = [true, false] ∧
      c.locals.map (·.loop.performed.length) = [0, 1] ∧
      (∃ schedule' c', spawnWorkerThreads w schedule' = some c' ∧ NoneThrows w schedule' ∧
        c'.locals[1]? = c.locals[1]?) ∧
      ∃ log, executeTests (fun _ _ => [])
        { dbtype := .eMYSQL, infiletype := .eSQL, threads := 2, queries_per_thread := 1,
          query_list_maxsize := 1073741824, shuffle := true }
        true (some "SELECT 1;\n".toList) oneThrows = some (false, log) := by
  let p : Config.workerParams :=
    { dbtype := .eMYSQL, infiletype := .eSQL, threads := 2, queries_per_thread := 1,
      query_list_maxsize := 1073741824, shuffle := true }
  obtain ⟨w, hw⟩ : ∃ w, prepare p true (some "SELECT 1;\n".toList) none = some w := ⟨_, rfl⟩
  obtain ⟨hlist, hparams, _⟩ := prepare_eq_some hw
  have hworker : w = { params := p, queryList := ["SELECT 1".toList] } := by
    obtain ⟨params, queryList⟩ := w
    obtain rfl : queryList = ["SELECT 1".toList] := hlist.trans (by decide +kernel)
    obtain rfl : params = p := hparams
    rfl
  subst hworker
  obtain ⟨c, hc⟩ : ∃ c, spawnWorkerThreads { params := p, queryList := ["SELECT 1".toList] }
      oneThrows = some c := ⟨_, rfl⟩
  obtain rfl := Option.some.inj (hc.symm.trans rfl)
  obtain ⟨_, ⟨schedule', c', h', hnone, _, hsame⟩, _, _, hend⟩ := exception_isolation
    (fun _ _ => []) p true (some "SELECT 1;\n".toList) _ oneThrows _ hw hc
  obtain ⟨result, hresult, hfalse, _⟩ := hend (by decide)
  obtain rfl : result = false := hfalse.mpr ⟨_, List.mem_cons_self, rfl⟩
  exact ⟨_, _, hw, hc, rfl, rfl, ⟨schedule', c', h', hnone, (hsame 1 _ rfl rfl).2⟩, _, hresult⟩

end PQuery.DbWorker

import PQuery.DbWorker.Exceptions
import PQuery.Library.Records

/-!
# Records in the log of the worker

All threads of a worker write to one log. Each call of the logger is atomic, but the message of a
thread that could not connect is put together from four calls, and another thread may write between
them. `messages` is what a thread means to write, each message with the texts of its calls, and
`loggedTexts` what it does write; the log of a run is a shuffle of these
(`workerLog_eq_trace`).
-/

namespace PQuery.DbWorker

open Interleaving

/-- The text that a step writes to the log of the worker. -/
def Thread.writes (a : Action) (t : Thread) : Option Str :=
  match t.phase, a with
  | .leaving (.workerLog text :: _), .operate true => some text
  | _, _ => none

/-- The operations on the log of the worker, as their texts. -/
def workerTexts (ops : List Op) : List Str :=
  ops.filterMap fun
    | .workerLog text => some text
    | _ => none

/-- The four calls of a thread that could not connect. -/
def unableMessage (number : Nat) : List Str :=
  ["==> Thread #".toList, to_string number,
    " is exiting abnormally, unable to init database".toList, "\n".toList]

/-- The messages of a thread that cannot connect. -/
def refusedMessages (p : Config.workerParams) (number : Nat) (errorString : Str) : List (List Str) :=
  (if logsThread p then []
    else [["=> Unable to connect! Database error ".toList ++ errorString ++ "\n".toList]]) ++
  [unableMessage number]

/-- The messages that a thread sets out to write with a step: each is the texts of its calls. -/
def Thread.announces (w : Worker) (a : Action) (t : Thread) : List (List Str) :=
  match t.phase, a with
  | .starting, .start _ =>
    if w.queryList.isEmpty then [workerTexts (emptyListOps t.number)] else []
  | .connecting, .connect (some (false, errorString)) =>
    refusedMessages w.params t.number errorString
  | .looping, .iterate a =>
    match loopStep w a t.loop with
    | (l, some .aborted) =>
      if logsThread w.params then []
      else [workerTexts (abortedOps w.params l.db.consecutive_failures)]
    | _ => []
  | _, _ => []

/-- The messages of a thread with these actions. -/
def messages (w : Worker) : Thread → List Action → List (List Str)
  | _, [] => []
  | t, a :: as =>
    match t.solo w a with
    | none => []
    | some t' => t.announces w a ++ messages w t' as

/-- What a thread with these actions writes to the log of the worker. -/
def loggedTexts (w : Worker) (k : Nat) (acts : List Action) : List Str :=
  soloTrace (Thread.solo w) Thread.writes (Thread.initial k) acts

/-- What a run writes to the log of the worker, each text with the number of its thread. -/
def workerTrace (w : Worker) (schedule : List (Nat × Action)) : List (Nat × Str) :=
  trace (Thread.step w) Thread.writes (initial w.params.threads) schedule

section
variable {w : Worker} {s s' : Shared} {t t' : Thread} {a : Action}

theorem step_workerLog (hstep : t.step w a s = some (s', t')) :
    s'.workerLog = s.workerLog ++ (t.writes a).toList := by
  obtain ⟨_, hmove⟩ := move_of_step hstep
  cases hmove with
  | operated b op ops hphase hok =>
    unfold Thread.writes
    rw [hphase]
    cases op with
    | workerLog text =>
      cases b with
      | true => rfl
      | false => cases hok
    | _ => simp [Shared.apply]
  | emptyList b hphase _ => simp [Thread.writes]
  | created hphase => simp [Thread.writes]
  | connected e hphase => simp [Thread.writes]
  | refused e hphase => simp [Thread.writes]
  | passed answer l hphase _ => simp [Thread.writes]
  | left answer l exit hphase _ _ => simp [Thread.writes]
  | startThrew hphase => simp [Thread.writes]
  | connectThrew hphase => simp [Thread.writes]
  | loopThrew answer l hphase _ => simp [Thread.writes]
  | operationThrew op ops hphase _ => simp [Thread.writes]

theorem workerLog_eq_append {es : List (Nat × Action)} : ∀ {c c' : Config Shared Thread},
    run (Thread.step w) c es = some c' → c'.shared.workerLog =
      c.shared.workerLog ++ (trace (Thread.step w) Thread.writes c es).map Prod.snd := by
  induction es with
  | nil =>
    intro c c' h
    obtain rfl := Option.some.inj h
    exact (List.append_nil _).symm
  | cons e es ih =>
    intro c c' h
    obtain ⟨c₁, hnext, hrun⟩ := run_cons.mp h
    rw [trace_cons hnext, ih hrun]
    obtain ⟨t, s', t', ht, hstep, rfl⟩ := next_eq_some.mp hnext
    rw [ht, step_workerLog hstep, List.map_append, List.append_assoc, List.map_map]
    simp [Function.comp_def]

theorem workerLog_eq_trace {schedule : List (Nat × Action)} {c : Config Shared Thread}
    (h : spawnWorkerThreads w schedule = some c) :
    c.shared.workerLog = (workerTrace w schedule).map Prod.snd :=
  workerLog_eq_append h

/-! ### What a thread means to write -/

theorem flatten_refusedMessages (p : Config.workerParams) (number : Nat) (errorString : Str) :
    (refusedMessages p number errorString).flatten =
      workerTexts (refusedOps p number errorString) := by
  unfold refusedMessages refusedOps
  cases logsThread p <;> rfl

/-- What a thread on its way out is still to write to the log of the worker. -/
def Thread.pending (t : Thread) : List Str :=
  match t.phase with
  | .leaving ops => workerTexts ops
  | _ => []

theorem pending_leaving {ops : List Op} (h : t.phase = .leaving ops) : t.pending = workerTexts ops := by
  rw [Thread.pending, h]

/-- What a step announces is pending after it, and what it writes no more. -/
theorem pending_step (hstep : t.step w a s = some (s', t')) (hthrew : t'.threw = false) :
    t.pending ++ (t.announces w a).flatten = (t.writes a).toList ++ t'.pending := by
  obtain ⟨_, hmove⟩ := move_of_step hstep
  cases hmove with
  | emptyList b hphase hempty => simp [Thread.pending, Thread.announces, Thread.writes, hphase, hempty]
  | created hphase =>
    have hempty : w.queryList ≠ [] := by
      intro hempty
      simp [Thread.step, (move_of_step hstep).1, hphase, hempty] at hstep
    simp [Thread.pending, Thread.announces, Thread.writes, hphase, hempty]
  | connected e hphase => simp [Thread.pending, Thread.announces, Thread.writes, hphase]
  | refused e hphase =>
    simp [Thread.pending, Thread.announces, Thread.writes, hphase, flatten_refusedMessages]
  | passed answer l hphase hr => simp [Thread.pending, Thread.announces, Thread.writes, hphase, hr]
  | left answer l exit hphase hexit hr =>
    simp only [Thread.pending, Thread.announces, Thread.writes, hphase, hr, Option.toList_none,
      List.nil_append]
    cases exit with
    | finished => rfl
    | aborted =>
      simp only [leavingOps]
      cases hlogs : logsThread w.params <;> simp [abortedOps, hlogs, workerTexts, calculateQueries]
    | threw => exact absurd rfl hexit
  | operated b op ops hphase hok =>
    simp only [Thread.pending, Thread.announces, Thread.writes, hphase, List.flatten_nil,
      List.append_nil]
    cases op with
    | workerLog text =>
      cases b with
      | true => rfl
      | false => cases hok
    | _ => rfl
  | startThrew hphase => cases hthrew
  | connectThrew hphase => cases hthrew
  | loopThrew answer l hphase _ => cases hthrew
  | operationThrew op ops hphase _ => cases hthrew

theorem ne_unable {text : Str} (h : text.getD 1 ' ' = '>') : text ≠ "==> Thread #".toList := by
  rintro rfl
  exact absurd h (by decide)

theorem mem_announces {m : List Str} (h : m ∈ t.announces w a) :
    m = unableMessage t.number ∨ ∃ text, m = [text] ∧ text ≠ "==> Thread #".toList := by
  unfold Thread.announces at h
  split at h
  case h_1 =>
    split at h
    · exact .inr ⟨_, List.mem_singleton.mp h, ne_unable rfl⟩
    · cases h
  case h_2 errorString _ =>
    rcases List.mem_append.mp h with h | h
    · split at h
      · cases h
      · exact .inr ⟨_, List.mem_singleton.mp h, ne_unable rfl⟩
    · exact .inl (List.mem_singleton.mp h)
  case h_3 =>
    split at h
    · split at h
      · cases h
      · rename_i hlogs
        rw [List.mem_singleton, abortedOps, if_neg hlogs] at h
        exact .inr ⟨_, h, ne_unable rfl⟩
    · cases h
  case h_4 => cases h

theorem number_step (hstep : t.step w a s = some (s', t')) : t'.number = t.number := by
  obtain ⟨_, hmove⟩ := move_of_step hstep
  cases hmove <;> rfl

end

section
variable {w : Worker}

theorem step_of_solo {a : Action} {t t' : Thread} (h : t.solo w a = some t') :
    ∃ s', t.step w a .initial = some (s', t') := by
  obtain ⟨⟨s', u⟩, hstep, hu⟩ := Option.map_eq_some_iff.mp h
  obtain rfl : u = t' := hu
  exact ⟨s', hstep⟩

theorem mem_messages {as : List Action} : ∀ {t : Thread} {m : List Str}, m ∈ messages w t as →
    m = unableMessage t.number ∨ ∃ text, m = [text] ∧ text ≠ "==> Thread #".toList := by
  induction as with
  | nil => exact fun h => by cases h
  | cons a as ih =>
    intro t m h
    rw [messages] at h
    cases hsolo : t.solo w a with
    | none =>
      rw [hsolo] at h
      cases h
    | some t' =>
      rw [hsolo] at h
      rcases List.mem_append.mp h with h | h
      · exact mem_announces h
      · obtain ⟨s', hstep⟩ := step_of_solo hsolo
        rw [← number_step hstep]
        exact ih h

/-- A thread that has not thrown has written what it meant to, but for what is still pending. -/
theorem soloTrace_pending {as : List Action} : ∀ {t t' : Thread},
    soloRun (Thread.solo w) t as = some t' → t'.threw = false →
      t.pending ++ (messages w t as).flatten =
        soloTrace (Thread.solo w) Thread.writes t as ++ t'.pending := by
  induction as with
  | nil =>
    intro t t' h _
    obtain rfl := Option.some.inj h
    simp [messages, soloTrace]
  | cons a as ih =>
    intro t t' h hthrew
    obtain ⟨t₁, hsolo, hrun⟩ := soloRun_cons.mp h
    obtain ⟨s', hstep⟩ := step_of_solo hsolo
    have hcalm : t₁.threw = false := by
      cases as with
      | nil =>
        obtain rfl := Option.some.inj hrun
        exact hthrew
      | cons b as =>
        obtain ⟨t₂, hsolo', _⟩ := soloRun_cons.mp hrun
        exact (move_of_step (step_of_solo hsolo').choose_spec).1
    rw [soloTrace_cons hsolo, messages, hsolo, List.flatten_append, ← List.append_assoc,
      pending_step hstep hcalm, List.append_assoc, ih hrun hthrew, List.append_assoc]

theorem loggedTexts_of_joined {k : Nat} {as : List Action} {t : Thread}
    (h : soloRun (Thread.solo w) (Thread.initial k) as = some t) (hjoined : t.Joined)
    (hthrew : t.threw = false) :
    loggedTexts w k as = (messages w (Thread.initial k) as).flatten := by
  have hend : t.pending = [] := by
    rcases hjoined with hjoined | hphase
    · rw [hjoined] at hthrew
      cases hthrew
    · rw [pending_leaving hphase]
      rfl
  have := soloTrace_pending h hthrew
  rw [hend, List.append_nil] at this
  exact this.symm

end

/-! ### Every interleaving -/

/-- What the thread writes to the log of the worker is whole messages, the first of those it means to
write: no call of the logger has failed inside one. -/
def Uncut (w : Worker) (k : Nat) (acts : List Action) : Prop :=
  ∃ ms, ms <+: messages w (Thread.initial k) acts ∧ loggedTexts w k acts = ms.flatten

/-- The log of a run of threads with these actions is made of whole messages, those of each thread in
its order. -/
def WholeLog (w : Worker) (acts : Nat → List Action) (schedule : List (Nat × Action))
    (workerLog : List Str) : Prop :=
  workerLog = (workerTrace w schedule).map Prod.snd ∧
    Whole (fun k => messages w (Thread.initial k) (acts k)) (workerTrace w schedule)

section
variable {w : Worker} {acts : Nat → List Action} {n : Nat}

theorem apart_iff : Apart (fun k => loggedTexts w k (acts k))
      (fun k => messages w (Thread.initial k) (acts k)) n ↔
    (∀ i < n, Uncut w i (acts i)) ∧
      ∀ i < n, "==> Thread #".toList ∈ loggedTexts w i (acts i) →
        ∀ j < n, j ≠ i → loggedTexts w j (acts j) = [] := by
  constructor
  · intro h
    refine ⟨fun i hi => ?_, fun i hi hunable => ?_⟩
    · obtain ⟨ms, hfront, htexts, _⟩ := h i hi
      exact ⟨ms, hfront, htexts⟩
    · obtain ⟨ms, hfront, htexts, halone⟩ := h i hi
      rw [show loggedTexts w i (acts i) = _ from htexts] at hunable
      obtain ⟨m, hm, hmem⟩ := List.mem_flatten.mp hunable
      rcases mem_messages (hfront.subset hm) with rfl | ⟨text, rfl, hne⟩
      · exact halone _ hm (show 2 ≤ 4 by decide)
      · exact absurd (List.mem_singleton.mp hmem).symm hne
  · rintro ⟨huncut, halone⟩ i hi
    obtain ⟨ms, hfront, htexts⟩ := huncut i hi
    refine ⟨ms, hfront, htexts, fun m hm hlength => halone i hi ?_⟩
    rcases mem_messages (hfront.subset hm) with rfl | ⟨text, rfl, _⟩
    · rw [htexts]
      exact List.mem_flatten.mpr ⟨_, hm, List.mem_cons_self⟩
    · exact absurd hlength (by simp)

end

/-- **Records in the log of the worker.** Let the threads have these actions. In every interleaving
of them the log of the worker is made of whole messages if and only if each thread alone writes
whole messages and no thread that has written the message of a refused connection shares the log
with another one that writes to it. A thread that comes to its end without an exception writes whole
messages alone, and all of them. -/
theorem workerLog_whole_iff (w : Worker) (acts : Nat → List Action)
    (hacts : ∀ k < w.params.threads, ∃ t,
      soloRun (Thread.solo w) (Thread.initial k) (acts k) = some t) :
    ((∀ schedule c, spawnWorkerThreads w schedule = some c →
        (∀ k < w.params.threads, own k schedule = acts k) →
          WholeLog w acts schedule c.shared.workerLog) ↔
      (∀ i < w.params.threads, Uncut w i (acts i)) ∧
        ∀ i < w.params.threads, "==> Thread #".toList ∈ loggedTexts w i (acts i) →
          ∀ j < w.params.threads, j ≠ i → loggedTexts w j (acts j) = []) ∧
      ∀ k < w.params.threads, ∀ t,
        soloRun (Thread.solo w) (Thread.initial k) (acts k) = some t → t.Joined → t.threw = false →
          loggedTexts w k (acts k) = (messages w (Thread.initial k) (acts k)).flatten := by
  refine ⟨?_, fun k _ t h hjoined hthrew => loggedTexts_of_joined h hjoined hthrew⟩
  have hlength : (initial w.params.threads).locals.length = w.params.threads := by simp [initial]
  have hstart : ∀ k < (initial w.params.threads).locals.length,
      (initial w.params.threads).locals[k]? = some (Thread.initial k) := by
    intro k hk
    rw [hlength] at hk
    rw [getElem?_initial, if_pos hk]
  have hne : ∀ k, ∀ m ∈ messages w (Thread.initial k) (acts k), m ≠ [] := by
    rintro k m hm rfl
    rcases mem_messages hm with h | ⟨_, h, _⟩ <;> cases h
  have hiff := @forall_whole_iff Shared Thread Action Str (Thread.step w) (Thread.solo w)
    Thread.writes (initial w.params.threads) acts _ step_solo _ hstart (by rwa [hlength]) hne
  rw [hlength] at hiff
  rw [← apart_iff]
  refine Iff.trans ?_ hiff
  constructor
  · exact fun h schedule c hrun hown => (h schedule c hrun hown).2
  · exact fun h schedule c hrun hown => ⟨workerLog_eq_trace hrun, h schedule c hrun hown⟩

/-- Two threads and no log of their own. -/
def twoUnlogged : Worker :=
  { params := { dbtype := .eMYSQL, infiletype := .eSQL, threads := 2, shuffle := true }
    queryList := ["SELECT 1".toList] }

/-- A thread whose connection is refused. -/
def refusedActions : List Action :=
  [.start true, .connect (some (false, "Access denied".toList))] ++ List.replicate 6 (.operate true)

/-- One thread cannot connect, and the connection of the other throws while the first one is inside
its message. -/
theorem workerLog_whole_one :
    ∃ c, spawnWorkerThreads twoUnlogged ((refusedActions.take 4).map (Prod.mk 0) ++
        ([.start true, .connect none].map (Prod.mk 1) ++
          (refusedActions.drop 4).map (Prod.mk 0))) = some c ∧
      WholeLog twoUnlogged (fun k => if k = 0 then refusedActions else [.start true, .connect none])
        ((refusedActions.take 4).map (Prod.mk 0) ++
          ([.start true, .connect none].map (Prod.mk 1) ++
            (refusedActions.drop 4).map (Prod.mk 0))) c.shared.workerLog := by
  obtain ⟨c, hc⟩ : ∃ c, spawnWorkerThreads twoUnlogged ((refusedActions.take 4).map (Prod.mk 0) ++
      ([.start true, .connect none].map (Prod.mk 1) ++
        (refusedActions.drop 4).map (Prod.mk 0))) = some c := ⟨_, rfl⟩
  have hsilent : loggedTexts twoUnlogged 1 [.start true, .connect none] = [] := rfl
  have hacts : ∀ k < 2, ∃ t, soloRun (Thread.solo twoUnlogged) (Thread.initial k)
      (if k = 0 then refusedActions else [.start true, .connect none]) = some t := by
    rintro (_ | _ | k) hk
    · exact ⟨_, rfl⟩
    · exact ⟨_, rfl⟩
    · omega
  refine ⟨c, hc, (workerLog_whole_iff twoUnlogged _ hacts).1.mpr ⟨?_, ?_⟩ _ c hc ?_⟩
  · rintro (_ | _ | k) hk
    · exact ⟨_, List.prefix_rfl, rfl⟩
    · exact ⟨[], List.nil_prefix, hsilent⟩
    · exact absurd hk (by simp [twoUnlogged])
  · rintro (_ | _ | i) hi hunable (_ | _ | j) hj hne
    · exact absurd rfl hne
    · exact hsilent
    · exact absurd hj (by simp [twoUnlogged])
    · exact absurd (show _ ∈ ([] : List Str) from hunable) List.not_mem_nil
    · exact absurd rfl hne
    · exact absurd hj (by simp [twoUnlogged])
    · exact absurd hi (by simp [twoUnlogged])
    · exact absurd hi (by simp [twoUnlogged])
    · exact absurd hi (by simp [twoUnlogged])
  · rintro (_ | _ | k) hk
    · rfl
    · rfl
    · exact absurd hk (by simp [twoUnlogged])

/-- Two threads cannot connect, and the second one writes its messages while the first one is inside
its own. -/
theorem not_workerLog_whole :
    ∃ schedule c, spawnWorkerThreads twoUnlogged schedule = some c ∧
      (∀ k < 2, own k schedule = refusedActions) ∧ (∀ t ∈ c.locals, t.Joined ∧ t.threw = false) ∧
      ¬ WholeLog twoUnlogged (fun _ => refusedActions) schedule c.shared.workerLog := by
  let schedule : List (Nat × Action) := (refusedActions.take 4).map (Prod.mk 0) ++
    (refusedActions.map (Prod.mk 1) ++ (refusedActions.drop 4).map (Prod.mk 0))
  obtain ⟨c, hc⟩ : ∃ c, spawnWorkerThreads twoUnlogged schedule = some c := ⟨_, rfl⟩
  obtain rfl := Option.some.inj (hc.symm.trans rfl)
  refine ⟨schedule, _, hc, ?_, by decide, ?_⟩
  · rintro (_ | _ | k) hk
    · rfl
    · rfl
    · omega
  · rintro ⟨_, rs, hwhole, hfront⟩
    -- two texts of thread 0, and then one of thread 1
    have hbegin : workerTrace twoUnlogged schedule =
        [(0, "=> Unable to connect! Database error Access denied\n".toList),
          (0, "==> Thread #".toList)] ++
        (1, "=> Unable to connect! Database error Access denied\n".toList) ::
          (workerTrace twoUnlogged schedule).drop 3 := by decide
    obtain ⟨n, hn⟩ := own_of_flatMap_parts (i := 0) (by decide) (hwhole.symm.trans hbegin)
    have htake : (own 0 rs).take n =
        (messages twoUnlogged (Thread.initial 0) refusedActions).take ((own 0 rs).take n).length :=
      List.prefix_iff_eq_take.mp ((List.take_prefix n _).trans (hfront 0))
    rw [htake] at hn
    exact @not_flatten_take Str _ [["=> Unable to connect! Database error Access denied\n".toList]]
      [] _ _ _ rfl _ hn.symm

end PQuery.DbWorker

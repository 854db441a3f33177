import PQuery.DbWorker.Thread

/-!
# The query loop

The loop as a function of the answers it gets, one for each pass. The counters of `Database` are
what the history of the performed queries says they are (`Loop.Counted`), and before its `n`-th pass
the loop has performed `n` queries, with a 32-bit counter (`AtHead`). From these follows when the
loop ends and how many queries it has performed then (`loop_exact_iff`): the counter never reaches
a number of queries from 2 ^ 32 on.
-/

namespace PQuery.DbWorker

open Config

/-- The length of the longest suffix of failures. -/
def failing (outcomes : List Bool) : Nat := (outcomes.rtakeWhile (! ·)).length

theorem failing_concat (outcomes : List Bool) (success : Bool) :
    failing (outcomes ++ [success]) = if success then 0 else failing outcomes + 1 := by
  unfold failing
  rw [List.rtakeWhile_concat]
  cases success <;> simp

/-- The first `n` of a sequence of outcomes. -/
def outcomesOf (f : Nat → Bool) (n : Nat) : List Bool := (List.range n).map f

theorem outcomesOf_succ (f : Nat → Bool) (n : Nat) :
    outcomesOf f (n + 1) = outcomesOf f n ++ [f n] := by
  simp [outcomesOf, List.range_succ]

theorem le_failing_outcomesOf (f : Nat → Bool) (k n : Nat) :
    k ≤ failing (outcomesOf f n) ↔ k ≤ n ∧ ∀ j, n - k ≤ j → j < n → f j = false := by
  induction n generalizing k with
  | zero =>
    have h : failing (outcomesOf f 0) = 0 := by simp [outcomesOf, failing]
    rw [h]
    exact ⟨fun hk => ⟨hk, fun j _ hj => absurd hj (by omega)⟩, And.left⟩
  | succ n ih =>
    rw [outcomesOf_succ, failing_concat]
    cases k with
    | zero => exact ⟨fun _ => ⟨by omega, fun j hj hjn => absurd hj (by omega)⟩, fun _ => by omega⟩
    | succ k =>
      constructor
      · intro h
        by_cases hf : f n = true
        · rw [if_pos hf] at h
          omega
        · rw [if_neg hf] at h
          obtain ⟨hk, hall⟩ := (ih k).mp (by omega)
          refine ⟨by omega, fun j hj hjn => ?_⟩
          by_cases hlast : j = n
          · rw [hlast]
            simpa using hf
          · exact hall j (by omega) (by omega)
      · rintro ⟨hk, hall⟩
        have hf : ¬ f n = true := by simp [hall n (by omega) (by omega)]
        rw [if_neg hf]
        have := (ih k).mpr ⟨by omega, fun j hj hjn => hall j (by omega) (by omega)⟩
        omega

/-! ### One pass -/

/-- What the performed queries returned. -/
def Loop.outcomes (l : Loop) : List Bool := l.performed.map Prod.snd

/-- The counters are those of the history. -/
structure Loop.Counted (l : Loop) : Prop where
  performed : l.db.performed_queries = l.performed.length % 2 ^ 64
  failed : l.db.failed_queries = l.outcomes.count false % 2 ^ 64
  consecutive : l.db.consecutive_failures = failing l.outcomes % 2 ^ 16

theorem counted_initial : Loop.initial.Counted := ⟨by decide, by decide, by decide⟩

theorem foldl_apply (ops : List Op) (l : Loop) :
    (ops.foldl Loop.apply l).i = l.i ∧ (ops.foldl Loop.apply l).db = l.db ∧
      (ops.foldl Loop.apply l).performed = l.performed := by
  induction ops generalizing l with
  | nil => exact ⟨rfl, rfl, rfl⟩
  | cons op ops ih =>
    obtain ⟨hi, hdb, hperformed⟩ := ih (l.apply op)
    rw [List.foldl_cons, hi, hdb, hperformed]
    cases op <;> exact ⟨rfl, rfl, rfl⟩

theorem Loop.Counted.of_eq {l l' : Loop} (h : l.Counted) (hdb : l'.db = l.db)
    (hperformed : l'.performed = l.performed) : l'.Counted := by
  refine ⟨?_, ?_, ?_⟩
  · rw [hdb, hperformed]
    exact h.performed
  · rw [hdb, Loop.outcomes, hperformed]
    exact h.failed
  · rw [hdb, Loop.outcomes, hperformed]
    exact h.consecutive

section pass
variable {w : Worker} {a : Answer} {l l' : Loop}

theorem outcomes_perform : (l.perform w a).outcomes = l.outcomes ++ [a.success] := by
  simp [Loop.outcomes, Loop.perform]

theorem Loop.Counted.perform (h : l.Counted) : (l.perform w a).Counted := by
  have hlength : (l.perform w a).performed.length = l.performed.length + 1 := by
    simp [Loop.perform]
  refine ⟨?_, ?_, ?_⟩
  · rw [hlength]
    have hdb : (l.perform w a).db.performed_queries = (l.db.performed_queries + 1) % 2 ^ 64 := by
      simp only [Loop.perform, Database.performQuery]
      split <;> rfl
    rw [hdb, h.performed, Nat.mod_add_mod]
  · rw [outcomes_perform, List.count_append]
    simp only [Loop.perform, Database.performQuery]
    cases a.success with
    | true => simpa using h.failed
    | false => simp [h.failed]
  · rw [outcomes_perform, failing_concat]
    simp only [Loop.perform, Database.performQuery]
    cases a.success with
    | true => simp
    | false => simp [h.consecutive]

theorem length_bodyOps (query_number : Nat) :
    (bodyOps w query_number a).length = (bodyOps w 0 a).length := by
  simp only [bodyOps, threadTexts, outputTexts, annotationTexts, queryTexts, List.length_append,
    List.length_map, apply_ite List.length, List.length_cons, List.length_nil]

/-- An operation of the pass, after the query, throws. -/
def BodyThrows (w : Worker) (a : Answer) : Prop :=
  ∃ k, a.failsAt = some k ∧ k < (bodyOps w 0 a).length

theorem madeOps_lt : (madeOps w a l).length < (bodyOps w (queryNumber w a l) a).length ↔
    BodyThrows w a := by
  unfold madeOps BodyThrows
  cases a.failsAt with
  | none => simp
  | some k =>
    rw [List.length_take, length_bodyOps]
    constructor
    · intro h
      exact ⟨k, rfl, by omega⟩
    · rintro ⟨j, hj, h⟩
      obtain rfl := Option.some.inj hj
      omega

theorem madeOps_of_not (h : ¬ BodyThrows w a) : madeOps w a l = bodyOps w (queryNumber w a l) a := by
  unfold madeOps
  cases hk : a.failsAt with
  | none => rfl
  | some k =>
    refine List.take_of_length_le ?_
    rw [length_bodyOps]
    by_contra hlt
    exact h ⟨k, hk, by omega⟩

/-- The loop after a pass that reaches its end. -/
def Loop.completed (w : Worker) (a : Answer) (l : Loop) : Loop :=
  { (bodyOps w (queryNumber w a l) a).foldl Loop.apply (l.perform w a) with
    i := (l.i + 1) % 2 ^ 32 }

/-- What one pass can do. -/
theorem iteration_cases :
    (a.queryThrows = true ∧ iteration w a l = (l, some .threw)) ∨
    (a.queryThrows = false ∧ maxConFailures ≤ (l.perform w a).db.consecutive_failures ∧
      iteration w a l = (l.perform w a, some .aborted)) ∨
    (a.queryThrows = false ∧ (l.perform w a).db.consecutive_failures < maxConFailures ∧
      BodyThrows w a ∧
      iteration w a l = ((madeOps w a l).foldl Loop.apply (l.perform w a), some .threw)) ∨
    (a.queryThrows = false ∧ (l.perform w a).db.consecutive_failures < maxConFailures ∧
      ¬ BodyThrows w a ∧ iteration w a l = (l.completed w a, none)) := by
  unfold iteration
  cases hquery : a.queryThrows with
  | true => exact .inl ⟨rfl, rfl⟩
  | false =>
    rw [if_neg (by decide)]
    by_cases habort : maxConFailures ≤ (l.perform w a).db.consecutive_failures
    · exact .inr (.inl ⟨rfl, habort, if_pos habort⟩)
    · refine .inr (.inr ?_)
      rw [if_neg habort]
      by_cases hbody : BodyThrows w a
      · exact .inl ⟨rfl, by omega, hbody, if_pos (madeOps_lt.mpr hbody)⟩
      · refine .inr ⟨rfl, by omega, hbody, ?_⟩
        rw [if_neg (mt madeOps_lt.mp hbody), madeOps_of_not hbody, (foldl_apply _ _).1]
        rfl

/-- The pass performs its query and does not leave the loop. -/
def Continues (w : Worker) (a : Answer) (l : Loop) : Prop :=
  a.queryThrows = false ∧ (l.perform w a).db.consecutive_failures < maxConFailures ∧
    ¬ BodyThrows w a

theorem iteration_none : (iteration w a l).2 = none ↔ Continues w a l := by
  rcases iteration_cases (w := w) (a := a) (l := l) with ⟨h, hr⟩ | ⟨_, h, hr⟩ | ⟨_, _, h, hr⟩ |
    ⟨h₁, h₂, h₃, hr⟩
  · exact ⟨fun hn => (by rw [hr] at hn; cases hn), fun hc => by simp [hc.1] at h⟩
  · exact ⟨fun hn => (by rw [hr] at hn; cases hn), fun hc => absurd hc.2.1 (by omega)⟩
  · exact ⟨fun hn => (by rw [hr] at hn; cases hn), fun hc => absurd h hc.2.2⟩
  · exact ⟨fun _ => ⟨h₁, h₂, h₃⟩, fun _ => by rw [hr]⟩

theorem iteration_of_continues (h : Continues w a l) : iteration w a l = (l.completed w a, none) := by
  rcases iteration_cases (w := w) (a := a) (l := l) with ⟨hq, _⟩ | ⟨_, hc, _⟩ | ⟨_, _, hb, _⟩ |
    ⟨_, _, _, hr⟩
  · simp [h.1] at hq
  · exact absurd h.2.1 (by omega)
  · exact absurd hb h.2.2
  · exact hr

theorem iteration_ne_finished : (iteration w a l).2 ≠ some .finished := by
  rcases iteration_cases (w := w) (a := a) (l := l) with ⟨_, hr⟩ | ⟨_, _, hr⟩ | ⟨_, _, _, hr⟩ |
    ⟨_, _, _, hr⟩ <;> simp [hr]

end pass

/-! ### The passes of a run -/

section run
variable (w : Worker) (answers : Nat → Answer)

/-- The loop after `n` passes, or as it was left before. -/
def runLoop : Nat → Loop × Option Exit
  | 0 => (.initial, none)
  | n + 1 =>
    match runLoop n with
    | (l, none) => loopStep w (answers n) l
    | r => r

/-- The loop at its head, after `n` passes. -/
structure AtHead (n : Nat) (l : Loop) : Prop where
  outcomes : l.outcomes = outcomesOf (fun k => (answers k).success) n
  counter : l.i = n % 2 ^ 32
  counted : l.Counted
  low : failing l.outcomes < maxConFailures

/-- The last `maxConFailures` queries up to the `n`-th one all failed. -/
def Unlucky (n : Nat) : Prop :=
  maxConFailures ≤ n + 1 ∧ ∀ j, n + 1 - maxConFailures ≤ j → j ≤ n → (answers j).success = false

/-- The answers of the `n`-th pass end the loop: an exception, or the last of too many failures. -/
def ForcesExit (n : Nat) : Prop :=
  (answers n).queryThrows = true ∨ BodyThrows w (answers n) ∨ Unlucky answers n

end run

section run
variable {w : Worker} {answers : Nat → Answer} {n : Nat} {l : Loop}

theorem AtHead.length_performed (h : AtHead answers n l) : l.performed.length = n := by
  have := congrArg List.length h.outcomes
  simpa [Loop.outcomes, outcomesOf] using this

theorem AtHead.outcomes_perform (h : AtHead answers n l) :
    (l.perform w (answers n)).outcomes = outcomesOf (fun k => (answers k).success) (n + 1) := by
  rw [DbWorker.outcomes_perform, h.outcomes, outcomesOf_succ]

theorem AtHead.failing_perform (h : AtHead answers n l) :
    maxConFailures ≤ failing (l.perform w (answers n)).outcomes ↔ Unlucky answers n := by
  rw [h.outcomes_perform, le_failing_outcomesOf]
  exact and_congr_right fun _ => forall_congr' fun j => by rw [Nat.lt_succ_iff]

/-- The 16-bit counter of consecutive failures does not wrap in the loop. -/
theorem AtHead.consecutive_failures (h : AtHead answers n l) :
    (l.perform w (answers n)).db.consecutive_failures =
      failing (l.perform w (answers n)).outcomes := by
  rw [h.counted.perform.consecutive]
  refine Nat.mod_eq_of_lt ?_
  have hlow := h.low
  have hle : failing (l.perform w (answers n)).outcomes ≤ failing l.outcomes + 1 := by
    rw [DbWorker.outcomes_perform, failing_concat]
    split <;> omega
  unfold maxConFailures at hlow
  omega

theorem AtHead.continues (h : AtHead answers n l) :
    Continues w (answers n) l ↔ ¬ ForcesExit w answers n := by
  unfold Continues ForcesExit
  rw [h.consecutive_failures, ← Nat.not_le, h.failing_perform, ← Bool.not_eq_true]
  tauto

theorem AtHead.completed (h : AtHead answers n l) (hc : Continues w (answers n) l) :
    AtHead answers (n + 1) (l.completed w (answers n)) := by
  obtain ⟨_, hdb, hperformed⟩ :=
    foldl_apply (bodyOps w (queryNumber w (answers n) l) (answers n)) (l.perform w (answers n))
  have houtcomes : (l.completed w (answers n)).outcomes = (l.perform w (answers n)).outcomes :=
    congrArg (List.map Prod.snd) hperformed
  refine ⟨?_, ?_, ?_, ?_⟩
  · rw [houtcomes, h.outcomes_perform]
  · show (l.i + 1) % 2 ^ 32 = (n + 1) % 2 ^ 32
    rw [h.counter, Nat.mod_add_mod]
  · exact h.counted.perform.of_eq hdb hperformed
  · rw [houtcomes, ← h.consecutive_failures]
    exact hc.2.1

theorem atHead_initial : AtHead answers 0 .initial :=
  ⟨rfl, rfl, counted_initial, by decide⟩

theorem runLoop_succ (h : runLoop w answers n = (l, none)) :
    runLoop w answers (n + 1) = loopStep w (answers n) l := by
  rw [runLoop, h]

theorem loopStep_none {a : Answer} {l' : Loop} (h : loopStep w a l = (l', none)) :
    l.i < w.params.queries_per_thread ∧ Continues w a l ∧ l' = l.completed w a := by
  unfold loopStep at h
  by_cases hi : l.i < w.params.queries_per_thread
  · rw [if_pos hi] at h
    have hc : Continues w a l := iteration_none.mp (by rw [h])
    rw [iteration_of_continues hc] at h
    exact ⟨hi, hc, (congrArg Prod.fst h).symm⟩
  · rw [if_neg hi] at h
    cases h

/-- What holds before the first pass, and after every completed one, holds wherever the loop has not
been left. -/
theorem runLoop_induction {motive : Nat → Loop → Prop} (zero : motive 0 .initial)
    (succ : ∀ n l, motive n l → l.i < w.params.queries_per_thread → Continues w (answers n) l →
      motive (n + 1) (l.completed w (answers n))) :
    ∀ {n l}, runLoop w answers n = (l, none) → motive n l := by
  intro n
  induction n with
  | zero =>
    intro l h
    obtain rfl := congrArg Prod.fst h
    exact zero
  | succ n ih =>
    intro l h
    match hr : runLoop w answers n with
    | (l₀, none) =>
      rw [runLoop_succ hr] at h
      obtain ⟨hi, hc, rfl⟩ := loopStep_none h
      exact succ n l₀ (ih hr) hi hc
    | (l₀, some exit) =>
      rw [runLoop, hr] at h
      cases h

theorem atHead_of_runLoop (h : runLoop w answers n = (l, none)) : AtHead answers n l :=
  runLoop_induction (motive := AtHead answers) atHead_initial
    (fun _ _ hhead _ hc => hhead.completed hc) h

theorem exited_of_runLoop {exit : Exit} : ∀ {n l}, runLoop w answers n = (l, some exit) →
    ∃ m l₀, runLoop w answers m = (l₀, none) ∧ loopStep w (answers m) l₀ = (l, some exit) := by
  intro n
  induction n with
  | zero =>
    intro l h
    cases h
  | succ n ih =>
    intro l h
    match hr : runLoop w answers n with
    | (l₀, none) =>
      rw [runLoop_succ hr] at h
      exact ⟨n, l₀, hr, h⟩
    | (l₀, some e) =>
      refine ih ?_
      rw [runLoop, hr] at h
      rw [hr]
      exact h

theorem finished_of_runLoop {n : Nat} {l : Loop} (h : runLoop w answers n = (l, some .finished)) :
    ∃ m, runLoop w answers m = (l, none) ∧ ¬ l.i < w.params.queries_per_thread := by
  obtain ⟨m, l₀, hr, hstep⟩ := exited_of_runLoop h
  unfold loopStep at hstep
  by_cases hi : l₀.i < w.params.queries_per_thread
  · rw [if_pos hi] at hstep
    exact absurd (congrArg Prod.snd hstep) iteration_ne_finished
  · rw [if_neg hi] at hstep
    obtain rfl := congrArg Prod.fst hstep
    exact ⟨m, hr, hi⟩

theorem not_forcesExit_of_runLoop (h : runLoop w answers n = (l, none)) :
    ∀ k < n, ¬ ForcesExit w answers k := by
  refine (runLoop_induction (motive := fun n l => AtHead answers n l ∧
    ∀ k < n, ¬ ForcesExit w answers k) ⟨atHead_initial, fun k hk => absurd hk (by omega)⟩ ?_ h).2
  rintro n l ⟨hhead, hforce⟩ _ hc
  refine ⟨hhead.completed hc, fun k hk => ?_⟩
  by_cases hkn : k = n
  · rw [hkn]
    exact hhead.continues.mp hc
  · exact hforce k (by omega)

theorem le_queries_per_thread (hq : w.params.queries_per_thread < 2 ^ 32)
    (h : runLoop w answers n = (l, none)) : n ≤ w.params.queries_per_thread := by
  refine (runLoop_induction (motive := fun n l => AtHead answers n l ∧
    n ≤ w.params.queries_per_thread) ⟨atHead_initial, Nat.zero_le _⟩ ?_ h).2
  rintro n l ⟨hhead, hn⟩ hi hc
  refine ⟨hhead.completed hc, ?_⟩
  rw [hhead.counter, Nat.mod_eq_of_lt (by omega)] at hi
  omega

theorem runLoop_of_not_forcesExit (hi : ∀ k < n, k % 2 ^ 32 < w.params.queries_per_thread)
    (hforce : ∀ k < n, ¬ ForcesExit w answers k) : ∃ l, runLoop w answers n = (l, none) := by
  induction n with
  | zero => exact ⟨_, rfl⟩
  | succ n ih =>
    obtain ⟨l, hl⟩ := ih (fun k hk => hi k (by omega)) fun k hk => hforce k (by omega)
    have hhead := atHead_of_runLoop hl
    refine ⟨l.completed w (answers n), ?_⟩
    rw [runLoop_succ hl, loopStep, if_pos]
    · exact iteration_of_continues (hhead.continues.mpr (hforce n (by omega)))
    · rw [hhead.counter]
      exact hi n (by omega)

/-- Beyond the range of the counter only the answers end the loop. -/
theorem runLoop_of_le (hq : 2 ^ 32 ≤ w.params.queries_per_thread)
    (hforce : ∀ n, ¬ ForcesExit w answers n) (n : Nat) : ∃ l, runLoop w answers n = (l, none) :=
  runLoop_of_not_forcesExit
    (fun _ _ => Nat.lt_of_lt_of_le (Nat.mod_lt _ (by decide)) hq) fun k _ => hforce k

/-- The loop ends, and where it ends by its condition it has performed the queries asked for. -/
def Exact (w : Worker) (answers : Nat → Answer) : Prop :=
  (∃ n, (runLoop w answers n).2 ≠ none) ∧
    ∀ n l, runLoop w answers n = (l, some .finished) →
      l.performed.length = w.params.queries_per_thread

/-- **The query loop.** It ends, with as many queries performed as asked for where nothing else ends
it, exactly when that number is in the range of the 32-bit counter or the answers end the loop. -/
theorem loop_exact_iff (w : Worker) (answers : Nat → Answer) :
    Exact w answers ↔
      w.params.queries_per_thread < 2 ^ 32 ∨ ∃ n, ForcesExit w answers n := by
  constructor
  · rintro ⟨⟨n, hn⟩, _⟩
    by_contra hnot
    rw [not_or, not_exists] at hnot
    obtain ⟨l, hl⟩ := runLoop_of_le (by omega) hnot.2 n
    exact hn (by rw [hl])
  · intro hcond
    refine ⟨?_, fun n l hl => ?_⟩
    · by_contra hnot
      have hgoes : ∀ n, ∃ l, runLoop w answers n = (l, none) := fun n =>
        ⟨(runLoop w answers n).1, Prod.ext rfl (by_contra fun h => hnot ⟨n, h⟩)⟩
      rcases hcond with hq | ⟨n, hn⟩
      · obtain ⟨l, hl⟩ := hgoes (w.params.queries_per_thread + 1)
        have := le_queries_per_thread hq hl
        omega
      · obtain ⟨l, hl⟩ := hgoes (n + 1)
        exact not_forcesExit_of_runLoop hl n (by omega) hn
    · obtain ⟨m, hm, hi⟩ := finished_of_runLoop hl
      have hhead := atHead_of_runLoop hm
      have hlt : l.i < 2 ^ 32 := by
        rw [hhead.counter]
        exact Nat.mod_lt _ (by decide)
      have hle := le_queries_per_thread (by omega) hm
      rw [hhead.counter, Nat.mod_eq_of_lt (by omega)] at hi
      rw [hhead.length_performed]
      omega

end run

/-- The query succeeds with nothing to report, and nothing throws. -/
def Answer.quiet : Answer :=
  { drawn := 0, queryThrows := false, success := true, errorString := [], warningsCount := 0,
    affectedRows := 0, queryDurationMs := ⟨"0".toList, forall_mem_of_all (by decide)⟩, queryResult := [],
    failsAt := none }

/-- A configuration may ask for 2 ^ 32 queries, and then the loop of a thread whose queries all
succeed never ends. -/
theorem not_loop_exact_quiet :
    ∃ p, setupWorkerParams ⟨true, true⟩
        (INIReader.open (some "[w]\nqueries-per-thread = 4G\nshuffle = yes\n".toList)) "w".toList =
          .ok p ∧
      p.shuffle = true ∧ ¬ Exact ⟨p, ["SELECT 1".toList]⟩ fun _ => .quiet := by
  have hread : (setupWorkerParams ⟨true, true⟩
      (INIReader.open (some "[w]\nqueries-per-thread = 4G\nshuffle = yes\n".toList))
      "w".toList).map (fun p => (p.shuffle, p.queries_per_thread)) = .ok (true, 2 ^ 32) := by
    decide +kernel
  cases hp : setupWorkerParams ⟨true, true⟩
      (INIReader.open (some "[w]\nqueries-per-thread = 4G\nshuffle = yes\n".toList))
      "w".toList with
  | error e =>
    rw [hp] at hread
    cases hread
  | ok p =>
    rw [hp] at hread
    obtain ⟨hshuffle, hq⟩ := Prod.mk.inj (Except.ok.inj hread)
    refine ⟨p, rfl, hshuffle, ?_⟩
    rintro ⟨⟨n, hn⟩, _⟩
    have hforce : ∀ n, ¬ ForcesExit ⟨p, ["SELECT 1".toList]⟩ (fun _ => .quiet) n := by
      rintro n (hthrows | ⟨k, hk, _⟩ | ⟨_, hall⟩)
      · cases hthrows
      · cases hk
      · cases hall n (by unfold maxConFailures; omega) (Nat.le_refl n)
    obtain ⟨l, hl⟩ := runLoop_of_le (w := ⟨p, ["SELECT 1".toList]⟩) (by rw [hq]) hforce n
    exact hn (by rw [hl])

end PQuery.DbWorker

import Mathlib.Order.Bounds.Basic
import PQuery.DbWorker.Loop

/-!
# The abort

Where the query loop stops, in terms of the outcomes alone. `RunEnds` says that the last
`maxConFailures` of the first outcomes are failures. The counters of `Database` give the number of
queries, of failures and of the failures at the end (`Account`), so the abort is taken at the first
position where a run ends, and a loop that nothing else ends has performed the queries asked for or
those up to that position.
-/

namespace PQuery.DbWorker

/-- The last `maxConFailures` of the first `n` outcomes are failures. -/
def RunEnds (f : Nat → Bool) (n : Nat) : Prop :=
  maxConFailures ≤ n ∧ ∀ j, n - maxConFailures ≤ j → j < n → f j = false

theorem runEnds_iff (f : Nat → Bool) (n : Nat) :
    RunEnds f n ↔ maxConFailures ≤ failing (outcomesOf f n) :=
  (le_failing_outcomesOf f maxConFailures n).symm

theorem not_runEnds_zero (f : Nat → Bool) : ¬ RunEnds f 0 := by
  rintro ⟨h, _⟩
  exact absurd h (by decide)

theorem failing_le {f : Nat → Bool} {n : Nat} (hfirst : ∀ m < n, ¬ RunEnds f m) :
    failing (outcomesOf f n) ≤ maxConFailures := by
  cases n with
  | zero => exact Nat.zero_le _
  | succ n =>
    have hlow : failing (outcomesOf f n) < maxConFailures := by
      rw [← Nat.not_le, ← runEnds_iff]
      exact hfirst n (Nat.lt_succ_self n)
    rw [outcomesOf_succ, failing_concat]
    split <;> omega

section
variable {w : Worker} {answers : Nat → Answer} {n : Nat} {l : Loop}

theorem unlucky_iff : Unlucky answers n ↔ RunEnds (fun k => (answers k).success) (n + 1) := by
  refine and_congr_right fun _ => forall_congr' fun j => ?_
  rw [Nat.lt_succ_iff]

theorem not_runEnds_of_runLoop (h : runLoop w answers n = (l, none)) :
    ∀ m ≤ n, ¬ RunEnds (fun k => (answers k).success) m := by
  rintro m hm hends
  cases m with
  | zero => exact not_runEnds_zero _ hends
  | succ m => exact not_forcesExit_of_runLoop h m hm (.inr (.inr (unlucky_iff.mpr hends)))

/-! ### The account of a run -/

/-- The loop has performed `n` queries: what it has counted, and how it can have been left. -/
structure Account (w : Worker) (answers : Nat → Answer) (n : Nat) (l : Loop) (exit : Option Exit) :
    Prop where
  outcomes : l.outcomes = outcomesOf (fun k => (answers k).success) n
  counted : l.Counted
  first : ∀ m < n, ¬ RunEnds (fun k => (answers k).success) m
  aborted : exit = some .aborted ↔ RunEnds (fun k => (answers k).success) n
  bound : w.params.queries_per_thread < 2 ^ 32 → n ≤ w.params.queries_per_thread
  finished : exit = some .finished → w.params.queries_per_thread < 2 ^ 32 →
    n = w.params.queries_per_thread

theorem Account.length_performed {exit : Option Exit} (h : Account w answers n l exit) :
    l.performed.length = n := by
  have := congrArg List.length h.outcomes
  simpa [Loop.outcomes, outcomesOf] using this

theorem account_of_runLoop (h : runLoop w answers n = (l, none)) : Account w answers n l none := by
  have hhead := atHead_of_runLoop h
  have hends := not_runEnds_of_runLoop h
  refine ⟨hhead.outcomes, hhead.counted, fun m hm => hends m (Nat.le_of_lt hm), ?_, ?_, ?_⟩
  · exact ⟨fun hexit => (by cases hexit), fun hrun => absurd hrun (hends n (Nat.le_refl n))⟩
  · exact fun hq => le_queries_per_thread hq h
  · exact fun hexit => (by cases hexit)

theorem account_before (h : runLoop w answers n = (l, none)) {exit : Exit}
    (haborted : exit ≠ .aborted)
    (hfinished : exit = .finished → ¬ l.i < w.params.queries_per_thread) :
    Account w answers n l (some exit) := by
  obtain ⟨houtcomes, hcounted, hfirst, _, hbound, _⟩ := account_of_runLoop h
  refine ⟨houtcomes, hcounted, hfirst, ?_, hbound, fun hexit hq => ?_⟩
  · refine ⟨fun hexit => absurd (Option.some.inj hexit) haborted, fun hrun => ?_⟩
    exact absurd hrun (not_runEnds_of_runLoop h n (Nat.le_refl n))
  · have hi := hfinished (Option.some.inj hexit)
    have hle := hbound hq
    rw [(atHead_of_runLoop h).counter, Nat.mod_eq_of_lt (by omega)] at hi
    omega

theorem account_after (h : runLoop w answers n = (l, none))
    (hi : l.i < w.params.queries_per_thread) {l' : Loop} {exit : Exit}
    (hdb : l'.db = (l.perform w (answers n)).db)
    (hperformed : l'.performed = (l.perform w (answers n)).performed)
    (hfinished : exit ≠ .finished)
    (haborted : exit = .aborted ↔
      maxConFailures ≤ (l.perform w (answers n)).db.consecutive_failures) :
    Account w answers (n + 1) l' (some exit) := by
  have hhead := atHead_of_runLoop h
  refine ⟨?_, hhead.counted.perform.of_eq hdb hperformed, ?_, ?_, fun hq => ?_, ?_⟩
  · rw [Loop.outcomes, hperformed]
    exact hhead.outcomes_perform
  · exact fun m hm => not_runEnds_of_runLoop h m (Nat.lt_succ_iff.mp hm)
  · rw [Option.some.injEq, haborted, hhead.consecutive_failures, hhead.failing_perform]
    exact unlucky_iff
  · have hle := le_queries_per_thread hq h
    rw [hhead.counter, Nat.mod_eq_of_lt (by omega)] at hi
    exact hi
  · exact fun hexit => absurd (Option.some.inj hexit) hfinished

/-- Wherever the loop is, it has an account of the queries it has performed. -/
theorem account (w : Worker) (answers : Nat → Answer) (passes : Nat) :
    ∃ n, Account w answers n (runLoop w answers passes).1 (runLoop w answers passes).2 := by
  match hr : runLoop w answers passes with
  | (l, none) => exact ⟨passes, account_of_runLoop hr⟩
  | (l, some exit) =>
    obtain ⟨m, l₀, hhead, hstep⟩ := exited_of_runLoop hr
    unfold loopStep at hstep
    by_cases hi : l₀.i < w.params.queries_per_thread
    · rw [if_pos hi] at hstep
      rcases iteration_cases (w := w) (a := answers m) (l := l₀) with ⟨_, hpass⟩ |
        ⟨_, habort, hpass⟩ | ⟨_, hlow, _, hpass⟩ | ⟨_, _, _, hpass⟩
      · rw [hpass] at hstep
        cases hstep
        exact ⟨m, account_before hhead (by decide) fun hexit => by cases hexit⟩
      · rw [hpass] at hstep
        cases hstep
        exact ⟨m + 1, account_after hhead hi rfl rfl (by decide) ⟨fun _ => habort, fun _ => rfl⟩⟩
      · rw [hpass] at hstep
        cases hstep
        obtain ⟨_, hdb, hperformed⟩ :=
          foldl_apply (madeOps w (answers m) l₀) (l₀.perform w (answers m))
        refine ⟨m + 1, account_after hhead hi hdb hperformed (by decide) ?_⟩
        exact ⟨fun hexit => (by cases hexit), fun habort => absurd habort (by omega)⟩
      · rw [hpass] at hstep
        cases hstep
    · rw [if_neg hi] at hstep
      cases hstep
      exact ⟨m, account_before hhead (by decide) fun _ => hi⟩

theorem Account.consecutive_failures {exit : Option Exit} (h : Account w answers n l exit) :
    l.db.consecutive_failures = failing l.outcomes := by
  have hle := failing_le h.first
  unfold maxConFailures at hle
  rw [h.counted.consecutive, h.outcomes]
  exact Nat.mod_eq_of_lt (by omega)

/-- A loop that ends by its condition or the abort has performed as many queries as asked for, or
those up to the end of the first run of failures. -/
theorem Account.isLeast {exit : Option Exit} (h : Account w answers n l exit)
    (hq : w.params.queries_per_thread < 2 ^ 32)
    (hexit : exit = some .finished ∨ exit = some .aborted) :
    IsLeast {m | m = w.params.queries_per_thread ∨ RunEnds (fun k => (answers k).success) m} n := by
  constructor
  · rcases hexit with hfinished | haborted
    · exact .inl (h.finished hfinished hq)
    · exact .inr (h.aborted.mp haborted)
  · rintro m (rfl | hends)
    · exact h.bound hq
    · by_contra hlt
      exact h.first m (Nat.lt_of_not_le hlt) hends

end

/-- **The abort.** Wherever the loop is, `n` queries having been performed, the counter of
consecutive failures is that of the failures at the end, and the other two are exact while `n` is
below 2 ^ 64, as it is where the loop can end by its condition. The abort is taken exactly at the
end of the first run of failures, and with a number of queries that the loop's counter can reach the
loop ends, with the smaller of that number and the end of the first run performed where it is not
left by an exception. -/
theorem abort_rule (w : Worker) (answers : Nat → Answer) (passes : Nat) :
    let f := fun k => (answers k).success
    let l := (runLoop w answers passes).1
    let exit := (runLoop w answers passes).2
    let n := l.performed.length
    let q := w.params.queries_per_thread
    l.outcomes = outcomesOf f n ∧
      (q < 2 ^ 32 ∨ n < 2 ^ 64 → l.db.performed_queries = n ∧
        l.db.failed_queries = l.outcomes.count false) ∧
      l.db.consecutive_failures = failing l.outcomes ∧
      (exit = some .aborted ↔ RunEnds f n ∧ ∀ m < n, ¬ RunEnds f m) ∧
      (exit = none → ∀ m ≤ n, ¬ RunEnds f m) ∧
      (q < 2 ^ 32 → exit = some .finished ∨ exit = some .aborted →
        IsLeast {m | m = q ∨ RunEnds f m} n) ∧
      (q < 2 ^ 32 → (runLoop w answers (q + 1)).2 ≠ none) := by
  intro f l exit n q
  obtain ⟨k, haccount⟩ := account w answers passes
  obtain rfl : n = k := haccount.length_performed
  refine ⟨haccount.outcomes, fun hn => ?_, haccount.consecutive_failures, ?_, fun hnone => ?_,
    haccount.isLeast, fun hq hnone => ?_⟩
  · have hlt : n < 2 ^ 64 := by
      rcases hn with hq | hn
      · exact Nat.lt_of_le_of_lt (haccount.bound hq) (Nat.lt_trans hq (by decide))
      · exact hn
    have hcount : l.outcomes.count false ≤ n := by
      rw [show n = l.outcomes.length from (List.length_map _).symm]
      exact List.count_le_length
    exact ⟨haccount.counted.performed.trans (Nat.mod_eq_of_lt hlt),
      haccount.counted.failed.trans (Nat.mod_eq_of_lt (Nat.lt_of_le_of_lt hcount hlt))⟩
  · exact ⟨fun haborted => ⟨haccount.aborted.mp haborted, haccount.first⟩,
      fun hends => haccount.aborted.mpr hends.1⟩
  · rintro m hm hends
    rcases Nat.lt_or_eq_of_le hm with hlt | rfl
    · exact haccount.first m hlt hends
    · exact absurd (hnone.symm.trans (haccount.aborted.mpr hends)) (by simp)
  · have := le_queries_per_thread hq (Prod.ext rfl hnone : runLoop w answers (q + 1) = (_, none))
    exact absurd this (by omega)

end PQuery.DbWorker

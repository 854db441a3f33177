import PQuery.DbWorker.Loop

/-!
# What a thread can do

`Move` has one constructor for each way `Thread.step` can go, so that what every step keeps is proved
one way at a time. The first thing it keeps is `Thread.Valid`: the counters of the database are those
of the history, nothing is performed before the loop, and what is still to be added to a total on the
way out is added once.
-/

namespace PQuery.DbWorker

open Config

section
variable (w : Worker) (s : Shared) (t : Thread)

inductive Move : Action → Shared → Thread → Prop
  | emptyList (b : Bool) : t.phase = .starting → w.queryList = [] →
      Move (.start b) s { t with phase := .leaving (emptyListOps t.number) }
  | created : t.phase = .starting → Move (.start true) s { t with phase := .connecting }
  | connected (errorString : Str) : t.phase = .connecting →
      Move (.connect (some (true, errorString))) s
        { t with phase := .looping, connected := some true }
  | refused (errorString : Str) : t.phase = .connecting →
      Move (.connect (some (false, errorString))) s
        { t with
          phase := .leaving (refusedOps w.params t.number errorString), connected := some false }
  | passed (a : Answer) (l : Loop) : t.phase = .looping → loopStep w a t.loop = (l, none) →
      Move (.iterate a) s { t with loop := l }
  | left (a : Answer) (l : Loop) (exit : Exit) : t.phase = .looping → exit ≠ .threw →
      loopStep w a t.loop = (l, some exit) →
      Move (.iterate a) s { t with loop := l, phase := .leaving (leavingOps w l exit) }
  | operated (b : Bool) (op : Op) (ops : List Op) : t.phase = .leaving (op :: ops) →
      (b || !op.mayThrow) = true →
      Move (.operate b) (s.apply t.loop.db op)
        { t with phase := .leaving ops, loop := t.loop.apply op }
  | startThrew : t.phase = .starting →
      Move (.start false) { s with thread_failed := true } { t with threw := true }
  | connectThrew : t.phase = .connecting →
      Move (.connect none) { s with thread_failed := true } { t with threw := true }
  | loopThrew (a : Answer) (l : Loop) : t.phase = .looping →
      loopStep w a t.loop = (l, some .threw) →
      Move (.iterate a) { s with thread_failed := true } { t with loop := l, threw := true }
  | operationThrew (op : Op) (ops : List Op) : t.phase = .leaving (op :: ops) →
      op.mayThrow = true →
      Move (.operate false) { s with thread_failed := true } { t with threw := true }

end

variable {w : Worker} {s s' : Shared} {t t' : Thread} {a : Action}

/-- Every step is a move of a thread that has not thrown. -/
theorem move_of_step (h : t.step w a s = some (s', t')) : t.threw = false ∧ Move w s t a s' t' := by
  unfold Thread.step at h
  by_cases hthrew : t.threw = true
  · rw [if_pos hthrew] at h
    cases h
  rw [if_neg hthrew] at h
  refine ⟨by simpa using hthrew, ?_⟩
  split at h
  case h_1 succeeds hphase =>
    by_cases hempty : w.queryList.isEmpty = true
    · rw [if_pos hempty] at h
      cases h
      exact .emptyList succeeds hphase (List.isEmpty_iff.mp hempty)
    · rw [if_neg hempty] at h
      cases succeeds with
      | true =>
        cases h
        exact .created hphase
      | false =>
        cases h
        exact .startThrew hphase
  case h_2 hphase =>
    cases h
    exact .connectThrew hphase
  case h_3 errorString hphase =>
    cases h
    exact .connected errorString hphase
  case h_4 errorString hphase =>
    cases h
    exact .refused errorString hphase
  case h_5 a hphase =>
    obtain h := Option.some.inj h
    match hr : loopStep w a t.loop with
    | (l, none) =>
      rw [hr] at h
      cases h
      exact .passed a l hphase hr
    | (l, some .threw) =>
      rw [hr] at h
      cases h
      exact .loopThrew a l hphase hr
    | (l, some .finished) =>
      rw [hr] at h
      cases h
      exact .left a l .finished hphase (by decide) hr
    | (l, some .aborted) =>
      rw [hr] at h
      cases h
      exact .left a l .aborted hphase (by decide) hr
  case h_6 op ops succeeds hphase =>
    by_cases hok : (succeeds || !op.mayThrow) = true
    · rw [if_pos hok] at h
      cases h
      exact .operated succeeds op ops hphase hok
    · rw [if_neg hok] at h
      cases h
      simp only [Bool.or_eq_true, Bool.not_eq_true', not_or, Bool.not_eq_true,
        Bool.not_eq_false] at hok
      obtain ⟨rfl, hmay⟩ := hok
      exact .operationThrew op ops hphase hmay
  case h_7 => cases h

/-! ### The invariant -/

/-- What holds in each phase. -/
def PhaseValid (performed : List (Nat × Bool)) (connected : Option Bool) : Phase → Prop
  | .starting | .connecting => performed = [] ∧ connected = none
  | .looping => connected = some true
  | .leaving ops => (∀ total, ops.count (.add total) ≤ 1) ∧
      (.add .failed_connections_total ∈ ops → connected = some false)

structure Thread.Valid (t : Thread) : Prop where
  counted : t.loop.Counted
  phase : PhaseValid t.loop.performed t.connected t.phase

theorem valid_initial (number : Nat) : (Thread.initial number).Valid :=
  ⟨counted_initial, rfl, rfl⟩

theorem count_emptyListOps (number : Nat) (total : Total) :
    (emptyListOps number).count (.add total) = 0 := rfl

theorem count_refusedOps (p : workerParams) (number : Nat) (errorString : Str) (total : Total) :
    (refusedOps p number errorString).count (.add total) =
      if total = .failed_connections_total then 1 else 0 := by
  unfold refusedOps
  cases logsThread p <;> cases total <;> rfl

theorem count_leavingOps (l : Loop) (exit : Exit) (total : Total) :
    (leavingOps w l exit).count (.add total) =
      if total = .failed_connections_total then 0 else 1 := by
  unfold leavingOps abortedOps
  cases exit <;> cases logsThread w.params <;> cases total <;> rfl

theorem add_mem_refusedOps {p : workerParams} {number : Nat} {errorString : Str} {total : Total} :
    .add total ∈ refusedOps p number errorString ↔ total = .failed_connections_total := by
  rw [← List.count_pos_iff, count_refusedOps]
  split <;> simp [*]

theorem add_mem_leavingOps {l : Loop} {exit : Exit} {total : Total} :
    .add total ∈ leavingOps w l exit ↔ total ≠ .failed_connections_total := by
  rw [← List.count_pos_iff, count_leavingOps]
  split <;> simp [*]

theorem counted_loopStep {answer : Answer} {l l' : Loop} {e : Option Exit} (h : l.Counted)
    (hstep : loopStep w answer l = (l', e)) : l'.Counted := by
  unfold loopStep at hstep
  by_cases hi : l.i < w.params.queries_per_thread
  · rw [if_pos hi] at hstep
    rcases iteration_cases (w := w) (a := answer) (l := l) with ⟨_, hr⟩ | ⟨_, _, hr⟩ |
      ⟨_, _, _, hr⟩ | ⟨_, _, _, hr⟩
    · rw [hr] at hstep
      cases hstep
      exact h
    · rw [hr] at hstep
      cases hstep
      exact h.perform
    · rw [hr] at hstep
      cases hstep
      obtain ⟨_, hdb, hperformed⟩ := foldl_apply (madeOps w answer l) (l.perform w answer)
      exact h.perform.of_eq hdb hperformed
    · rw [hr] at hstep
      cases hstep
      obtain ⟨_, hdb, hperformed⟩ :=
        foldl_apply (bodyOps w (queryNumber w answer l) answer) (l.perform w answer)
      exact h.perform.of_eq hdb hperformed
  · rw [if_neg hi] at hstep
    cases hstep
    exact h

theorem Thread.Valid.step (h : t.Valid) (hstep : t.step w a s = some (s', t')) : t'.Valid := by
  obtain ⟨hcounted, hvalid⟩ := h
  cases (move_of_step hstep).2 with
  | emptyList b hphase _ =>
    refine ⟨hcounted, fun total => ?_, fun hmem => ?_⟩
    · rw [count_emptyListOps]
      omega
    · simp [emptyListOps] at hmem
  | created hphase =>
    rw [hphase] at hvalid
    exact ⟨hcounted, hvalid⟩
  | connected errorString hphase => exact ⟨hcounted, rfl⟩
  | refused errorString hphase =>
    refine ⟨hcounted, fun total => ?_, fun _ => rfl⟩
    rw [count_refusedOps]
    split <;> omega
  | passed answer l hphase hr =>
    rw [hphase] at hvalid
    refine ⟨counted_loopStep hcounted hr, ?_⟩
    show PhaseValid _ _ t.phase
    rw [hphase]
    exact hvalid
  | left answer l exit hphase _ hr =>
    refine ⟨counted_loopStep hcounted hr, fun total => ?_, fun hmem => ?_⟩
    · rw [count_leavingOps]
      split <;> omega
    · exact absurd rfl (add_mem_leavingOps.mp hmem)
  | operated b op ops hphase _ =>
    rw [hphase] at hvalid
    obtain ⟨hcount, hconnection⟩ := hvalid
    obtain ⟨_, hdb, hperformed⟩ := foldl_apply [op] t.loop
    refine ⟨hcounted.of_eq hdb hperformed, fun total => ?_, fun hmem => ?_⟩
    · exact Nat.le_trans List.count_le_count_cons (hcount total)
    · exact hconnection (List.mem_cons_of_mem op hmem)
  | startThrew hphase => exact ⟨hcounted, hvalid⟩
  | connectThrew hphase => exact ⟨hcounted, hvalid⟩
  | loopThrew answer l hphase hr =>
    rw [hphase] at hvalid
    refine ⟨counted_loopStep hcounted hr, ?_⟩
    show PhaseValid _ _ t.phase
    rw [hphase]
    exact hvalid
  | operationThrew op ops hphase _ => exact ⟨hcounted, hvalid⟩

end PQuery.DbWorker

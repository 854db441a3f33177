import PQuery.Pool.WorkerPool

/-!
# The verdict of the master

`waitForWorkers` is to return `true` exactly when every worker was reaped with status 0 and none was
signalled. Its flag says just that of the workers that have been reaped so far (`Consistent`, kept
by every pass of the loop, and inside a pass by every worker that is checked), so the verdict is
right when the list is empty. A failing `waitpid` leaves the loop with workers still on the list, and
the verdict is then right only if the flag had been cleared before (`verdict_iff`).
-/

namespace PQuery.Pool

open Config

/-- Every worker was taken off the list, with wait status 0, and no signal was sent. -/
def AllSucceeded (workers : List workerProc) (st : Waiting) : Prop :=
  (st.exits.map fun e => e.1.pid).Perm (workers.map fun proc => proc.pid) ∧
    (∀ e ∈ st.exits, e.2 = 0) ∧ st.signals = []

/-- What the loop keeps: the workers are those reaped and those listed, the flag says what the
history says, and once a worker has been signalled it is cleared. `current` is the list of workers,
which in the middle of a check is longer than the part that is rewritten. -/
structure Consistent (workers current : List workerProc) (st : Waiting) : Prop where
  accounted : ((st.exits.map fun e => e.1.pid) ++ current.map fun proc => proc.pid).Perm
    (workers.map fun proc => proc.pid)
  verdict : st.retvalue = true ↔ (∀ e ∈ st.exits, e.2 = 0) ∧ st.signals = []
  termed : ∀ proc ∈ current, proc.term_sent = true → st.retvalue = false

/-- The pass makes a worker fail: one that is reaped has a status other than 0, or one that is
listed has run out of its time. -/
def Fails (st : Waiting) : WaitAnswer → Prop
  | .exited wPID status => (∃ proc ∈ st.activeWorkers, proc.pid = wPID) ∧ status ≠ 0
  | .error => False
  | .idle now => ∃ proc ∈ st.activeWorkers, expires now proc = true

/-- `waitpid` fails while workers are listed, and no worker has failed before. -/
def GivesUpEarly : List (Reply WaitAnswer) → Waiting → Prop
  | [], _ => False
  | reply :: rest, st =>
    st.activeWorkers ≠ [] ∧ (reply.answer = .error ∨
      ¬ Fails st reply.answer ∧
        GivesUpEarly rest (poll { st with toWorkerPool := st.toWorkerPool.forget reply.gone }
          reply.answer))

section
variable {workers rest : List workerProc} {st : Waiting} {proc : workerProc} {now : Nat}

/-! ### One worker, one check -/

theorem checkTimeout_retvalue :
    (checkTimeout now st proc).retvalue = true ↔ st.retvalue = true ∧ expires now proc = false := by
  unfold checkTimeout
  cases expires now proc with
  | true => simp
  | false =>
    cases outstays now proc with
    | true => simp
    | false => simp

theorem foldl_checkTimeout_retvalue (procs : List workerProc) (st : Waiting) :
    (procs.foldl (checkTimeout now) st).retvalue = true ↔
      st.retvalue = true ∧ ∀ proc ∈ procs, expires now proc = false := by
  induction procs generalizing st with
  | nil => simp
  | cons proc procs ih =>
    rw [List.foldl_cons, ih, checkTimeout_retvalue, List.forall_mem_cons, and_assoc]

theorem Consistent.checkTimeout (h : Consistent workers (st.activeWorkers ++ proc :: rest) st) :
    Consistent workers ((checkTimeout now st proc).activeWorkers ++ rest)
      (checkTimeout now st proc) := by
  obtain ⟨haccounted, hverdict, htermed⟩ := h
  have hproc : proc ∈ st.activeWorkers ++ proc :: rest := by simp
  unfold Pool.checkTimeout
  by_cases hexpires : expires now proc = true
  · rw [if_pos hexpires]
    refine ⟨?_, ?_, fun _ _ _ => rfl⟩
    · simpa using haccounted
    · simp
  · rw [if_neg hexpires]
    by_cases houtstays : outstays now proc = true
    · rw [if_pos houtstays]
      -- The worker has been signalled before, so the flag is cleared already.
      have hterm : proc.term_sent = true := (Bool.and_eq_true _ _ ▸ houtstays).1
      have hfalse : st.retvalue = false := htermed proc hproc hterm
      refine ⟨?_, ?_, fun _ _ _ => hfalse⟩
      · simpa using haccounted
      · simp [hfalse]
    · rw [if_neg houtstays]
      refine ⟨?_, hverdict, ?_⟩
      · simpa using haccounted
      · simpa using htermed

theorem Consistent.foldl_checkTimeout : ∀ {procs : List workerProc} {st : Waiting},
    Consistent workers (st.activeWorkers ++ procs) st →
      Consistent workers (procs.foldl (Pool.checkTimeout now) st).activeWorkers
        (procs.foldl (Pool.checkTimeout now) st) := by
  intro procs
  induction procs with
  | nil =>
    intro st h
    simpa using h
  | cons proc procs ih =>
    intro st h
    exact ih h.checkTimeout

/-! ### One pass -/

theorem perm_eraseP {α : Type*} {f : α → Bool} {x : α} {xs : List α} (h : xs.find? f = some x) :
    xs.Perm (x :: xs.eraseP f) := by
  induction xs with
  | nil => cases h
  | cons y xs ih =>
    by_cases hy : f y = true
    · rw [List.find?_cons_of_pos hy] at h
      obtain rfl := Option.some.inj h
      rw [List.eraseP_cons_of_pos hy]
    · rw [List.find?_cons_of_neg hy] at h
      rw [List.eraseP_cons_of_neg hy]
      exact ((ih h).cons y).trans (List.Perm.swap x y _)

theorem poll_retvalue (answer : WaitAnswer) :
    (poll st answer).retvalue = true ↔ st.retvalue = true ∧ ¬ Fails st answer := by
  cases answer with
  | exited wPID status =>
    unfold Fails
    rcases poll_exited st wPID status with ⟨hfind, hpoll⟩ | ⟨proc, hfind, hpoll⟩
    · have hnone : ¬ ∃ p ∈ st.activeWorkers, p.pid = wPID := by
        simpa using hfind
      simp [hpoll, hnone]
    · have hsome : ∃ p ∈ st.activeWorkers, p.pid = wPID :=
        ⟨proc, List.mem_of_find?_eq_some hfind, by simpa using List.find?_some hfind⟩
      simp [hpoll, hsome]
  | error => simp [poll, Fails]
  | idle now =>
    unfold poll Fails
    rw [foldl_checkTimeout_retvalue]
    simp

theorem Consistent.poll (h : Consistent workers st.activeWorkers st) (answer : WaitAnswer) :
    Consistent workers (Pool.poll st answer).activeWorkers (Pool.poll st answer) := by
  obtain ⟨haccounted, hverdict, htermed⟩ := h
  cases answer with
  | exited wPID status =>
    rcases poll_exited st wPID status with ⟨-, hpoll⟩ | ⟨proc, hfind, hpoll⟩
    · rw [hpoll]
      exact ⟨haccounted, hverdict, htermed⟩
    · rw [hpoll]
      have hperm := perm_eraseP hfind
      refine ⟨?_, ?_, ?_⟩
      · refine List.Perm.trans ?_ haccounted
        rw [List.map_append, List.append_assoc]
        refine List.Perm.append_left _ ?_
        exact (hperm.map fun p => p.pid).symm
      · simp only [Bool.and_eq_true, beq_iff_eq, hverdict, List.mem_append, List.mem_singleton]
        constructor
        · rintro ⟨⟨hexits, hsignals⟩, hstatus⟩
          refine ⟨?_, hsignals⟩
          rintro e (he | rfl)
          · exact hexits e he
          · exact hstatus
        · rintro ⟨hexits, hsignals⟩
          exact ⟨⟨fun e he => hexits e (.inl he), hsignals⟩, hexits _ (.inr rfl)⟩
      · intro p hp hterm
        rw [htermed p (List.mem_of_mem_eraseP hp) hterm]
        rfl
  | error => exact ⟨haccounted, hverdict, htermed⟩
  | idle now =>
    have hstart : Consistent workers st.activeWorkers { st with activeWorkers := [] } :=
      ⟨haccounted, hverdict, htermed⟩
    exact Consistent.foldl_checkTimeout hstart

/-! ### The loop -/

theorem Consistent.allSucceeded (h : Consistent workers st.activeWorkers st)
    (hempty : st.activeWorkers = []) : st.retvalue = true ↔ AllSucceeded workers st := by
  obtain ⟨haccounted, hverdict, _⟩ := h
  rw [hempty, List.map_nil, List.append_nil] at haccounted
  rw [hverdict, AllSucceeded]
  exact (and_iff_right haccounted).symm

theorem Consistent.not_allSucceeded (h : Consistent workers st.activeWorkers st)
    (hne : st.activeWorkers ≠ []) : ¬ AllSucceeded workers st := by
  rintro ⟨hperm, _⟩
  have hlength := h.accounted.length_eq
  have hpos := List.length_pos_iff.mpr hne
  have hsame := hperm.length_eq
  rw [List.length_append] at hlength
  simp only [List.length_map] at hlength hsame
  omega

theorem waitForWorkers_verdict {replies : List (Reply WaitAnswer)} {st st' : Waiting}
    {verdict : Bool} (h : Consistent workers st.activeWorkers st)
    (hreturn : waitForWorkers replies st = (st', some verdict)) :
    (verdict = true ↔ AllSucceeded workers st') ↔
      ¬ (st.retvalue = true ∧ GivesUpEarly replies st) := by
  refine waitForWorkers_induction (motive := fun replies st st' verdict =>
    Consistent workers st.activeWorkers st →
      ((verdict = true ↔ AllSucceeded workers st') ↔
        ¬ (st.retvalue = true ∧ GivesUpEarly replies st))) ?empty ?error ?pass hreturn h
  case empty =>
    intro replies st hnil h
    refine iff_of_true (h.allSucceeded hnil) ?_
    rintro ⟨_, hearly⟩
    cases replies with
    | nil => exact hearly
    | cons reply rest => exact hearly.1 hnil
  case error =>
    intro reply rest st hne herror h
    let forgotten : Waiting := { st with toWorkerPool := st.toWorkerPool.forget reply.gone }
    have hforgotten : Consistent workers forgotten.activeWorkers forgotten := ⟨h.1, h.2, h.3⟩
    have hnot : ¬ AllSucceeded workers forgotten := hforgotten.not_allSucceeded hne
    constructor
    · rintro hright ⟨hflag, _⟩
      exact hnot (hright.mp hflag)
    · intro hearly
      have hflag : ¬ st.retvalue = true := fun hflag => hearly ⟨hflag, hne, .inl herror⟩
      exact iff_of_false hflag hnot
  case pass =>
    intro reply rest st st' verdict hne herror ih h
    let forgotten : Waiting := { st with toWorkerPool := st.toWorkerPool.forget reply.gone }
    have hforgotten : Consistent workers forgotten.activeWorkers forgotten := ⟨h.1, h.2, h.3⟩
    rw [ih (hforgotten.poll reply.answer), not_iff_not, poll_retvalue]
    constructor
    · rintro ⟨⟨hflag, hfails⟩, hrest⟩
      exact ⟨hflag, hne, .inr ⟨hfails, hrest⟩⟩
    · rintro ⟨hflag, _, herror' | ⟨hfails, hrest⟩⟩
      · exact absurd herror' herror
      · exact ⟨⟨hflag, hfails⟩, hrest⟩

end

/-- The pool that waits for these workers. -/
def supervise (workers : List workerProc) : Waiting :=
  { WorkerPool.initial with activeWorkers := workers, retvalue := true }

/-- The workers that were forked: their parameters, their PIDs and the times of their start. -/
def forkedProcs (forks : List (workerParams × Nat × Nat)) : List workerProc :=
  forks.map fun fork => forkedProc fork.1 fork.2.1 fork.2.2

theorem consistent_supervise (forks : List (workerParams × Nat × Nat)) :
    Consistent (forkedProcs forks) (forkedProcs forks) (supervise (forkedProcs forks)) := by
  refine ⟨List.Perm.refl _, ?_, ?_⟩
  · exact iff_of_true rfl ⟨fun e he => absurd he List.not_mem_nil, rfl⟩
  · intro proc hproc hterm
    obtain ⟨fork, _, rfl⟩ := List.mem_map.mp hproc
    cases hterm

/-- **The verdict.** It is `true` exactly when all workers have succeeded, if and only if `waitpid`
does not fail while workers are listed of which none has failed. -/
theorem verdict_iff (forks : List (workerParams × Nat × Nat)) (replies : List (Reply WaitAnswer))
    (st : Waiting) (verdict : Bool)
    (h : waitForWorkers replies (supervise (forkedProcs forks)) = (st, some verdict)) :
    (verdict = true ↔ AllSucceeded (forkedProcs forks) st) ↔
      ¬ GivesUpEarly replies (supervise (forkedProcs forks)) := by
  rw [waitForWorkers_verdict (consistent_supervise forks) h]
  exact not_congr (and_iff_right rfl)

/-- One worker is reaped with status 0, after a child that the pool does not know. -/
theorem verdict_iff_reaped :
    ∃ st, waitForWorkers [⟨[], .idle 5⟩, ⟨[], .exited 9 1⟩, ⟨[], .exited 7 0⟩]
        (supervise (forkedProcs [({ myName := "w".toList, timeout_secs := 1 }, 7, 0)])) =
          (st, some true) ∧
      AllSucceeded (forkedProcs [({ myName := "w".toList, timeout_secs := 1 }, 7, 0)]) st := by
  refine ⟨_, rfl, ?_⟩
  refine ((verdict_iff [({ myName := "w".toList, timeout_secs := 1 }, 7, 0)]
    [⟨[], .idle 5⟩, ⟨[], .exited 9 1⟩, ⟨[], .exited 7 0⟩] _ true rfl).mpr ?_).mp rfl
  rintro ⟨_, h | ⟨_, _, h | ⟨_, _, h | ⟨_, h⟩⟩⟩⟩
  · cases h
  · cases h
  · cases h
  · exact h

/-- When `waitpid` fails at once, the run of a worker that nothing is known of is a success. -/
theorem not_verdict_true :
    ∃ st, waitForWorkers [⟨[], .error⟩] (supervise (forkedProcs [({ myName := "w".toList }, 7, 0)])) =
        (st, some true) ∧
      ¬ AllSucceeded (forkedProcs [({ myName := "w".toList }, 7, 0)]) st := by
  refine ⟨_, rfl, ?_⟩
  rintro ⟨hperm, _⟩
  exact absurd hperm.length_eq (by decide)

end PQuery.Pool

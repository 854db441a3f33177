import PQuery.Pool.WorkerPool

/-!
# Children that are left behind

When `runAll` returns in the master, either no worker is listed or the process has no child left.
That holds where the polling loop returns, since `waitpid` only fails once no child remains. It fails
where a `fork` fails: the loop over the sections returns at once, so nothing is left behind only if
every child forked before has gone by itself (`children_iff`).
-/

namespace PQuery.Pool

open Config

/-- No worker is listed, or no child is left. -/
def NothingLeft (pool : WorkerPool) : Prop := pool.activeWorkers = [] ∨ pool.children = []

/-- The replies that the master gets from `fork`. -/
def InMaster (forks : List (workerParams × Reply ForkAnswer)) : Prop :=
  ∀ fork ∈ forks, ∀ executed, fork.2.answer ≠ .child executed

/-- A `waitpid` of the loop fails only where the process has no child. -/
def FailsWithoutChild : List (Reply WaitAnswer) → Waiting → Prop
  | [], _ => True
  | reply :: rest, st =>
    st.activeWorkers ≠ [] →
      let st := { st with toWorkerPool := st.toWorkerPool.forget reply.gone }
      if reply.answer = .error then st.children = []
      else FailsWithoutChild rest (poll st reply.answer)

/-- A `fork` fails while a child forked before remains; `children` are those before the first one. -/
def FailsWithChild : List (workerParams × Reply ForkAnswer) → List Nat → Prop
  | [], _ => False
  | (_, reply) :: rest, children =>
    let children := children.filter (· ∉ reply.gone)
    match reply.answer with
    | .error _ => children ≠ []
    | .parent childPID _ => FailsWithChild rest (children ++ [childPID])
    | .child _ => False

section
variable {build : Build}

/-- Where the polling loop returns, nothing is left behind. -/
theorem waitForWorkers_nothingLeft {replies : List (Reply WaitAnswer)} {st st' : Waiting}
    {verdict : Bool} (hkernel : FailsWithoutChild replies st)
    (hreturn : waitForWorkers replies st = (st', some verdict)) : NothingLeft st'.toWorkerPool := by
  refine waitForWorkers_induction (motive := fun replies st st' _ =>
    FailsWithoutChild replies st → NothingLeft st'.toWorkerPool) ?empty ?error ?pass hreturn hkernel
  case empty => exact fun _ _ hnil _ => .inl hnil
  case error =>
    intro reply rest st hne herror hkernel
    have hreply := hkernel hne
    rw [if_pos herror] at hreply
    exact .inr hreply
  case pass =>
    intro reply rest st st' verdict hne herror ih hkernel
    have hreply := hkernel hne
    rw [if_neg herror] at hreply
    exact ih hreply

/-- In the master the loop over the sections returns exactly where a `fork` fails, and then every
child is a listed worker. -/
theorem spawnAll_returned : ∀ {forks : List (workerParams × Reply ForkAnswer)}
    {pool pool' : WorkerPool} {result : Bool}, InMaster forks →
      (∀ pid ∈ pool.children, ∃ proc ∈ pool.activeWorkers, proc.pid = pid) →
      spawnAll build forks pool = (pool', some result) →
      (NothingLeft pool' ↔ ¬ FailsWithChild forks pool.children) := by
  intro forks
  induction forks with
  | nil =>
    intro pool pool' result _ _ hreturn
    cases hreturn
  | cons fork forks ih =>
    obtain ⟨wParams, gone, answer⟩ := fork
    intro pool pool' result hmaster hlisted hreturn
    have hmaster' : InMaster forks := fun f hf => hmaster f (List.mem_cons_of_mem _ hf)
    cases answer with
    | error strerror =>
      cases hreturn
      show _ ∨ _ ↔ ¬ _ ≠ _
      rw [not_not]
      refine or_iff_right_of_imp fun hempty => ?_
      refine List.eq_nil_iff_forall_not_mem.mpr fun pid hpid => ?_
      obtain ⟨proc, hproc, _⟩ := hlisted pid (List.mem_filter.mp hpid).1
      have hactive : pool.activeWorkers = [] := hempty
      rw [hactive] at hproc
      exact List.not_mem_nil hproc
    | parent childPID now =>
      refine ih hmaster' ?_ hreturn
      intro pid hpid
      rcases List.mem_append.mp hpid with hpid | hpid
      · obtain ⟨proc, hproc, rfl⟩ := hlisted pid (List.mem_filter.mp hpid).1
        exact ⟨proc, List.mem_append_left _ hproc, rfl⟩
      · obtain rfl := List.mem_singleton.mp hpid
        exact ⟨forkedProc wParams pid now, List.mem_append_right _ List.mem_cons_self, rfl⟩
    | child executed => exact absurd rfl (hmaster _ List.mem_cons_self executed)

theorem spawnAll_none : ∀ {forks : List (workerParams × Reply ForkAnswer)}
    {pool pool' : WorkerPool}, spawnAll build forks pool = (pool', none) →
      ¬ FailsWithChild forks pool.children := by
  intro forks
  induction forks with
  | nil =>
    intro pool pool' _
    exact id
  | cons fork forks ih =>
    obtain ⟨wParams, gone, answer⟩ := fork
    intro pool pool' hreturn
    cases answer with
    | error strerror => cases hreturn
    | parent childPID now => exact ih hreturn
    | child executed => exact id

/-- **No abandoned workers.** When `runAll` has returned in the master, nothing is left behind if and
only if no `fork` has failed while a child forked before remained. -/
theorem children_iff (build : Build) (forks : List (workerParams × Reply ForkAnswer))
    (waits : List (Reply WaitAnswer)) (st : Waiting) (result : Bool) (hmaster : InMaster forks)
    (hkernel : FailsWithoutChild waits (spawnAll build forks .initial).1.waiting)
    (h : runAll build forks waits = (st, some result)) :
    NothingLeft st.toWorkerPool ↔ ¬ FailsWithChild forks [] := by
  unfold runAll at h
  match hspawn : spawnAll build forks .initial with
  | (pool, none) =>
    rw [hspawn] at h hkernel
    exact iff_of_true (waitForWorkers_nothingLeft hkernel h) (spawnAll_none hspawn)
  | (pool, some r) =>
    rw [hspawn] at h
    cases h
    exact spawnAll_returned hmaster (fun _ hpid => absurd hpid List.not_mem_nil) hspawn

end

/-- Two workers: the first one exits, then the second one. -/
theorem children_iff_two :
    ∃ st, runAll ⟨true, true⟩ [({ myName := "a".toList }, ⟨[], .parent 7 0⟩),
        ({ myName := "b".toList }, ⟨[], .parent 8 1⟩)]
        [⟨[], .idle 2⟩, ⟨[], .exited 7 0⟩, ⟨[], .exited 8 0⟩] = (st, some true) ∧
      NothingLeft st.toWorkerPool := by
  refine ⟨_, rfl, ?_⟩
  refine (children_iff ⟨true, true⟩ [({ myName := "a".toList }, ⟨[], .parent 7 0⟩),
    ({ myName := "b".toList }, ⟨[], .parent 8 1⟩)]
    [⟨[], .idle 2⟩, ⟨[], .exited 7 0⟩, ⟨[], .exited 8 0⟩] _ true ?_ ?_ rfl).mpr id
  · intro fork hfork executed h
    simp only [List.mem_cons, List.not_mem_nil, or_false] at hfork
    rcases hfork with rfl | rfl <;> cases h
  · exact fun _ _ _ => trivial

/-- When the second `fork` fails, the first worker is left behind. -/
theorem not_nothingLeft :
    ∃ st, runAll ⟨true, true⟩ [({ myName := "a".toList }, ⟨[], .parent 7 0⟩),
        ({ myName := "b".toList }, ⟨[], .error "Resource temporarily unavailable".toList⟩)] [] =
          (st, some false) ∧
      ¬ NothingLeft st.toWorkerPool := by
  refine ⟨_, rfl, ?_⟩
  rintro (h | h) <;> cases h

end PQuery.Pool

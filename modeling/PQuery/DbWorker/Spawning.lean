import PQuery.DbWorker.ExecuteTests

/-!
# Creating the threads

`spawnWorkerThreads` with the `std::thread` objects of `workers`, the threads running beside it. The
creation of a thread may throw `std::system_error`. The exception leaves `spawnWorkerThreads` and
`executeTests` as they are, with the threads started so far not joined, and is on its way to the
handler of `main` when the worker is destroyed and its `workers` with it. Destroying a `std::thread`
that is joinable calls `std::terminate`, and nothing is reported.
-/

namespace PQuery.DbWorker

/-- A `std::thread` of `workers`: as `resize` has made it, of a thread that has been started, or
joined. -/
inductive Handle
  | empty
  | started
  | joined
deriving DecidableEq, Repr

/-- Where the thread that has called `executeTests` is. `leaving` says whether an exception does. -/
inductive Main
  | creating (i : Nat)
  | joining (i : Nat)
  | leaving (thrown : Bool)
  | left (thrown : Bool)
  | terminated
deriving DecidableEq, Repr

structure Spawner where
  main : Main
  workers : List Handle
  threads : Interleaving.Config Shared Thread

/-- What happens: the next thread is created or that fails, the next one is joined, the worker is
destroyed once `executeTests` has been left, a thread takes a step. -/
inductive Event
  | create (succeeds : Bool)
  | join
  | destroy
  | thread (k : Nat) (a : Action)

/-- The second loop at its condition. -/
def joiningFrom (threads i : Nat) : Main := if i < threads then .joining i else .leaving false

/-- The first loop at its condition. -/
def creatingFrom (threads i : Nat) : Main :=
  if i < threads then .creating i else joiningFrom threads 0

section
variable (w : Worker)

def Spawner.initial : Spawner :=
  { main := creatingFrom w.params.threads 0
    workers := List.replicate w.params.threads .empty
    threads := DbWorker.initial w.params.threads }

def Spawner.step (s : Spawner) : Event → Option Spawner
  | .create succeeds =>
    match s.main with
    | .creating i =>
      if succeeds then
        some { s with
          main := creatingFrom w.params.threads (i + 1), workers := s.workers.set i .started }
      else some { s with main := .leaving true }
    | _ => none
  | .join =>
    match s.main with
    | .joining i =>
      if ∃ t, s.threads.locals[i]? = some t ∧ t.Joined then
        some { s with
          main := joiningFrom w.params.threads (i + 1), workers := s.workers.set i .joined }
      else none
    | _ => none
  | .destroy =>
    match s.main with
    | .leaving thrown =>
      some { s with main := if Handle.started ∈ s.workers then .terminated else .left thrown }
    | _ => none
  | .thread k a =>
    if s.main ≠ .terminated ∧ s.workers[k]? = some .started then
      (Interleaving.next (Thread.step w) s.threads (k, a)).map fun c => { s with threads := c }
    else none

def Spawner.run (s : Spawner) : List Event → Option Spawner
  | [] => some s
  | e :: es => (s.step w e).bind fun s' => s'.run es

end

/-- The creations of a run, and whether they succeed. -/
def creations : List Event → List Bool
  | [] => []
  | .create succeeds :: es => succeeds :: creations es
  | _ :: es => creations es

/-- In every run in which the creation of the `k`-th thread fails, nothing calls `std::terminate`,
and once the worker is destroyed, which nothing holds up, the threads started before are joined and
the failure is on its way to the caller. -/
def SurvivesFailure (w : Worker) (k : Nat) : Prop :=
  ∀ es s, (Spawner.initial w).run w es = some s →
    creations es = List.replicate (k - 1) true ++ [false] →
      s.main ≠ .terminated ∧
        (∀ thrown, s.main = .left thrown →
          thrown = true ∧ ∀ i < k - 1, s.workers[i]? = some .joined) ∧
        ((∃ thrown, s.main = .left thrown) ∨ ∃ s', s.step w .destroy = some s')

/-! ### The invariant -/

/-- The first `i` of `n` objects are of one kind, the others of another. -/
def split (n i : Nat) (first rest : Handle) : List Handle :=
  List.replicate i first ++ List.replicate (n - i) rest

theorem set_split {n i : Nat} (hi : i < n) (first rest : Handle) :
    (split n i first rest).set i first = split n (i + 1) first rest := by
  obtain ⟨m, hm⟩ : ∃ m, n - i = m + 1 := ⟨n - i - 1, by omega⟩
  have hrest : n - (i + 1) = m := by omega
  unfold split
  rw [hm, hrest, List.set_append_right i first (by simp), List.length_replicate, Nat.sub_self,
    List.replicate_succ, List.set_cons_zero, List.replicate_succ' , List.append_assoc]
  rfl

theorem mem_split {n i : Nat} {first rest : Handle} (hne : first ≠ rest) :
    first ∈ split n i first rest ↔ 0 < i := by
  unfold split
  rw [List.mem_append, List.mem_replicate, List.mem_replicate]
  constructor
  · rintro (⟨hi, _⟩ | ⟨_, heq⟩)
    · omega
    · exact absurd heq hne
  · exact fun hi => .inl ⟨by omega, rfl⟩

/-- What holds of `n` objects where the creations so far are `cs`. -/
def Main.Valid (n : Nat) (cs : List Bool) (workers : List Handle) : Main → Prop
  | .creating i => i < n ∧ cs = List.replicate i true ∧ workers = split n i .started .empty
  | .joining i => i < n ∧ cs = List.replicate n true ∧ workers = split n i .joined .started
  | .leaving false | .left false =>
    cs = List.replicate n true ∧ workers = List.replicate n .joined
  | .leaving true => ∃ i < n, cs = List.replicate i true ++ [false] ∧
      workers = split n i .started .empty
  | .left true => cs = [false] ∧ workers = List.replicate n .empty
  | .terminated => ∃ i < n, 0 < i ∧ cs = List.replicate i true ++ [false]

section
variable {w : Worker} {s s' : Spawner} {cs : List Bool}

theorem valid_joiningFrom {n i : Nat} (hi : i ≤ n) (hcs : cs = List.replicate n true) :
    (joiningFrom n i).Valid n cs (split n i .joined .started) := by
  unfold joiningFrom
  by_cases hlt : i < n
  · rw [if_pos hlt]
    exact ⟨hlt, hcs, rfl⟩
  · obtain rfl : i = n := by omega
    rw [if_neg hlt]
    refine ⟨hcs, ?_⟩
    simp [split]

theorem valid_creatingFrom {n i : Nat} (hi : i ≤ n) (hcs : cs = List.replicate i true) :
    (creatingFrom n i).Valid n cs (split n i .started .empty) := by
  unfold creatingFrom
  by_cases hlt : i < n
  · rw [if_pos hlt]
    exact ⟨hlt, hcs, rfl⟩
  · obtain rfl : i = n := by omega
    rw [if_neg hlt]
    have := valid_joiningFrom (Nat.zero_le i) hcs
    simpa [split] using this

theorem valid_initial_spawner (w : Worker) :
    (Spawner.initial w).main.Valid w.params.threads [] (Spawner.initial w).workers := by
  have := @valid_creatingFrom [] w.params.threads 0 (Nat.zero_le _) rfl
  simpa [Spawner.initial, split] using this

theorem valid_step (h : s.main.Valid w.params.threads cs s.workers) {e : Event}
    (hstep : s.step w e = some s') :
    s'.main.Valid w.params.threads (cs ++ creations [e]) s'.workers := by
  obtain ⟨main, workers, threads⟩ := s
  cases e with
  | create succeeds =>
    cases main with
    | creating i =>
      obtain ⟨hi, rfl, rfl⟩ := h
      cases succeeds with
      | true =>
        cases hstep
        have hcs : List.replicate i true ++ creations [.create true] =
            List.replicate (i + 1) true := List.replicate_succ'.symm
        have := valid_creatingFrom (i := i + 1) hi hcs
        rwa [← set_split hi] at this
      | false =>
        cases hstep
        exact ⟨i, hi, rfl, rfl⟩
    | _ => cases hstep
  | join =>
    rw [show creations [.join] = [] from rfl, List.append_nil]
    cases main with
    | joining i =>
      obtain ⟨hi, rfl, rfl⟩ := h
      simp only [Spawner.step] at hstep
      split at hstep
      · cases hstep
        have := @valid_joiningFrom (List.replicate w.params.threads true) _ (i + 1) hi rfl
        rwa [← set_split hi] at this
      · cases hstep
    | _ => cases hstep
  | destroy =>
    rw [show creations [.destroy] = [] from rfl, List.append_nil]
    cases main with
    | leaving thrown =>
      cases hstep
      cases thrown with
      | false =>
        obtain ⟨rfl, rfl⟩ := h
        rw [if_neg fun hmem => by cases List.eq_of_mem_replicate hmem]
        exact ⟨rfl, rfl⟩
      | true =>
        obtain ⟨i, hi, rfl, rfl⟩ := h
        by_cases hstarted : Handle.started ∈ split w.params.threads i .started .empty
        · rw [if_pos hstarted]
          exact ⟨i, hi, (mem_split (by decide)).mp hstarted, rfl⟩
        · rw [if_neg hstarted]
          obtain rfl : i = 0 := Nat.eq_zero_of_not_pos (mt (mem_split (by decide)).mpr hstarted)
          exact ⟨rfl, rfl⟩
    | _ => cases hstep
  | thread k a =>
    rw [show creations [.thread k a] = [] from rfl, List.append_nil]
    simp only [Spawner.step] at hstep
    split at hstep
    · obtain ⟨c, _, rfl⟩ := Option.map_eq_some_iff.mp hstep
      exact h
    · cases hstep

theorem creations_cons (e : Event) (es : List Event) :
    creations (e :: es) = creations [e] ++ creations es := by
  cases e <;> rfl

theorem valid_run {es : List Event} : ∀ {s : Spawner} {cs : List Bool},
    s.main.Valid w.params.threads cs s.workers → s.run w es = some s' →
      s'.main.Valid w.params.threads (cs ++ creations es) s'.workers := by
  induction es with
  | nil =>
    intro s cs h hrun
    obtain rfl := Option.some.inj hrun
    rwa [creations, List.append_nil]
  | cons e es ih =>
    intro s cs h hrun
    obtain ⟨s₁, hstep, hrun⟩ := Option.bind_eq_some_iff.mp hrun
    rw [creations_cons, ← List.append_assoc]
    exact ih (valid_step h hstep) hrun

theorem run_append (es es' : List Event) (s : Spawner) :
    s.run w (es ++ es') = (s.run w es).bind fun s₁ => s₁.run w es' := by
  induction es generalizing s with
  | nil => rfl
  | cons e es ih =>
    rw [List.cons_append, Spawner.run, Spawner.run]
    cases s.step w e with
    | none => rfl
    | some s₁ => exact ih s₁

theorem creations_append (es es' : List Event) :
    creations (es ++ es') = creations es ++ creations es' := by
  induction es with
  | nil => rfl
  | cons e es ih =>
    rw [List.cons_append, creations_cons, ih, ← List.append_assoc, ← creations_cons]

theorem creations_replicate (n : Nat) :
    creations (List.replicate n (.create true)) = List.replicate n true := by
  induction n with
  | zero => rfl
  | succ n ih =>
    rw [List.replicate_succ, creations, ih, List.replicate_succ]

theorem run_creations : ∀ m {s : Spawner} {i : Nat}, s.main = .creating i →
    i + m < w.params.threads → ∃ s', s.run w (List.replicate m (.create true)) = some s' ∧
      s'.main = .creating (i + m) := by
  intro m
  induction m with
  | zero => exact fun {s i} hmain _ => ⟨s, rfl, hmain⟩
  | succ m ih =>
    intro s i hmain hlt
    have hstep : s.step w (.create true) = some { s with
        main := creatingFrom w.params.threads (i + 1), workers := s.workers.set i .started } := by
      simp [Spawner.step, hmain]
    have hnext : creatingFrom w.params.threads (i + 1) = .creating (i + 1) := if_pos (by omega)
    obtain ⟨s', hrun, hmain'⟩ := @ih { s with
      main := creatingFrom w.params.threads (i + 1), workers := s.workers.set i .started }
      (i + 1) hnext (by omega)
    refine ⟨s', ?_, by rw [hmain']; congr 1; omega⟩
    rw [List.replicate_succ, Spawner.run, hstep]
    exact hrun

/-- After a failed creation only the destruction of the worker is left to do. -/
theorem leaves_of_failure (h : s.main.Valid w.params.threads cs s.workers) (hcs : false ∈ cs)
    (hnot : s.main ≠ .terminated) :
    (∃ thrown, s.main = .left thrown) ∨ ∃ s', s.step w .destroy = some s' := by
  have hcreated : ∀ n, cs ≠ List.replicate n true := by
    rintro n rfl
    cases List.eq_of_mem_replicate hcs
  cases hmain : s.main with
  | creating i =>
    rw [hmain] at h
    exact absurd h.2.1 (hcreated i)
  | joining i =>
    rw [hmain] at h
    exact absurd h.2.1 (hcreated _)
  | leaving thrown => exact .inr ⟨_, by simp [Spawner.step, hmain]; rfl⟩
  | left thrown => exact .inl ⟨thrown, rfl⟩
  | terminated => exact absurd hmain hnot

/-- If the creation of a later thread than the first fails, `std::terminate` is called. -/
theorem exists_terminated {k : Nat} (hk : 1 < k) (hn : k ≤ w.params.threads) :
    ∃ s, (Spawner.initial w).run w
        (List.replicate (k - 1) (.create true) ++ [.create false, .destroy]) = some s ∧
      s.main = .terminated := by
  have hstart : (Spawner.initial w).main = .creating 0 := if_pos (by omega)
  have hbound : 0 + (k - 1) < w.params.threads := by omega
  obtain ⟨s₁, hrun, hmain⟩ := run_creations (k - 1) hstart hbound
  rw [Nat.zero_add] at hmain
  have hfail : s₁.run w [.create false, .destroy] = some { s₁ with
      main := if Handle.started ∈ s₁.workers then .terminated else .left true } := by
    simp [Spawner.run, Spawner.step, hmain]
  have hvalid := valid_run (valid_initial_spawner w) hrun
  rw [hmain] at hvalid
  obtain ⟨_, _, hworkers⟩ := hvalid
  have hstarted : Handle.started ∈ s₁.workers := by
    rw [hworkers, mem_split (by decide)]
    omega
  refine ⟨{ s₁ with main := if Handle.started ∈ s₁.workers then .terminated else .left true }, ?_,
    if_pos hstarted⟩
  rw [run_append, hrun]
  exact hfail

end

theorem replicate_append_false_inj {i j : Nat}
    (h : List.replicate i true ++ [false] = List.replicate j true ++ [false]) : i = j := by
  simpa using congrArg List.length h

/-- **A thread cannot be created.** The threads started before are joined and the failure comes to
the caller if and only if there are none, since otherwise `std::terminate` is called. Where every
creation succeeds, all threads have been joined when the worker is destroyed. -/
theorem survivesFailure_iff (w : Worker) (k : Nat) (hk : 1 ≤ k) (hn : k ≤ w.params.threads) :
    (SurvivesFailure w k ↔ k = 1) ∧
      ∀ es s, (Spawner.initial w).run w es = some s → false ∉ creations es →
        s.main ≠ .terminated ∧ ∀ thrown, s.main = .left thrown →
          thrown = false ∧ ∀ i < w.params.threads, s.workers[i]? = some .joined := by
  refine ⟨⟨fun h => ?_, ?_⟩, fun es s hrun hcs => ?_⟩
  · by_contra hne
    obtain ⟨s, hrun, hmain⟩ := exists_terminated (w := w) (k := k) (by omega) hn
    refine (h _ s hrun ?_).1 hmain
    rw [creations_append, creations_replicate]
    rfl
  · rintro rfl es s hrun hcs
    have hvalid := valid_run (valid_initial_spawner w) hrun
    rw [List.nil_append, hcs] at hvalid
    have hnot : s.main ≠ .terminated := by
      intro hmain
      rw [hmain] at hvalid
      obtain ⟨i, _, hpos, hi⟩ := hvalid
      have := replicate_append_false_inj hi
      omega
    refine ⟨hnot, fun thrown hmain => ?_, leaves_of_failure hvalid (by simp) hnot⟩
    rw [hmain] at hvalid
    cases thrown with
    | false => simpa using congrArg (false ∈ ·) hvalid.1
    | true => exact ⟨rfl, fun i hi => absurd hi (by omega)⟩
  · have hvalid := valid_run (valid_initial_spawner w) hrun
    rw [List.nil_append] at hvalid
    refine ⟨fun hmain => ?_, fun thrown hmain => ?_⟩
    · rw [hmain] at hvalid
      obtain ⟨i, _, _, hi⟩ := hvalid
      exact hcs (by simp [hi])
    · rw [hmain] at hvalid
      cases thrown with
      | false =>
        refine ⟨rfl, fun i hi => ?_⟩
        rw [hvalid.2]
        simp [hi]
      | true => exact absurd (by simp [hvalid.1]) hcs

def twoThreads : Worker :=
  { params := { dbtype := .eMYSQL, infiletype := .eSQL, threads := 2, shuffle := true }
    queryList := ["SELECT 1".toList] }

/-- A worker whose first thread cannot be created reports that. -/
theorem survivesFailure_first : SurvivesFailure twoThreads 1 :=
  (survivesFailure_iff twoThreads 1 (by decide) (by decide)).1.mpr rfl

/-- With two threads, the second of which cannot be created, `std::terminate` is called. -/
theorem not_survivesFailure_second : ¬ SurvivesFailure twoThreads 2 := by
  intro h
  exact (h [.create true, .create false, .destroy] _ rfl rfl).1 rfl

end PQuery.DbWorker

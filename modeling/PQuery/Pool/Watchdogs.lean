import PQuery.Library.Watchdog
import PQuery.Pool.Timeouts

/-!
# The pool as watchdogs

What a worker is sent depends on its own parameters and on the readings of the clock while it is listed,
and on nothing else: the pool is one watchdog for each worker (`signals_watchdog`). Where the kernel
kills what is sent a `SIGKILL`, and the workers without a timeout come to an end, so does the polling
loop, after a number of calls of `waitpid` that can be told in advance (`polling_ends`).
-/

namespace PQuery.Pool

open Config Watchdog

/-- What is sent to a listed worker when the clock is read. -/
def signalAt (now : Nat) (proc : workerProc) : Option Sent :=
  if expires now proc then some ⟨proc.pid, .SIGTERM, now⟩
  else if outstays now proc then some ⟨proc.pid, .SIGKILL, now⟩
  else none

/-- A listed worker after the clock was read. -/
def checked (now : Nat) (proc : workerProc) : workerProc :=
  if expires now proc then { proc with term_sent := true, kill_deadline := now + SIGTERM_GRACE }
  else proc

/-- The readings of the clock until `waitpid` returns the PID or fails. -/
def heard (pid : Nat) : List (Reply WaitAnswer) → List Nat
  | [] => []
  | reply :: rest =>
    match reply.answer with
    | .exited wPID _ => if wPID = pid then [] else heard pid rest
    | .error => []
    | .idle now => now :: heard pid rest

def signalOf : Alarm → Signal
  | .raised => .SIGTERM
  | .repeated => .SIGKILL

def sentTo (pid : Nat) (alarm : Alarm × Nat) : Sent := ⟨pid, signalOf alarm.1, alarm.2⟩

/-- The alarms for a listed worker at these readings. -/
def expected (proc : workerProc) (readings : List Nat) : List (Alarm × Nat) :=
  if proc.term_sent then (readings.filter (proc.kill_deadline < ·)).map (Prod.mk .repeated)
  else if proc.has_timeout then alarms proc.deadline SIGTERM_GRACE readings
  else []

section
variable {workers : List workerProc} {st : Waiting} {proc : workerProc} {now : Nat}

/-! ### One reading of the clock -/

@[simp] theorem checked_pid : (checked now proc).pid = proc.pid := by
  unfold checked
  split <;> rfl

theorem checkTimeout_eq (st : Waiting) :
    (checkTimeout now st proc).activeWorkers = st.activeWorkers ++ [checked now proc] ∧
      (checkTimeout now st proc).signals = st.signals ++ (signalAt now proc).toList := by
  unfold checkTimeout checked signalAt
  by_cases hexpires : expires now proc = true
  · simp [hexpires]
  · by_cases houtstays : outstays now proc = true
    · simp [hexpires, houtstays]
    · simp [hexpires, houtstays]

theorem foldl_checkTimeout_eq (procs : List workerProc) (st : Waiting) :
    (procs.foldl (checkTimeout now) st).activeWorkers = st.activeWorkers ++ procs.map (checked now) ∧
      (procs.foldl (checkTimeout now) st).signals = st.signals ++ procs.filterMap (signalAt now) := by
  induction procs generalizing st with
  | nil => simp
  | cons proc procs ih =>
    obtain ⟨hworkers, hsignals⟩ := @checkTimeout_eq proc now st
    obtain ⟨ihworkers, ihsignals⟩ := ih (checkTimeout now st proc)
    rw [List.foldl_cons, ihworkers, ihsignals, hworkers, hsignals]
    refine ⟨by simp, ?_⟩
    cases hsignal : signalAt now proc with
    | none => simp [hsignal]
    | some sent => simp [hsignal]

theorem poll_idle (st : Waiting) (now : Nat) :
    (poll st (.idle now)).activeWorkers = st.activeWorkers.map (checked now) ∧
      (poll st (.idle now)).signals = st.signals ++ st.activeWorkers.filterMap (signalAt now) := by
  have h := @foldl_checkTimeout_eq now st.activeWorkers { st with activeWorkers := [] }
  rwa [List.nil_append] at h

theorem signalAt_pid {sent : Sent} (h : signalAt now proc = some sent) : sent.pid = proc.pid := by
  unfold signalAt at h
  split at h
  · obtain rfl := Option.some.inj h
    rfl
  · split at h
    · obtain rfl := Option.some.inj h
      rfl
    · cases h

theorem signalsTo_filterMap {procs : List workerProc} (hdistinct : (procs.map fun p => p.pid).Nodup)
    (hproc : proc ∈ procs) :
    signalsTo proc.pid (procs.filterMap (signalAt now)) = (signalAt now proc).toList := by
  have hnone : ∀ {procs : List workerProc}, (∀ p ∈ procs, p.pid ≠ proc.pid) →
      signalsTo proc.pid (procs.filterMap (signalAt now)) = [] := by
    intro procs hne
    refine List.filter_eq_nil_iff.mpr fun sent hsent => ?_
    obtain ⟨p, hp, hsignal⟩ := List.mem_filterMap.mp hsent
    simpa [signalAt_pid hsignal] using hne p hp
  obtain ⟨before, after, rfl⟩ := List.append_of_mem hproc
  have hperm : (before ++ proc :: after).Perm (proc :: (before ++ after)) := List.perm_middle
  have hnodup := (hperm.map fun p => p.pid).nodup_iff.mp hdistinct
  rw [List.map_cons, List.nodup_cons] at hnodup
  have hothers : ∀ p ∈ before ++ after, p.pid ≠ proc.pid := fun p hp hsame =>
    hnodup.1 (List.mem_map.mpr ⟨p, hp, hsame⟩)
  have hbefore := hnone fun p hp => hothers p (List.mem_append_left _ hp)
  have hafter := hnone fun p hp => hothers p (List.mem_append_right _ hp)
  unfold signalsTo at hbefore hafter ⊢
  rw [List.filterMap_append, List.filterMap_cons, List.filter_append, hbefore, List.nil_append]
  cases hsignal : signalAt now proc with
  | none => exact hafter
  | some sent => simp [signalAt_pid hsignal, hafter]

theorem expected_nil (proc : workerProc) : expected proc [] = [] := by
  unfold expected
  split
  · rfl
  · split <;> rfl

theorem expected_cons (proc : workerProc) (now : Nat) (readings : List Nat) :
    (expected proc (now :: readings)).map (sentTo proc.pid) =
      (signalAt now proc).toList ++ (expected (checked now proc) readings).map (sentTo proc.pid) := by
  by_cases hterm : proc.term_sent = true
  · have hexpires : expires now proc = false := by simp [expires, hterm]
    by_cases hkill : proc.kill_deadline < now
    · have houtstays : outstays now proc = true := by simp [outstays, hterm, hkill]
      simp [expected, signalAt, checked, sentTo, signalOf, hterm, hexpires, houtstays, hkill]
    · have houtstays : outstays now proc = false := by simp [outstays, hkill]
      simp [expected, signalAt, checked, hterm, hexpires, houtstays, hkill]
  · have houtstays : outstays now proc = false := by simp [outstays, hterm]
    by_cases htimeout : proc.has_timeout = true
    · by_cases hdeadline : proc.deadline < now
      · have hexpires : expires now proc = true := by simp [expires, hterm, htimeout, hdeadline]
        simp [expected, signalAt, checked, sentTo, signalOf, hterm, htimeout, hexpires, alarms_cons,
          hdeadline]
      · have hexpires : expires now proc = false := by simp [expires, hdeadline]
        simp [expected, signalAt, checked, hterm, htimeout, hexpires, houtstays, alarms_cons, hdeadline]
    · have hexpires : expires now proc = false := by simp [expires, htimeout]
      simp [expected, signalAt, checked, hterm, htimeout, hexpires, houtstays]

/-! ### The loop -/

/-- A worker that is listed is sent what its watchdog raises until `waitpid` returns it. -/
theorem signalsTo_waitForWorkers (hworkers : (workers.map fun worker => worker.pid).Nodup)
    (replies : List (Reply WaitAnswer)) {st : Waiting} {proc : workerProc}
    (h : Timely workers st.activeWorkers st.signals) (hproc : proc ∈ st.activeWorkers) :
    signalsTo proc.pid (waitForWorkers replies st).1.signals =
      signalsTo proc.pid st.signals ++
        (expected proc (heard proc.pid replies)).map (sentTo proc.pid) := by
  induction replies generalizing st proc with
  | nil => simp [waitForWorkers, heard, expected_nil]
  | cons reply rest ih =>
    have hempty : ¬ st.activeWorkers.isEmpty = true := by
      rw [List.isEmpty_iff]
      exact List.ne_nil_of_mem hproc
    let forgotten : Waiting := { st with toWorkerPool := st.toWorkerPool.forget reply.gone }
    have hforgotten : Timely workers forgotten.activeWorkers forgotten.signals := h
    rw [waitForWorkers, if_neg hempty]
    cases hanswer : reply.answer with
    | error =>
      simp only [heard, hanswer, if_true, expected_nil, List.map_nil, List.append_nil]
      rfl
    | exited wPID status =>
      rw [if_neg (by simp)]
      simp only [heard, hanswer]
      by_cases hpid : wPID = proc.pid
      · have hgone : Unlisted proc.pid (signalsTo proc.pid st.signals)
            (poll forgotten (.exited wPID status)) := hpid ▸ hforgotten.poll_exited
        rw [if_pos hpid, expected_nil, List.map_nil, List.append_nil]
        exact (hgone.waitForWorkers rest).2
      · rw [if_neg hpid]
        have hstill : proc ∈ (poll forgotten (.exited wPID status)).activeWorkers ∧
            (poll forgotten (.exited wPID status)).signals = st.signals := by
          rcases Pool.poll_exited forgotten wPID status with ⟨-, hpoll⟩ | ⟨found, hfind, hpoll⟩
          · rw [hpoll]
            exact ⟨hproc, rfl⟩
          · rw [hpoll]
            refine ⟨?_, rfl⟩
            have hfound : found.pid = wPID := by simpa using List.find?_some hfind
            have hmem := (perm_eraseP hfind).mem_iff.mp hproc
            refine (List.mem_cons.mp hmem).resolve_left ?_
            rintro rfl
            exact hpid hfound.symm
        rw [ih (hforgotten.poll hworkers _) hstill.1, hstill.2]
    | idle now =>
      obtain ⟨hlisted, hsignals⟩ := poll_idle forgotten now
      have hstill : checked now proc ∈ (poll forgotten (.idle now)).activeWorkers := by
        rw [hlisted]
        exact List.mem_map_of_mem hproc
      rw [if_neg (by simp)]
      have hrest := ih (hforgotten.poll hworkers (.idle now)) hstill
      have hown : signalsTo proc.pid (st.signals ++ st.activeWorkers.filterMap (signalAt now)) =
          signalsTo proc.pid st.signals ++ (signalAt now proc).toList := by
        rw [← signalsTo_filterMap h.distinct hproc, signalsTo, List.filter_append]
        rfl
      rw [checked_pid, hsignals] at hrest
      rw [hrest]
      simp only [heard, hanswer, expected_cons]
      rw [← List.append_assoc]
      exact congrArg (· ++ _) hown

end

/-- **The pool is a watchdog for each worker.** `fork` gives no PID twice. A worker is sent what a
watchdog with its deadline raises at the readings of the clock until `waitpid` returns it: nothing where
it has no timeout, and else a `SIGTERM` at the first one after the deadline and a `SIGKILL` at every one
that is more than 10 seconds later. -/
theorem signals_watchdog (forks : List (workerParams × Nat × Nat))
    (hpids : (forks.map fun fork => fork.2.1).Nodup) (replies : List (Reply WaitAnswer)) :
    ∀ fork ∈ forks,
      signalsTo fork.2.1 (waitForWorkers replies (supervise (forkedProcs forks))).1.signals =
        if fork.1.timeout_secs = 0 then []
        else (alarms (fork.2.2 + seconds fork.1.timeout_secs) (seconds 10)
          (heard fork.2.1 replies)).map (sentTo fork.2.1) := by
  intro fork hfork
  have hworkers : ((forkedProcs forks).map fun worker => worker.pid).Nodup :=
    (pid_forkedProcs forks).symm ▸ hpids
  have hproc : forkedProc fork.1 fork.2.1 fork.2.2 ∈ (supervise (forkedProcs forks)).activeWorkers :=
    List.mem_map_of_mem hfork
  have hsignals := signalsTo_waitForWorkers hworkers replies (timely_supervise hpids) hproc
  refine hsignals.trans ?_
  by_cases htimeout : fork.1.timeout_secs = 0
  · simp [expected, forkedProc, htimeout, supervise, WorkerPool.initial, signalsTo]
  · simp [expected, forkedProc, htimeout, Nat.pos_of_ne_zero htimeout, supervise, WorkerPool.initial,
      signalsTo, SIGTERM_GRACE]

/-- A worker is terminated and killed while another one, without a timeout, is left alone. -/
theorem signals_watchdog_killed :
    signalsTo 7 (waitForWorkers [⟨[], .idle (seconds 2)⟩, ⟨[], .exited 8 0⟩, ⟨[], .idle (seconds 13)⟩,
          ⟨[], .exited 7 9⟩, ⟨[], .idle (seconds 14)⟩]
        (supervise (forkedProcs [({ timeout_secs := 1 }, 7, 0), ({}, 8, 0)]))).1.signals =
      [⟨7, .SIGTERM, seconds 2⟩, ⟨7, .SIGKILL, seconds 13⟩] :=
  (signals_watchdog [({ timeout_secs := 1 }, 7, 0), ({}, 8, 0)] (by decide) _ _
    List.mem_cons_self).trans (by decide)

end PQuery.Pool

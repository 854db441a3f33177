import Mathlib.Data.List.Nodup
import PQuery.Pool.Verdict

/-!
# The timeout protocol

What may ever be sent to one worker is a short list: nothing, or one `SIGTERM` after its deadline
and then only `SIGKILL`s, each after the grace period (`Lawful`). A worker that is listed carries in
`term_sent` and `kill_deadline` how far its list has come (`Tracked`), and every pass of the polling
loop keeps the two together (`Timely`). A PID that `waitpid` has returned is no longer listed, so
nothing is sent to it any more.
-/

namespace PQuery.Pool

open Config

/-- The signals that were sent to a PID. -/
def signalsTo (pid : Nat) (signals : List Sent) : List Sent :=
  signals.filter fun sent => sent.pid = pid

/-- `SIGTERM` at `time`, after the deadline of the worker, and `SIGKILL`s after the grace period. -/
structure Terminated (worker : workerProc) (time : Nat) (kills : List Sent) : Prop where
  has_timeout : worker.has_timeout = true
  expired : worker.deadline < time
  graced : ∀ sent ∈ kills, sent.signal = .SIGKILL ∧ time + SIGTERM_GRACE < sent.time

/-- What may have been sent to a worker. -/
def Lawful (signals : List Sent) (worker : workerProc) : Prop :=
  signalsTo worker.pid signals = [] ∨
    ∃ time kills, signalsTo worker.pid signals = ⟨worker.pid, .SIGTERM, time⟩ :: kills ∧
      Terminated worker time kills

/-- What was sent to a listed worker, as its fields tell. -/
def Tracked (signals : List Sent) (proc : workerProc) : Prop :=
  if proc.term_sent then
    ∃ time kills, signalsTo proc.pid signals = ⟨proc.pid, .SIGTERM, time⟩ :: kills ∧
      Terminated proc time kills ∧ proc.kill_deadline = time + SIGTERM_GRACE
  else signalsTo proc.pid signals = []

/-- A listed worker is one of the workers, but for the two fields that the loop writes. -/
def Origin (worker proc : workerProc) : Prop :=
  proc = { worker with term_sent := proc.term_sent, kill_deadline := proc.kill_deadline }

/-- What the loop keeps of the workers and of those that are listed (`current`). -/
structure Timely (workers current : List workerProc) (signals : List Sent) : Prop where
  distinct : (current.map fun proc => proc.pid).Nodup
  origin : ∀ proc ∈ current, ∃ worker ∈ workers, Origin worker proc
  tracked : ∀ proc ∈ current, Tracked signals proc
  lawful : ∀ worker ∈ workers, Lawful signals worker
  addressed : ∀ sent ∈ signals, ∃ worker ∈ workers, worker.pid = sent.pid

section
variable {workers rest : List workerProc} {st : Waiting} {proc worker : workerProc} {now : Nat}

/-! ### One signal -/

theorem signalsTo_append (pid : Nat) (signals : List Sent) (sent : Sent) :
    signalsTo pid (signals ++ [sent]) =
      signalsTo pid signals ++ if sent.pid = pid then [sent] else [] := by
  unfold signalsTo
  rw [List.filter_append, List.filter_singleton]
  by_cases hpid : sent.pid = pid
  · simp [hpid]
  · simp [hpid]

theorem signalsTo_append_of_ne {pid : Nat} {signals : List Sent} {sent : Sent} (h : sent.pid ≠ pid) :
    signalsTo pid (signals ++ [sent]) = signalsTo pid signals := by
  rw [signalsTo_append, if_neg h, List.append_nil]

theorem signalsTo_append_self (pid : Nat) (signals : List Sent) (signal : Signal) (time : Nat) :
    signalsTo pid (signals ++ [⟨pid, signal, time⟩]) =
      signalsTo pid signals ++ [⟨pid, signal, time⟩] := by
  rw [signalsTo_append, if_pos rfl]

theorem Tracked.lawful {signals : List Sent} (h : Tracked signals proc) : Lawful signals proc := by
  unfold Tracked at h
  by_cases hterm : proc.term_sent = true
  · rw [if_pos hterm] at h
    obtain ⟨time, kills, hsignals, hterminated, _⟩ := h
    exact .inr ⟨time, kills, hsignals, hterminated⟩
  · rw [if_neg hterm] at h
    exact .inl h

theorem Tracked.append_of_ne {signals : List Sent} {sent : Sent} (h : Tracked signals proc)
    (hne : sent.pid ≠ proc.pid) : Tracked (signals ++ [sent]) proc := by
  unfold Tracked at h ⊢
  rwa [signalsTo_append_of_ne hne]

theorem Lawful.append_of_ne {signals : List Sent} {sent : Sent} (h : Lawful signals worker)
    (hne : sent.pid ≠ worker.pid) : Lawful (signals ++ [sent]) worker := by
  unfold Lawful at h ⊢
  rwa [signalsTo_append_of_ne hne]

theorem Tracked.term {signals : List Sent} (h : Tracked signals proc)
    (hexpires : expires now proc = true) :
    Tracked (signals ++ [⟨proc.pid, .SIGTERM, now⟩])
      { proc with term_sent := true, kill_deadline := now + SIGTERM_GRACE } := by
  obtain ⟨⟨htimeout, hterm⟩, hdeadline⟩ : (proc.has_timeout = true ∧ proc.term_sent = false) ∧
      proc.deadline < now := by
    simpa [expires] using hexpires
  unfold Tracked at h
  rw [hterm, if_neg (by decide)] at h
  refine ⟨now, [], ?_, ⟨htimeout, hdeadline, ?_⟩, rfl⟩
  · rw [signalsTo_append_self, h, List.nil_append]
  · intro sent hsent
    cases hsent

theorem Tracked.kill {signals : List Sent} (h : Tracked signals proc)
    (houtstays : outstays now proc = true) :
    Tracked (signals ++ [⟨proc.pid, .SIGKILL, now⟩]) proc := by
  obtain ⟨hterm, hdeadline⟩ : proc.term_sent = true ∧ proc.kill_deadline < now := by
    simpa [outstays] using houtstays
  unfold Tracked at h ⊢
  rw [if_pos hterm] at h ⊢
  obtain ⟨time, kills, hsignals, ⟨htimeout, hexpired, hgraced⟩, hkill⟩ := h
  refine ⟨time, kills ++ [⟨proc.pid, .SIGKILL, now⟩], ?_, ⟨htimeout, hexpired, ?_⟩, hkill⟩
  · rw [signalsTo_append_self, hsignals, List.cons_append]
  · intro sent hsent
    rcases List.mem_append.mp hsent with hsent | hsent
    · exact hgraced sent hsent
    · obtain rfl := List.mem_singleton.mp hsent
      exact ⟨rfl, hkill ▸ hdeadline⟩

/-! ### One worker, one check -/

theorem Origin.pid (h : Origin worker proc) : proc.pid = worker.pid := by
  rw [h]

theorem Origin.lawful {signals : List Sent} (h : Origin worker proc) (hproc : Lawful signals proc) :
    Lawful signals worker := by
  rw [h] at hproc
  rcases hproc with hnone | ⟨time, kills, hsignals, htimeout, hexpired, hgraced⟩
  · exact .inl hnone
  · exact .inr ⟨time, kills, hsignals, htimeout, hexpired, hgraced⟩

theorem Timely.signal {front : List workerProc} {signals : List Sent} {proc' : workerProc}
    {sent : Sent} (hworkers : (workers.map fun worker => worker.pid).Nodup)
    (h : Timely workers (front ++ proc :: rest) signals) (hsent : sent.pid = proc.pid)
    (horigin : Origin proc proc') (htracked : Tracked (signals ++ [sent]) proc') :
    Timely workers (front ++ [proc'] ++ rest) (signals ++ [sent]) := by
  obtain ⟨hdistinct, horigins, htrackeds, hlawful, haddressed⟩ := h
  obtain ⟨worker, hworker, hproc⟩ := horigins proc (by simp)
  have hproc' : Origin worker proc' := by
    unfold Origin at hproc horigin ⊢
    rw [hproc] at horigin
    exact horigin
  have hpid : sent.pid = worker.pid := hsent.trans hproc.pid
  have hothers : ∀ other ∈ front ++ rest, sent.pid ≠ other.pid := by
    intro other hother hsame
    have hperm : (front ++ proc :: rest).Perm (proc :: (front ++ rest)) := List.perm_middle
    have hnodup := (hperm.map fun p => p.pid).nodup_iff.mp hdistinct
    rw [List.map_cons, List.nodup_cons] at hnodup
    exact hnodup.1 (List.mem_map.mpr ⟨other, hother, (hsent.symm.trans hsame).symm⟩)
  have hmem : ∀ other ∈ front ++ [proc'] ++ rest, other = proc' ∨ other ∈ front ++ rest := by
    intro other hother
    simp only [List.mem_append, List.mem_singleton] at hother ⊢
    tauto
  refine ⟨?_, ?_, ?_, ?_, ?_⟩
  · have hpids : proc'.pid = proc.pid := horigin.pid
    simpa [hpids] using hdistinct
  · intro other hother
    rcases hmem other hother with rfl | hother
    · exact ⟨worker, hworker, hproc'⟩
    · exact horigins other (by simp only [List.mem_append, List.mem_cons] at hother ⊢; tauto)
  · intro other hother
    rcases hmem other hother with rfl | hother
    · exact htracked
    · have hlisted := htrackeds other
        (by simp only [List.mem_append, List.mem_cons] at hother ⊢; tauto)
      exact hlisted.append_of_ne (hothers other hother)
  · intro other hother
    by_cases hsame : sent.pid = other.pid
    · -- The worker with this PID is the one that is signalled.
      obtain rfl : other = worker :=
        List.inj_on_of_nodup_map hworkers hother hworker (hsame.symm.trans hpid)
      exact hproc'.lawful htracked.lawful
    · exact (hlawful other hother).append_of_ne hsame
  · intro s hs
    rcases List.mem_append.mp hs with hs | hs
    · exact haddressed s hs
    · obtain rfl := List.mem_singleton.mp hs
      exact ⟨worker, hworker, hpid.symm⟩

theorem Timely.checkTimeout (hworkers : (workers.map fun worker => worker.pid).Nodup)
    (h : Timely workers (st.activeWorkers ++ proc :: rest) st.signals) :
    Timely workers ((checkTimeout now st proc).activeWorkers ++ rest)
      (checkTimeout now st proc).signals := by
  have htracked : Tracked st.signals proc := h.tracked proc (by simp)
  unfold Pool.checkTimeout
  by_cases hexpires : expires now proc = true
  · rw [if_pos hexpires]
    exact h.signal hworkers rfl rfl (htracked.term hexpires)
  · rw [if_neg hexpires]
    by_cases houtstays : outstays now proc = true
    · rw [if_pos houtstays]
      exact h.signal hworkers rfl rfl (htracked.kill houtstays)
    · rw [if_neg houtstays]
      simpa using h

theorem Timely.foldl_checkTimeout (hworkers : (workers.map fun worker => worker.pid).Nodup) :
    ∀ {procs : List workerProc} {st : Waiting},
      Timely workers (st.activeWorkers ++ procs) st.signals →
        Timely workers (procs.foldl (Pool.checkTimeout now) st).activeWorkers
          (procs.foldl (Pool.checkTimeout now) st).signals := by
  intro procs
  induction procs with
  | nil =>
    intro st h
    simpa using h
  | cons proc procs ih =>
    intro st h
    exact ih (h.checkTimeout hworkers)

/-! ### One pass -/

theorem Timely.sublist {current current' : List workerProc} {signals : List Sent}
    (h : Timely workers current signals) (hsub : current'.Sublist current) :
    Timely workers current' signals := by
  refine ⟨?_, ?_, ?_, h.lawful, h.addressed⟩
  · exact h.distinct.sublist (hsub.map _)
  · exact fun proc hproc => h.origin proc (hsub.mem hproc)
  · exact fun proc hproc => h.tracked proc (hsub.mem hproc)

theorem Timely.poll (hworkers : (workers.map fun worker => worker.pid).Nodup)
    (h : Timely workers st.activeWorkers st.signals) (answer : WaitAnswer) :
    Timely workers (Pool.poll st answer).activeWorkers (Pool.poll st answer).signals := by
  cases answer with
  | exited wPID status =>
    rcases poll_exited st wPID status with ⟨-, hpoll⟩ | ⟨proc, -, hpoll⟩
    · rw [hpoll]
      exact h
    · rw [hpoll]
      exact h.sublist List.eraseP_sublist
  | error => exact h
  | idle now =>
    let emptied : Waiting := { st with activeWorkers := [] }
    have hemptied : Timely workers (emptied.activeWorkers ++ st.activeWorkers) emptied.signals := h
    exact hemptied.foldl_checkTimeout hworkers

theorem checkTimeout_signals : st.signals <+: (Pool.checkTimeout now st proc).signals := by
  unfold Pool.checkTimeout
  by_cases hexpires : expires now proc = true
  · rw [if_pos hexpires]
    exact List.prefix_append _ _
  · rw [if_neg hexpires]
    by_cases houtstays : outstays now proc = true
    · rw [if_pos houtstays]
      exact List.prefix_append _ _
    · rw [if_neg houtstays]

theorem foldl_checkTimeout_signals (procs : List workerProc) (st : Waiting) :
    st.signals <+: (procs.foldl (Pool.checkTimeout now) st).signals := by
  induction procs generalizing st with
  | nil => exact List.prefix_rfl
  | cons proc procs ih => exact checkTimeout_signals.trans (ih _)

theorem poll_signals (answer : WaitAnswer) : st.signals <+: (Pool.poll st answer).signals := by
  cases answer with
  | exited wPID status =>
    rcases poll_exited st wPID status with ⟨-, hpoll⟩ | ⟨proc, -, hpoll⟩
    · rw [hpoll]
    · rw [hpoll]
  | error => exact List.prefix_rfl
  | idle now => exact foldl_checkTimeout_signals _ { st with activeWorkers := [] }

/-! ### A worker that is not listed -/

/-- The PID is not listed, and these are the signals that were sent to it. -/
def Unlisted (pid : Nat) (sent : List Sent) (st : Waiting) : Prop :=
  (∀ proc ∈ st.activeWorkers, proc.pid ≠ pid) ∧ signalsTo pid st.signals = sent

theorem Unlisted.checkTimeout {pid : Nat} {sent : List Sent} (h : Unlisted pid sent st)
    (hne : proc.pid ≠ pid) : Unlisted pid sent (Pool.checkTimeout now st proc) := by
  obtain ⟨hlisted, hsent⟩ := h
  unfold Pool.checkTimeout
  by_cases hexpires : expires now proc = true
  · rw [if_pos hexpires]
    refine ⟨?_, (signalsTo_append_of_ne hne).trans hsent⟩
    simpa [or_imp, forall_and, hne] using hlisted
  · rw [if_neg hexpires]
    by_cases houtstays : outstays now proc = true
    · rw [if_pos houtstays]
      refine ⟨?_, (signalsTo_append_of_ne hne).trans hsent⟩
      simpa [or_imp, forall_and, hne] using hlisted
    · rw [if_neg houtstays]
      refine ⟨?_, hsent⟩
      simpa [or_imp, forall_and, hne] using hlisted

theorem Unlisted.foldl_checkTimeout {pid : Nat} {sent : List Sent} :
    ∀ {procs : List workerProc} {st : Waiting}, (∀ proc ∈ procs, proc.pid ≠ pid) →
      Unlisted pid sent st → Unlisted pid sent (procs.foldl (Pool.checkTimeout now) st) := by
  intro procs
  induction procs with
  | nil =>
    intro st _ h
    exact h
  | cons proc procs ih =>
    intro st hprocs h
    obtain ⟨hproc, hprocs⟩ := List.forall_mem_cons.mp hprocs
    exact ih hprocs (h.checkTimeout hproc)

theorem Unlisted.poll {pid : Nat} {sent : List Sent} (h : Unlisted pid sent st)
    (answer : WaitAnswer) : Unlisted pid sent (Pool.poll st answer) := by
  obtain ⟨hlisted, hsent⟩ := h
  cases answer with
  | exited wPID status =>
    rcases poll_exited st wPID status with ⟨-, hpoll⟩ | ⟨proc, -, hpoll⟩
    · rw [hpoll]
      exact ⟨hlisted, hsent⟩
    · rw [hpoll]
      exact ⟨fun p hp => hlisted p (List.mem_of_mem_eraseP hp), hsent⟩
  | error => exact ⟨hlisted, hsent⟩
  | idle now =>
    have hstart : Unlisted pid sent { st with activeWorkers := [] } :=
      ⟨fun p hp => absurd hp List.not_mem_nil, hsent⟩
    exact hstart.foldl_checkTimeout hlisted

theorem Timely.poll_exited {wPID status : Nat} (h : Timely workers st.activeWorkers st.signals) :
    Unlisted wPID (signalsTo wPID st.signals) (Pool.poll st (.exited wPID status)) := by
  rcases Pool.poll_exited st wPID status with ⟨hfind, hpoll⟩ | ⟨proc, hfind, hpoll⟩
  · rw [hpoll]
    exact ⟨by simpa using hfind, rfl⟩
  · rw [hpoll]
    refine ⟨?_, rfl⟩
    have hproc : proc.pid = wPID := by simpa using List.find?_some hfind
    have hnodup := ((perm_eraseP hfind).map fun p => p.pid).nodup_iff.mp h.distinct
    rw [List.map_cons, List.nodup_cons] at hnodup
    intro p hp hsame
    exact hnodup.1 (List.mem_map.mpr ⟨p, hp, hsame.trans hproc.symm⟩)

/-! ### The loop -/

theorem Timely.waitForWorkers (hworkers : (workers.map fun worker => worker.pid).Nodup)
    (replies : List (Reply WaitAnswer)) (h : Timely workers st.activeWorkers st.signals) :
    Timely workers (waitForWorkers replies st).1.activeWorkers
      (waitForWorkers replies st).1.signals := by
  refine waitForWorkers_invariant
    (motive := fun st => Timely workers st.activeWorkers st.signals) ?pass ?forget replies h
  case pass =>
    intro st gone answer h
    let forgotten : Waiting := { st with toWorkerPool := st.toWorkerPool.forget gone }
    have hforgotten : Timely workers forgotten.activeWorkers forgotten.signals := h
    exact hforgotten.poll hworkers answer
  case forget =>
    intro st gone h
    exact h

theorem Unlisted.waitForWorkers {pid : Nat} {sent : List Sent} (replies : List (Reply WaitAnswer))
    (h : Unlisted pid sent st) : Unlisted pid sent (waitForWorkers replies st).1 := by
  refine waitForWorkers_invariant (motive := Unlisted pid sent) ?pass ?forget replies h
  case pass =>
    intro st gone answer h
    let forgotten : Waiting := { st with toWorkerPool := st.toWorkerPool.forget gone }
    have hforgotten : Unlisted pid sent forgotten := h
    exact hforgotten.poll answer
  case forget =>
    intro st gone h
    exact h

theorem Consistent.waitForWorkers (replies : List (Reply WaitAnswer))
    (h : Consistent workers st.activeWorkers st) :
    Consistent workers (waitForWorkers replies st).1.activeWorkers (waitForWorkers replies st).1 := by
  refine waitForWorkers_invariant
    (motive := fun st => Consistent workers st.activeWorkers st) ?pass ?forget replies h
  case pass =>
    intro st gone answer h
    let forgotten : Waiting := { st with toWorkerPool := st.toWorkerPool.forget gone }
    have hforgotten : Consistent workers forgotten.activeWorkers forgotten := ⟨h.1, h.2, h.3⟩
    exact hforgotten.poll answer
  case forget =>
    intro st gone h
    exact ⟨h.1, h.2, h.3⟩

theorem waitForWorkers_signals (replies : List (Reply WaitAnswer)) (st : Waiting) :
    st.signals <+: (waitForWorkers replies st).1.signals := by
  refine waitForWorkers_invariant (motive := fun st' => st.signals <+: st'.signals) ?pass ?forget
    replies List.prefix_rfl
  case pass =>
    intro st' gone answer h
    let forgotten : Waiting := { st' with toWorkerPool := st'.toWorkerPool.forget gone }
    have hforgotten : st.signals <+: forgotten.signals := h
    exact hforgotten.trans (poll_signals answer)
  case forget =>
    intro st' gone h
    exact h

theorem waitForWorkers_returns {replies : List (Reply WaitAnswer)} {verdict : Bool}
    (h : (waitForWorkers replies st).2 = some verdict) :
    (waitForWorkers replies st).1.retvalue = verdict := by
  have hreturn : waitForWorkers replies st = ((waitForWorkers replies st).1, some verdict) :=
    Prod.ext rfl h
  refine waitForWorkers_induction (motive := fun _ _ st' verdict => st'.retvalue = verdict)
    ?empty ?error ?pass hreturn
  case empty => exact fun _ _ _ => rfl
  case error => exact fun _ _ _ _ _ => rfl
  case pass => exact fun _ _ _ _ _ _ _ ih => ih

/-- Nothing is sent to a PID once `waitpid` has returned it. -/
theorem Timely.signals_exited {first rest : List (Reply WaitAnswer)} {reply : Reply WaitAnswer}
    {pid status : Nat} (hworkers : (workers.map fun worker => worker.pid).Nodup)
    (h : Timely workers st.activeWorkers st.signals) (hreply : reply.answer = .exited pid status) :
    signalsTo pid (Pool.waitForWorkers (first ++ reply :: rest) st).1.signals =
      signalsTo pid (Pool.waitForWorkers first st).1.signals := by
  have hfirst := h.waitForWorkers hworkers first
  rw [waitForWorkers_append]
  rcases hrun : Pool.waitForWorkers first st with ⟨st', _ | verdict⟩
  · rw [hrun] at hfirst
    show signalsTo pid (Pool.waitForWorkers (reply :: rest) st').1.signals = signalsTo pid st'.signals
    unfold Pool.waitForWorkers
    by_cases hempty : st'.activeWorkers.isEmpty = true
    · rw [if_pos hempty]
    · rw [if_neg hempty, hreply, if_neg (by simp)]
      let forgotten : Waiting := { st' with toWorkerPool := st'.toWorkerPool.forget reply.gone }
      have hforgotten : Timely workers forgotten.activeWorkers forgotten.signals := hfirst
      have hexited : Unlisted pid (signalsTo pid forgotten.signals)
        (Pool.poll forgotten (.exited pid status)) := hforgotten.poll_exited
      exact (hexited.waitForWorkers rest).2
  · rfl

/-- Once a signal has been sent the verdict can only be `false`. -/
theorem Consistent.verdict_signalled {replies rest : List (Reply WaitAnswer)} {verdict : Bool}
    (h : Consistent workers st.activeWorkers st)
    (hsignals : (Pool.waitForWorkers replies st).1.signals ≠ [])
    (hreturn : (Pool.waitForWorkers (replies ++ rest) st).2 = some verdict) : verdict = false := by
  have hgrow : (Pool.waitForWorkers replies st).1.signals <+:
      (Pool.waitForWorkers (replies ++ rest) st).1.signals := by
    rw [waitForWorkers_append]
    rcases Pool.waitForWorkers replies st with ⟨st', _ | verdict⟩
    · exact waitForWorkers_signals rest st'
    · exact List.prefix_rfl
  have hlater : (Pool.waitForWorkers (replies ++ rest) st).1.signals ≠ [] := by
    intro hnil
    rw [hnil] at hgrow
    exact hsignals (List.prefix_nil.mp hgrow)
  rw [← waitForWorkers_returns hreturn, Bool.eq_false_iff, ne_eq,
    (h.waitForWorkers (replies ++ rest)).verdict]
  exact fun hall => hlater hall.2

/-! ### What lawful treatment says -/

theorem mem_signalsTo {pid : Nat} {signals : List Sent} {sent : Sent} :
    sent ∈ signalsTo pid signals ↔ sent ∈ signals ∧ sent.pid = pid := by
  simp [signalsTo]

theorem Lawful.untimed {signals : List Sent} (h : Lawful signals worker)
    (htimeout : worker.has_timeout = false) : ∀ sent ∈ signals, sent.pid ≠ worker.pid := by
  rcases h with hnone | ⟨time, kills, hsignals, hterminated⟩
  · intro sent hsent hpid
    have hmem := mem_signalsTo.mpr ⟨hsent, hpid⟩
    rw [hnone] at hmem
    cases hmem
  · rw [hterminated.has_timeout] at htimeout
    cases htimeout

theorem Lawful.term_once {signals : List Sent} (h : Lawful signals worker) :
    signals.countP (fun sent => sent.pid = worker.pid ∧ sent.signal = .SIGTERM) ≤ 1 := by
  have hcount : signals.countP (fun sent => sent.pid = worker.pid ∧ sent.signal = .SIGTERM) =
      (signalsTo worker.pid signals).countP fun sent => sent.signal = .SIGTERM := by
    rw [signalsTo, List.countP_filter]
    refine List.countP_congr fun sent _ => ?_
    simp [and_comm]
  rw [hcount]
  rcases h with hnone | ⟨time, kills, hsignals, hterminated⟩
  · simp [hnone]
  · have hkills : kills.countP (fun sent => sent.signal = .SIGTERM) = 0 := by
      refine List.countP_eq_zero.mpr fun sent hsent => ?_
      simp [(hterminated.graced sent hsent).1]
    rw [hsignals, List.countP_cons, hkills]
    simp

theorem Lawful.term_expired {signals : List Sent} (h : Lawful signals worker) {sent : Sent}
    (hsent : sent ∈ signals) (hpid : sent.pid = worker.pid) (hterm : sent.signal = .SIGTERM) :
    worker.deadline < sent.time := by
  have hmem := mem_signalsTo.mpr ⟨hsent, hpid⟩
  rcases h with hnone | ⟨time, kills, hsignals, hterminated⟩
  · rw [hnone] at hmem
    cases hmem
  · rw [hsignals] at hmem
    rcases List.mem_cons.mp hmem with rfl | hkill
    · exact hterminated.expired
    · rw [(hterminated.graced sent hkill).1] at hterm
      cases hterm

theorem Lawful.kill_graced {before after : List Sent} {sent : Sent}
    (h : Lawful (before ++ sent :: after) worker) (hpid : sent.pid = worker.pid)
    (hkill : sent.signal = .SIGKILL) :
    ∃ term ∈ before, term.pid = sent.pid ∧ term.signal = .SIGTERM ∧
      term.time + SIGTERM_GRACE < sent.time := by
  have hsplit : signalsTo worker.pid (before ++ sent :: after) =
      signalsTo worker.pid before ++ sent :: signalsTo worker.pid after := by
    simp [signalsTo, hpid]
  rcases h with hnone | ⟨time, kills, hsignals, hterminated⟩
  · rw [hsplit] at hnone
    simp at hnone
  · rw [hsplit] at hsignals
    cases hbefore : signalsTo worker.pid before with
    | nil =>
      rw [hbefore, List.nil_append] at hsignals
      obtain ⟨rfl, _⟩ := List.cons.inj hsignals
      cases hkill
    | cons term earlier =>
      rw [hbefore, List.cons_append] at hsignals
      obtain ⟨rfl, hkills⟩ := List.cons.inj hsignals
      have hterm := mem_signalsTo.mp (hbefore ▸ List.mem_cons_self)
      have hgraced := (hterminated.graced sent (hkills ▸ by simp)).2
      exact ⟨_, hterm.1, hpid.symm, rfl, hgraced⟩

end

theorem pid_forkedProcs (forks : List (workerParams × Nat × Nat)) :
    ((forkedProcs forks).map fun worker => worker.pid) = forks.map fun fork => fork.2.1 := by
  simp [forkedProcs, forkedProc]

theorem timely_supervise {forks : List (workerParams × Nat × Nat)}
    (hpids : (forks.map fun fork => fork.2.1).Nodup) :
    Timely (forkedProcs forks) (supervise (forkedProcs forks)).activeWorkers
      (supervise (forkedProcs forks)).signals := by
  refine ⟨(pid_forkedProcs forks).symm ▸ hpids, ?_, ?_, ?_, ?_⟩
  · exact fun proc hproc => ⟨proc, hproc, rfl⟩
  · intro proc hproc
    obtain ⟨fork, _, rfl⟩ := List.mem_map.mp hproc
    rfl
  · exact fun _ _ => .inl rfl
  · intro sent hsent
    cases hsent

/-- **The timeout protocol.** `fork` gives no PID twice. In every state of the loop a worker without
a timeout has not been signalled, `SIGTERM` is sent to a worker at most once and after its deadline,
and `SIGKILL` to nobody whose `SIGTERM` is not 10 seconds old; nothing is sent to a PID after
`waitpid` has returned it, and after any signal the verdict can only be `false`. -/
theorem signals_lawful (forks : List (workerParams × Nat × Nat))
    (hpids : (forks.map fun fork => fork.2.1).Nodup) (replies : List (Reply WaitAnswer)) :
    let start := supervise (forkedProcs forks)
    let signals := (waitForWorkers replies start).1.signals
    (∀ fork ∈ forks,
      (fork.1.timeout_secs = 0 → ∀ sent ∈ signals, sent.pid ≠ fork.2.1) ∧
      signals.countP (fun sent => sent.pid = fork.2.1 ∧ sent.signal = .SIGTERM) ≤ 1 ∧
      ∀ sent ∈ signals, sent.pid = fork.2.1 → sent.signal = .SIGTERM →
        fork.2.2 + seconds fork.1.timeout_secs < sent.time) ∧
    (∀ before sent after, signals = before ++ sent :: after → sent.signal = .SIGKILL →
      ∃ term ∈ before, term.pid = sent.pid ∧ term.signal = .SIGTERM ∧
        term.time + seconds 10 ≤ sent.time) ∧
    (∀ first reply rest pid status, replies = first ++ reply :: rest →
      reply.answer = .exited pid status →
        signalsTo pid signals = signalsTo pid (waitForWorkers first start).1.signals) ∧
    (signals ≠ [] → ∀ rest verdict,
      (waitForWorkers (replies ++ rest) start).2 = some verdict → verdict = false) := by
  have hworkers : ((forkedProcs forks).map fun worker => worker.pid).Nodup :=
    (pid_forkedProcs forks).symm ▸ hpids
  have hstart := timely_supervise hpids
  have hrun := hstart.waitForWorkers hworkers replies
  refine ⟨?_, ?_, ?_, ?_⟩
  · intro fork hfork
    have hlawful := hrun.lawful (forkedProc fork.1 fork.2.1 fork.2.2) (List.mem_map.mpr ⟨fork, hfork, rfl⟩)
    refine ⟨?_, hlawful.term_once, ?_⟩
    · intro htimeout
      refine hlawful.untimed ?_
      simp [forkedProc, htimeout]
    · intro sent hsent hpid hterm
      have hexpired := hlawful.term_expired hsent hpid hterm
      by_cases htimeout : 0 < fork.1.timeout_secs
      · simpa [forkedProc, htimeout] using hexpired
      · refine absurd hpid (hlawful.untimed ?_ sent hsent)
        simp [forkedProc, htimeout]
  · intro before sent after hsignals hkill
    obtain ⟨worker, hworker, hpid⟩ := hrun.addressed sent (hsignals ▸ by simp)
    have hlawful := hsignals ▸ hrun.lawful worker hworker
    obtain ⟨term, hterm, hsame, hsigterm, hgraced⟩ := hlawful.kill_graced hpid.symm hkill
    exact ⟨term, hterm, hsame, hsigterm, Nat.le_of_lt hgraced⟩
  · rintro first reply rest pid status rfl hreply
    exact hstart.signals_exited hworkers hreply
  · intro hsignals rest verdict hreturn
    exact (consistent_supervise forks).verdict_signalled hsignals hreturn

/-- A worker with a timeout is terminated and then killed; one without is left alone. -/
theorem signals_lawful_killed :
    (waitForWorkers [⟨[], .idle (seconds 2)⟩, ⟨[], .idle (seconds 13)⟩, ⟨[], .exited 7 9⟩]
        (supervise (forkedProcs [({ timeout_secs := 1 }, 7, 0), ({}, 8, 0)]))).1.signals =
      [⟨7, .SIGTERM, seconds 2⟩, ⟨7, .SIGKILL, seconds 13⟩] ∧
    ∀ sent ∈ (waitForWorkers [⟨[], .idle (seconds 2)⟩, ⟨[], .idle (seconds 13)⟩, ⟨[], .exited 7 9⟩]
        (supervise (forkedProcs [({ timeout_secs := 1 }, 7, 0), ({}, 8, 0)]))).1.signals,
      sent.pid ≠ 8 := by
  refine ⟨by decide, ?_⟩
  exact ((signals_lawful [({ timeout_secs := 1 }, 7, 0), ({}, 8, 0)] (by decide) _).1
    ({}, 8, 0) (by simp)).1 rfl

end PQuery.Pool

import PQuery.Pool.Watchdogs

/-!
# The polling loop ends

What `waitForWorkers` needs of the kernel: `waitpid` returns only workers that are listed, a worker that
was sent a `SIGKILL` is gone after a while, and one without a timeout comes to an end by itself
(`Kernel`). Then every worker that is still listed has heard all readings of the clock, and there are
only so many readings that a watchdog can hear (`polling_ends`).
-/

namespace PQuery.Pool

open Config Watchdog

/-- `std::chrono::milliseconds(500)`, in nanoseconds. -/
def pollInterval : Nat := 500 * 10 ^ 6

def WaitAnswer.reading : WaitAnswer → Option Nat
  | .idle now => some now
  | _ => none

/-- The readings of the clock. -/
def readings (replies : List (Reply WaitAnswer)) : List Nat :=
  replies.filterMap fun reply => reply.answer.reading

/-- The state of the loop after these replies. -/
def after (forks : List (workerParams × Nat × Nat)) (replies : List (Reply WaitAnswer)) :
    Waiting × Option Bool :=
  waitForWorkers replies (supervise (forkedProcs forks))

def Listed (pid : Nat) (st : Waiting) : Prop := ∃ proc ∈ st.activeWorkers, proc.pid = pid

/-- How the kernel behaves in the last of some replies: it is asked at `started` at the earliest; a worker
that was sent a `SIGKILL` is listed for a time `reap` only, and one without a timeout until its end. -/
structure Answers (forks : List (workerParams × Nat × Nat)) (started reap : Nat) (ends : Nat → Nat)
    (before : List (Reply WaitAnswer)) (answer : WaitAnswer) : Prop where
  clock : ∀ now, answer = .idle now → started ≤ now ∧ ∀ t ∈ readings before, t + pollInterval ≤ now
  own : ∀ pid status, answer = .exited pid status → Listed pid (after forks before).1
  killed : ∀ now, answer = .idle now → ∀ sent ∈ (after forks before).1.signals,
    sent.signal = .SIGKILL → Listed sent.pid (after forks before).1 → now ≤ sent.time + reap
  ended : ∀ now, answer = .idle now → ∀ fork ∈ forks, fork.1.timeout_secs = 0 →
    Listed fork.2.1 (after forks before).1 → now ≤ ends fork.2.1

/-- The kernel behaves in this way as long as it is asked. -/
def Kernel (forks : List (workerParams × Nat × Nat)) (started reap : Nat) (ends : Nat → Nat)
    (replies : List (Reply WaitAnswer)) : Prop :=
  ∀ before reply rest, replies = before ++ reply :: rest →
    Answers forks started reap ends before reply.answer

section
variable {forks : List (workerParams × Nat × Nat)} {replies rest : List (Reply WaitAnswer)}
  {reply : Reply WaitAnswer} {st : Waiting} {started reap pid : Nat} {ends : Nat → Nat}

/-! ### As long as the loop runs -/

theorem readings_append : readings (replies ++ rest) = readings replies ++ readings rest :=
  List.filterMap_append

theorem readings_concat : readings (replies ++ [reply]) = readings replies ++ reply.answer.reading.toList := by
  rw [readings_append]
  cases hanswer : reply.answer <;> simp [readings, hanswer, WaitAnswer.reading]

theorem ne_nil_of_running (h : (waitForWorkers replies st).2 = none) :
    (waitForWorkers replies st).1.activeWorkers ≠ [] := by
  induction replies generalizing st with
  | nil =>
    intro hnil
    simp [waitForWorkers, show st.activeWorkers = [] from hnil] at h
  | cons reply rest ih =>
    unfold waitForWorkers at h ⊢
    by_cases hempty : st.activeWorkers.isEmpty = true
    · rw [if_pos hempty] at h
      cases h
    · rw [if_neg hempty] at h ⊢
      by_cases herror : reply.answer = .error
      · rw [if_pos herror] at h
        cases h
      · rw [if_neg herror] at h ⊢
        exact ih h

theorem running_of_append (h : (waitForWorkers (replies ++ rest) st).2 = none) :
    (waitForWorkers replies st).2 = none := by
  rw [waitForWorkers_append] at h
  rcases hrun : waitForWorkers replies st with ⟨st', _ | verdict⟩
  · rfl
  · rw [hrun] at h
    cases h

theorem running_concat (h : (waitForWorkers (replies ++ [reply]) st).2 = none) :
    reply.answer ≠ .error ∧
      (waitForWorkers (replies ++ [reply]) st).1 =
        poll { (waitForWorkers replies st).1 with
          toWorkerPool := (waitForWorkers replies st).1.forget reply.gone } reply.answer := by
  have hrunning := running_of_append h
  have hne : ¬ (waitForWorkers replies st).1.activeWorkers.isEmpty = true := by
    rw [List.isEmpty_iff]
    exact ne_nil_of_running hrunning
  rw [waitForWorkers_append] at h ⊢
  rcases hrun : waitForWorkers replies st with ⟨st', _ | verdict⟩
  · rw [hrun] at h hne
    simp only [waitForWorkers, if_neg hne] at h ⊢
    by_cases herror : reply.answer = .error
    · rw [if_pos herror] at h
      cases h
    · simp [herror]
  · rw [hrun] at hrunning
    cases hrunning

theorem Listed.earlier (h : Listed pid (waitForWorkers (replies ++ rest) st).1) :
    Listed pid (waitForWorkers replies st).1 := by
  by_contra hnot
  have hunlisted : Unlisted pid (signalsTo pid (waitForWorkers replies st).1.signals)
      (waitForWorkers replies st).1 := ⟨fun proc hproc hpid => hnot ⟨proc, hproc, hpid⟩, rfl⟩
  obtain ⟨proc, hproc, hpid⟩ := h
  rw [waitForWorkers_append] at hproc
  rcases hrun : waitForWorkers replies st with ⟨st', _ | verdict⟩
  · rw [hrun] at hproc hunlisted
    exact (hunlisted.waitForWorkers rest).1 proc hproc hpid
  · rw [hrun] at hproc hunlisted
    exact hunlisted.1 proc hproc hpid

theorem heard_eq_readings {workers : List workerProc}
    (hworkers : (workers.map fun worker => worker.pid).Nodup)
    (h : Timely workers st.activeWorkers st.signals) (hrunning : (waitForWorkers replies st).2 = none)
    (hlisted : Listed pid (waitForWorkers replies st).1) : heard pid replies = readings replies := by
  induction replies generalizing st with
  | nil => rfl
  | cons reply rest ih =>
    have hempty : ¬ st.activeWorkers.isEmpty = true := by
      rw [List.isEmpty_iff]
      exact ne_nil_of_running (@running_of_append [] _ st hrunning)
    let forgotten : Waiting := { st with toWorkerPool := st.toWorkerPool.forget reply.gone }
    have hforgotten : Timely workers forgotten.activeWorkers forgotten.signals := h
    rw [waitForWorkers, if_neg hempty] at hrunning hlisted
    by_cases herror : reply.answer = .error
    · rw [if_pos herror] at hrunning
      cases hrunning
    · rw [if_neg herror] at hrunning hlisted
      have hrest := ih (hforgotten.poll hworkers _) hrunning hlisted
      cases hanswer : reply.answer with
      | error => exact absurd hanswer herror
      | idle now =>
        simp only [heard, readings, List.filterMap_cons, hanswer, WaitAnswer.reading]
        exact congrArg (now :: ·) hrest
      | exited wPID status =>
        have hpid : wPID ≠ pid := by
          rintro rfl
          rw [hanswer] at hlisted
          obtain ⟨proc, hproc, hpid⟩ := hlisted
          exact (hforgotten.poll_exited.waitForWorkers rest).1 proc hproc hpid
        simp only [heard, readings, List.filterMap_cons, hanswer, WaitAnswer.reading, if_neg hpid]
        exact hrest

/-! ### Counting the replies -/

theorem length_poll_idle (st : Waiting) (now : Nat) :
    (poll st (.idle now)).activeWorkers.length = st.activeWorkers.length := by
  rw [(poll_idle st now).1, List.length_map]

theorem length_poll_exited {status : Nat} (h : Listed pid st) :
    (poll st (.exited pid status)).activeWorkers.length + 1 = st.activeWorkers.length := by
  obtain ⟨proc, hproc, hpid⟩ := h
  rcases poll_exited st pid status with ⟨hfind, -⟩ | ⟨found, hfind, hpoll⟩
  · exact absurd hpid (by simpa using List.find?_eq_none.mp hfind proc hproc)
  · rw [hpoll, ← List.length_cons (a := found)]
    exact (perm_eraseP hfind).length_eq.symm

theorem Kernel.append (h : Kernel forks started reap ends (replies ++ rest)) :
    Kernel forks started reap ends replies := by
  rintro before reply later rfl
  exact h before reply (later ++ rest) (by simp)

theorem map_range_eq_append_cons {α : Type} {f : Nat → α} {n : Nat} {before rest : List α} {x : α}
    (h : (List.range n).map f = before ++ x :: rest) :
    before = (List.range before.length).map f ∧ x = f before.length := by
  have hlength := congrArg List.length h
  simp only [List.length_map, List.length_range, List.length_append, List.length_cons] at hlength
  constructor
  · have htake := congrArg (List.take before.length) h
    rw [List.take_left, ← List.map_take, List.take_range, Nat.min_eq_left (by omega)] at htake
    exact htake.symm
  · have hget := congrArg (·[before.length]?) h
    simp only [List.getElem?_map, List.getElem?_range (show before.length < n by omega),
      List.getElem?_append_right (Nat.le_refl _), Nat.sub_self, List.getElem?_cons_zero,
      Option.map_some] at hget
    exact (Option.some.inj hget).symm

theorem nil_of_returned {verdict : Bool} (h : (waitForWorkers replies st).2 = some verdict)
    (hanswers : ∀ reply ∈ replies, reply.answer ≠ .error) :
    (waitForWorkers replies st).1.activeWorkers = [] := by
  have hreturn : waitForWorkers replies st = ((waitForWorkers replies st).1, some verdict) :=
    Prod.ext rfl h
  refine waitForWorkers_induction (motive := fun replies _ st' _ =>
    (∀ reply ∈ replies, reply.answer ≠ .error) → st'.activeWorkers = []) ?empty ?error ?pass hreturn
    hanswers
  case empty => exact fun _ _ hnil _ => hnil
  case error => exact fun reply rest st _ herror hall => absurd herror (hall reply List.mem_cons_self)
  case pass => exact fun _ _ _ _ _ _ _ ih hall => ih (List.forall_mem_cons.mp hall).2

theorem length_replies (h : Kernel forks started reap ends replies)
    (hrunning : (after forks replies).2 = none) :
    (after forks replies).1.activeWorkers.length + replies.length =
      forks.length + (readings replies).length := by
  induction replies using List.reverseRecOn with
  | nil => simp [after, waitForWorkers, supervise, forkedProcs, readings]
  | append_singleton replies reply ih =>
    have hcount := ih h.append (running_of_append hrunning)
    have hanswers := h replies reply [] rfl
    let forgotten : Waiting := { (after forks replies).1 with
      toWorkerPool := (after forks replies).1.forget reply.gone }
    have hforgotten : forgotten.activeWorkers = (after forks replies).1.activeWorkers := rfl
    obtain ⟨herror, hstate⟩ := running_concat hrunning
    have hpoll : (after forks (replies ++ [reply])).1 = poll forgotten reply.answer := hstate
    rw [hpoll, readings_concat, List.length_append, List.length_append, List.length_singleton]
    cases hanswer : reply.answer with
    | error => exact absurd hanswer herror
    | idle now =>
      have hone := length_poll_idle forgotten now
      rw [hforgotten] at hone
      simp only [WaitAnswer.reading, Option.toList_some, List.length_singleton]
      omega
    | exited wPID status =>
      have hlisted : Listed wPID forgotten := hanswers.own wPID status hanswer
      have hone := @length_poll_exited forgotten wPID status hlisted
      rw [hforgotten] at hone
      simp only [WaitAnswer.reading, Option.toList_none, List.length_nil]
      omega

theorem exists_reply {before later : List Nat} {now : Nat} (h : readings replies = before ++ now :: later) :
    ∃ first reply rest, replies = first ++ reply :: rest ∧ readings first = before ∧
      reply.answer = .idle now := by
  obtain ⟨first, rest, rfl, hfirst, hrest⟩ := List.filterMap_eq_append_iff.mp h
  obtain ⟨skipped, reply, rest, rfl, hskipped, hreply, -⟩ := List.filterMap_eq_cons_iff.mp hrest
  refine ⟨first ++ skipped, reply, rest, by simp, ?_, ?_⟩
  · rw [readings_append, show readings first = before from hfirst,
      show readings skipped = [] from List.filterMap_eq_nil_iff.mpr hskipped, List.append_nil]
  · cases hanswer : reply.answer with
    | idle t =>
      rw [hanswer] at hreply
      rw [Option.some.inj hreply]
    | exited wPID status =>
      rw [hanswer] at hreply
      cases hreply
    | error =>
      rw [hanswer] at hreply
      cases hreply

theorem spaced_readings (h : Kernel forks started reap ends replies) :
    Spaced pollInterval (readings replies) ∧ ∀ now ∈ readings replies, started ≤ now := by
  have hclock : ∀ before now later, readings replies = before ++ now :: later →
      started ≤ now ∧ ∀ t ∈ before, t + pollInterval ≤ now := by
    intro before now later hsplit
    obtain ⟨first, reply, rest, rfl, rfl, hanswer⟩ := exists_reply hsplit
    exact (h first reply rest rfl).clock now hanswer
  refine ⟨List.pairwise_iff_forall_sublist.mpr ?_, ?_⟩
  · intro t now hsub
    obtain ⟨before, later, hsplit, hbefore, hlater⟩ := List.cons_sublist_iff.mp hsub
    obtain ⟨middle, rest, rfl⟩ := List.append_of_mem (List.singleton_sublist.mp hlater)
    refine (hclock (before ++ middle) now rest (by simp [hsplit])).2 t ?_
    exact List.mem_append_left _ hbefore
  · intro now hnow
    obtain ⟨before, later, hsplit⟩ := List.append_of_mem hnow
    exact (hclock before now later hsplit).1

/-- How many readings a worker can be listed for. -/
theorem length_readings_of_listed (hpids : (forks.map fun fork => fork.2.1).Nodup)
    (h : Kernel forks started reap ends replies) (hrunning : (after forks replies).2 = none)
    {fork : workerParams × Nat × Nat} (hfork : fork ∈ forks)
    (hlisted : Listed fork.2.1 (after forks replies).1) :
    (readings replies).length ≤
      ((if fork.1.timeout_secs = 0 then ends fork.2.1 else fork.2.2 + seconds fork.1.timeout_secs) -
        started) / pollInterval + seconds 10 / pollInterval + reap / pollInterval + 3 := by
  have hinterval : 0 < pollInterval := by decide
  have hworkers : ((forkedProcs forks).map fun worker => worker.pid).Nodup :=
    (pid_forkedProcs forks).symm ▸ hpids
  obtain ⟨hspaced, hstarted⟩ := spaced_readings h
  by_cases htimeout : fork.1.timeout_secs = 0
  · have hends : ∀ now ∈ readings replies, now ≤ ends fork.2.1 := by
      intro now hnow
      obtain ⟨before, later, hsplit⟩ := List.append_of_mem hnow
      obtain ⟨first, reply, rest, rfl, -, hanswer⟩ := exists_reply hsplit
      exact (h first reply rest rfl).ended now hanswer fork hfork htimeout hlisted.earlier
    have hcount := length_within_le hinterval hspaced hstarted hends
    have hmore : 0 ≤ seconds 10 / pollInterval + reap / pollInterval := Nat.zero_le _
    rw [if_pos htimeout]
    omega
  · rw [if_neg htimeout]
    refine length_readings_le hinterval hspaced hstarted fun before now later hsplit k hk => ?_
    obtain ⟨first, reply, rest, rfl, rfl, hanswer⟩ := exists_reply hsplit
    -- the alarm was raised again, so a `SIGKILL` has been sent
    have hfirst : Listed fork.2.1 (after forks first).1 := hlisted.earlier
    have hsignals := signals_watchdog forks hpids first fork hfork
    rw [if_neg htimeout, heard_eq_readings hworkers (timely_supervise hpids)
      (running_of_append hrunning) hfirst] at hsignals
    have hsent : (⟨fork.2.1, .SIGKILL, k⟩ : Sent) ∈ signalsTo fork.2.1 (after forks first).1.signals := by
      rw [after, hsignals]
      exact List.mem_map_of_mem hk
    exact (h first reply rest rfl).killed now hanswer _ (mem_signalsTo.mp hsent).1 rfl hfirst

/-- As long as the loop runs, it has made only so many calls. -/
theorem length_replies_lt (hpids : (forks.map fun fork => fork.2.1).Nodup) {last : Nat}
    (hlast : ∀ fork ∈ forks, (if fork.1.timeout_secs = 0 then ends fork.2.1
      else fork.2.2 + seconds fork.1.timeout_secs) ≤ last)
    (h : Kernel forks started reap ends replies) (hrunning : (after forks replies).2 = none) :
    replies.length < forks.length +
      ((last - started) / pollInterval + seconds 10 / pollInterval + reap / pollInterval + 3) := by
  have hcount := length_replies h hrunning
  obtain ⟨proc, hproc⟩ := List.exists_mem_of_ne_nil _ (ne_nil_of_running hrunning)
  have hlisted := List.length_pos_of_mem hproc
  have htimely := (timely_supervise hpids).waitForWorkers ((pid_forkedProcs forks).symm ▸ hpids) replies
  obtain ⟨worker, hworker, horigin⟩ := htimely.origin proc hproc
  obtain ⟨fork, hfork, rfl⟩ := List.mem_map.mp hworker
  have hbound := length_readings_of_listed hpids h hrunning hfork ⟨proc, hproc, horigin.pid⟩
  have hdiv := Nat.div_le_div_right (c := pollInterval) (Nat.sub_le_sub_right (hlast fork hfork) started)
  unfold after at hcount
  omega

end

/-- **The polling loop ends.** Let the kernel answer in this way as long as it is asked, and let `last` be
the latest deadline of a worker, or end of one without a timeout. Then the loop returns after at most so
many calls of `waitpid`: one for each worker, one for each half second until `last`, for 10 seconds and
for the time that a killed worker may take, and three more. If `waitpid` has not failed, no worker is
listed then. -/
theorem polling_ends (forks : List (workerParams × Nat × Nat))
    (hpids : (forks.map fun fork => fork.2.1).Nodup) (started reap last : Nat) (ends : Nat → Nat)
    (hlast : ∀ fork ∈ forks, (if fork.1.timeout_secs = 0 then ends fork.2.1
      else fork.2.2 + seconds fork.1.timeout_secs) ≤ last)
    (replies : Nat → Reply WaitAnswer)
    (hkernel : ∀ n, (after forks ((List.range n).map replies)).2 = none →
      Answers forks started reap ends ((List.range n).map replies) (replies n).answer) :
    ∃ n ≤ forks.length + (last - started) / pollInterval + reap / pollInterval + 23, ∃ verdict,
      (after forks ((List.range n).map replies)).2 = some verdict ∧
        ((∀ k < n, (replies k).answer ≠ .error) →
          (after forks ((List.range n).map replies)).1.activeWorkers = []) := by
  let upTo (n : Nat) : List (Reply WaitAnswer) := (List.range n).map replies
  have hstop : ∃ n ≤ forks.length + (last - started) / pollInterval + reap / pollInterval + 23,
      (after forks (upTo n)).2 ≠ none := by
    refine ⟨_, Nat.le_refl _, fun hrunning => ?_⟩
    have hall : Kernel forks started reap ends (upTo (forks.length + (last - started) / pollInterval +
        reap / pollInterval + 23)) := by
      intro before reply rest hsplit
      obtain ⟨hbefore, hreply⟩ := map_range_eq_append_cons hsplit
      rw [hbefore, hreply]
      refine hkernel _ ?_
      rw [← hbefore]
      rw [hsplit] at hrunning
      exact running_of_append hrunning
    have hlt := length_replies_lt hpids hlast hall hrunning
    have hgrace : seconds 10 / pollInterval = 20 := rfl
    rw [hgrace, List.length_map, List.length_range] at hlt
    omega
  obtain ⟨n, hn, hreturn⟩ := hstop
  obtain ⟨verdict, hverdict⟩ := Option.ne_none_iff_exists'.mp hreturn
  refine ⟨n, hn, verdict, hverdict, fun hanswers => ?_⟩
  refine nil_of_returned hverdict fun reply hreply => ?_
  obtain ⟨k, hk, rfl⟩ := List.mem_map.mp hreply
  exact hanswers k (List.mem_range.mp hk)

/-- A worker that ignores its `SIGTERM` and is killed. -/
def killedReplies (n : Nat) : Reply WaitAnswer :=
  ⟨[], match n with
    | 0 => .idle (seconds 2)
    | 1 => .idle (seconds 13)
    | _ => .exited 7 9⟩

theorem polling_ends_killed :
    ∃ n ≤ 1 + (seconds 1 - 0) / pollInterval + seconds 1 / pollInterval + 23, ∃ verdict,
      (after [({ timeout_secs := 1 }, 7, 0)] ((List.range n).map killedReplies)).2 = some verdict ∧
        ((∀ k < n, (killedReplies k).answer ≠ .error) →
          (after [({ timeout_secs := 1 }, 7, 0)] ((List.range n).map killedReplies)).1.activeWorkers =
            []) := by
  refine polling_ends [({ timeout_secs := 1 }, 7, 0)] (by decide) 0 (seconds 1) (seconds 1) (fun _ => 0)
    (by decide) killedReplies ?_
  rintro (_ | _ | _ | n) hrunning
  · refine ⟨?_, ?_, ?_, ?_⟩
    · exact fun now h => ⟨Nat.zero_le _, fun t ht => absurd ht List.not_mem_nil⟩
    · exact fun pid status h => nomatch h
    · exact fun now h sent hsent => absurd hsent List.not_mem_nil
    · intro now h fork hfork htimeout
      obtain rfl := List.mem_singleton.mp hfork
      cases htimeout
  · refine ⟨?_, ?_, ?_, ?_⟩
    · intro now h
      obtain rfl := WaitAnswer.idle.inj h
      exact ⟨Nat.zero_le _, by decide⟩
    · exact fun pid status h => nomatch h
    · intro now h sent hsent hkill
      obtain rfl := List.mem_singleton.mp hsent
      cases hkill
    · intro now h fork hfork htimeout
      obtain rfl := List.mem_singleton.mp hfork
      cases htimeout
  · refine ⟨?_, ?_, ?_, ?_⟩
    · exact fun now h => nomatch h
    · intro pid status h
      obtain ⟨rfl, -⟩ := WaitAnswer.exited.inj h
      exact ⟨_, List.mem_singleton_self _, rfl⟩
    · exact fun now h => nomatch h
    · exact fun now h => nomatch h
  · rw [show n + 3 = 3 + n by omega, List.range_add, List.map_append] at hrunning
    exact absurd (running_of_append hrunning) (by decide)

end PQuery.Pool

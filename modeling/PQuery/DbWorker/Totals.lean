import Mathlib.Algebra.BigOperators.Ring.Finset
import Mathlib.Data.ZMod.Basic
import Mathlib.Tactic.Ring
import PQuery.DbWorker.Moves

/-!
# The totals of a worker

What the threads have done (`Thread.count`) is booked in the shared totals when they add it on their
way out, and is owed until then. Every step of every thread keeps the account between the totals and
what is booked, modulo 2 ^ 64, whatever the interleaving. A thread that throws never pays what it
owes, so once all threads are joined the totals are right exactly when no thread has thrown while it
owed something, and the numbers fit their counters (`totals_eq_iff`).
-/

namespace PQuery.DbWorker

open Config Interleaving

/-- What a thread has done towards a total: the calls of `performQuery` that returned, those that
returned `false`, the refusal of its connection. -/
def Thread.count (t : Thread) : Total → Nat
  | .performed_queries_total => t.loop.performed.length
  | .failed_queries_total => t.loop.outcomes.count false
  | .failed_connections_total => if t.connected = some false then 1 else 0

/-- What of it is in the total already. -/
def Thread.booked (t : Thread) (total : Total) : Nat :=
  match t.phase with
  | .leaving ops => if .add total ∈ ops then 0 else t.count total
  | _ => 0

/-- What of it is not. -/
def Thread.owed (t : Thread) (total : Total) : Nat :=
  match t.phase with
  | .leaving ops => if .add total ∈ ops then t.count total else 0
  | _ => t.count total

theorem booked_add_owed (t : Thread) (total : Total) :
    t.booked total + t.owed total = t.count total := by
  unfold Thread.booked Thread.owed
  cases t.phase with
  | leaving ops =>
    show (if _ then _ else _) + (if _ then _ else _) = _
    split <;> omega
  | _ => exact Nat.zero_add _

/-! ### The account -/

section
variable {t : Thread} {total : Total}

theorem count_eq_zero (hperformed : t.loop.performed = []) (hconnected : t.connected = none) :
    t.count total = 0 := by
  cases total with
  | performed_queries_total => simp [Thread.count, hperformed]
  | failed_queries_total => simp [Thread.count, Loop.outcomes, hperformed]
  | failed_connections_total => simp [Thread.count, hconnected]

theorem count_failed_connections (h : t.connected = some true) :
    t.count .failed_connections_total = 0 := by
  simp [Thread.count, h]

section
variable (ops : List Op) (hphase : t.phase = .leaving ops)
include hphase

theorem booked_of_mem (hmem : .add total ∈ ops) : t.booked total = 0 := by
  unfold Thread.booked
  rw [hphase]
  exact if_pos hmem

theorem booked_of_notMem (hmem : .add total ∉ ops) : t.booked total = t.count total := by
  unfold Thread.booked
  rw [hphase]
  exact if_neg hmem

theorem owed_of_mem (hmem : .add total ∈ ops) : t.owed total = t.count total := by
  rw [← booked_add_owed, booked_of_mem _ hphase hmem, Nat.zero_add]

theorem owed_of_notMem (hmem : .add total ∉ ops) : t.owed total = 0 := by
  have := booked_add_owed t total
  rw [booked_of_notMem _ hphase hmem] at this
  omega

end

theorem booked_eq_zero (h : ∀ ops, t.phase ≠ .leaving ops) : t.booked total = 0 := by
  unfold Thread.booked
  cases hphase : t.phase with
  | leaving ops => exact absurd hphase (h ops)
  | _ => rfl

theorem owed_eq_count (h : ∀ ops, t.phase ≠ .leaving ops) : t.owed total = t.count total := by
  rw [← booked_add_owed, booked_eq_zero h, Nat.zero_add]

theorem share_eq_count (hvalid : t.Valid) {ops : List Op} (hphase : t.phase = .leaving ops)
    (hmem : .add total ∈ ops) : ((t.loop.db.share total : ℕ) : ZMod (2 ^ 64)) = t.count total := by
  obtain ⟨hcounted, hphaseValid⟩ := hvalid
  cases total with
  | performed_queries_total =>
    show (t.loop.db.performed_queries : ZMod (2 ^ 64)) = (t.loop.performed.length : ℕ)
    rw [hcounted.performed, ZMod.natCast_mod]
  | failed_queries_total =>
    show (t.loop.db.failed_queries : ZMod (2 ^ 64)) = (t.loop.outcomes.count false : ℕ)
    rw [hcounted.failed, ZMod.natCast_mod]
  | failed_connections_total =>
    rw [hphase] at hphaseValid
    show ((1 : ℕ) : ZMod (2 ^ 64)) = (if t.connected = some false then 1 else 0 : ℕ)
    rw [if_pos (hphaseValid.2 hmem)]

theorem count_apply (t : Thread) (op : Op) (ops : List Op) (total : Total) :
    Thread.count { t with phase := .leaving ops, loop := t.loop.apply op } total =
      t.count total := by
  have hperformed : (t.loop.apply op).performed = t.loop.performed := (foldl_apply [op] t.loop).2.2
  cases total with
  | performed_queries_total => exact congrArg List.length hperformed
  | failed_queries_total =>
    exact congrArg (fun performed => (performed.map Prod.snd).count false) hperformed
  | failed_connections_total => rfl

end

section
variable {w : Worker} {s s' : Shared} {t t' : Thread} {a : Action}

theorem operate_balance (total : Total) (hvalid : t.Valid) {op : Op} {ops : List Op}
    (hphase : t.phase = .leaving (op :: ops)) :
    (((s.apply t.loop.db op).totals total : ℕ) : ZMod (2 ^ 64)) - (s.totals total : ℕ) =
      ((Thread.booked { t with phase := .leaving ops, loop := t.loop.apply op } total : ℕ) :
        ZMod (2 ^ 64)) - (t.booked total : ℕ) := by
  have hcount := count_apply t op ops total
  by_cases hop : op = .add total
  · subst hop
    have hphaseValid := hvalid.phase
    rw [hphase] at hphaseValid
    have hnot : Op.add total ∉ ops := by
      intro hmem
      have hone := hphaseValid.1 total
      have hpos := List.count_pos_iff.mpr hmem
      rw [List.count_cons_self] at hone
      omega
    have hshare := share_eq_count hvalid hphase List.mem_cons_self
    rw [booked_of_mem _ hphase List.mem_cons_self, booked_of_notMem ops rfl hnot, hcount]
    simp only [Shared.apply, if_pos, ZMod.natCast_mod, Nat.cast_add, hshare, Nat.cast_zero]
    ring
  · have hsame : (s.apply t.loop.db op).totals total = s.totals total := by
      cases op with
      | add other =>
        have hne : total ≠ other := fun h => hop (h ▸ rfl)
        exact if_neg hne
      | _ => rfl
    have hbooked : Thread.booked { t with phase := .leaving ops, loop := t.loop.apply op } total =
        t.booked total := by
      by_cases hmem : Op.add total ∈ ops
      · rw [booked_of_mem ops rfl hmem, booked_of_mem _ hphase (List.mem_cons_of_mem op hmem)]
      · have hnot : Op.add total ∉ op :: ops := by
          rw [List.mem_cons, not_or]
          exact ⟨fun h => hop h.symm, hmem⟩
        rw [booked_of_notMem ops rfl hmem, booked_of_notMem _ hphase hnot, hcount]
    rw [hsame, hbooked, sub_self, sub_self]

theorem booked_refused (hperformed : t.loop.performed = []) (errorString : Str) (total : Total) :
    Thread.booked { t with
      phase := .leaving (refusedOps w.params t.number errorString), connected := some false } total =
      0 := by
  by_cases htotal : total = .failed_connections_total
  · exact booked_of_mem (refusedOps w.params t.number errorString) rfl
      (add_mem_refusedOps.mpr htotal)
  · rw [booked_of_notMem (refusedOps w.params t.number errorString) rfl
      (mt add_mem_refusedOps.mp htotal)]
    cases total with
    | performed_queries_total => exact congrArg List.length hperformed
    | failed_queries_total => simp [Thread.count, Loop.outcomes, hperformed]
    | failed_connections_total => exact absurd rfl htotal

theorem booked_left (hconnected : t.connected = some true) (l : Loop) (exit : Exit) (total : Total) :
    Thread.booked { t with loop := l, phase := .leaving (leavingOps w l exit) } total = 0 := by
  by_cases htotal : total = .failed_connections_total
  · rw [booked_of_notMem (leavingOps w l exit) rfl
      fun hmem => add_mem_leavingOps.mp hmem htotal, htotal]
    exact count_failed_connections hconnected
  · exact booked_of_mem (leavingOps w l exit) rfl (add_mem_leavingOps.mpr htotal)

/-- Every step keeps the account. -/
theorem step_balance (total : Total) (hvalid : t.Valid)
    (hstep : t.step w a s = some (s', t')) :
    ((s'.totals total : ℕ) : ZMod (2 ^ 64)) - (s.totals total : ℕ) =
      ((t'.booked total : ℕ) : ZMod (2 ^ 64)) - (t.booked total : ℕ) := by
  obtain ⟨_, hmove⟩ := move_of_step hstep
  have hphaseValid := hvalid.phase
  -- A step that books nothing and adds nothing.
  have hnone : s'.totals = s.totals → t.booked total = 0 → t'.booked total = 0 →
      ((s'.totals total : ℕ) : ZMod (2 ^ 64)) - (s.totals total : ℕ) =
        ((t'.booked total : ℕ) : ZMod (2 ^ 64)) - (t.booked total : ℕ) := by
    intro htotals hbooked hbooked'
    rw [htotals, hbooked, hbooked', sub_self, sub_self]
  have hbefore : ∀ {phase}, t.phase = phase → (∀ ops, phase ≠ .leaving ops) →
      t.booked total = 0 := fun hphase hne => booked_eq_zero fun ops => hphase ▸ hne ops
  cases hmove with
  | emptyList b hphase _ =>
    rw [hphase] at hphaseValid
    refine hnone rfl (hbefore hphase (by simp)) ?_
    rw [booked_of_notMem (emptyListOps t.number) rfl (by simp [emptyListOps])]
    exact count_eq_zero hphaseValid.1 hphaseValid.2
  | created hphase => exact hnone rfl (hbefore hphase (by simp)) (booked_eq_zero (by simp))
  | connected errorString hphase =>
    exact hnone rfl (hbefore hphase (by simp)) (booked_eq_zero (by simp))
  | refused errorString hphase =>
    rw [hphase] at hphaseValid
    exact hnone rfl (hbefore hphase (by simp)) (booked_refused hphaseValid.1 errorString total)
  | passed answer l hphase hr =>
    exact hnone rfl (hbefore hphase (by simp)) (booked_eq_zero (by simp [hphase]))
  | left answer l exit hphase _ hr =>
    rw [hphase] at hphaseValid
    exact hnone rfl (hbefore hphase (by simp)) (booked_left hphaseValid l exit total)
  | operated b op ops hphase _ => exact operate_balance total hvalid hphase
  | startThrew hphase =>
    exact hnone rfl (hbefore hphase (by simp)) (booked_eq_zero (by simp [hphase]))
  | connectThrew hphase =>
    exact hnone rfl (hbefore hphase (by simp)) (booked_eq_zero (by simp [hphase]))
  | loopThrew answer l hphase hr =>
    exact hnone rfl (hbefore hphase (by simp)) (booked_eq_zero (by simp [hphase]))
  | operationThrew op ops hphase _ =>
    have hbooked : Thread.booked { t with threw := true } total = t.booked total := rfl
    rw [hbooked, sub_self, sub_self]

end

/-! ### What an exception loses -/

/-- The step throws while something that the thread has done is not added yet: an exception of a
pass once a call of `performQuery` has returned, or one on the way out before an addition. -/
def Thread.Loses (w : Worker) (t : Thread) : Action → Prop
  | .iterate a => t.phase = .looping ∧ t.loop.i < w.params.queries_per_thread ∧
      (a.queryThrows = true ∧ t.loop.performed ≠ [] ∨
        a.queryThrows = false ∧ (t.loop.perform w a).db.consecutive_failures < maxConFailures ∧
          BodyThrows w a)
  | .operate succeeds => succeeds = false ∧ ∃ op ops, t.phase = .leaving (op :: ops) ∧
      op.mayThrow = true ∧ ∃ total, .add total ∈ ops ∧ t.count total ≠ 0
  | _ => False

/-- The thread has not thrown while it owed something. -/
def Thread.Settled (t : Thread) : Prop := t.threw = true → ∀ total, t.owed total = 0

section
variable {w : Worker} {s s' : Shared} {t t' : Thread} {a : Action}

theorem loopThrew_settled {answer : Answer} {l : Loop} (hvalid : t.Valid)
    (hphase : t.phase = .looping) (hr : loopStep w answer t.loop = (l, some .threw)) :
    Thread.Settled { t with loop := l, threw := true } ↔ ¬ t.Loses w (.iterate answer) := by
  have hphaseValid := hvalid.phase
  rw [hphase] at hphaseValid
  have hi : t.loop.i < w.params.queries_per_thread := by
    by_contra hnot
    rw [loopStep, if_neg hnot] at hr
    cases hr
  rw [loopStep, if_pos hi] at hr
  -- What it owes is nothing exactly where it has performed nothing.
  have hsettled : Thread.Settled { t with loop := l, threw := true } ↔ l.performed = [] := by
    have howed : ∀ total, Thread.owed { t with loop := l, threw := true } total =
        Thread.count { t with loop := l, threw := true } total := fun total =>
      owed_eq_count fun ops h => by cases hphase.symm.trans h
    constructor
    · intro h
      have hzero := h rfl .performed_queries_total
      rw [howed] at hzero
      exact List.length_eq_zero_iff.mp hzero
    · intro h _ total
      rw [howed]
      cases total with
      | performed_queries_total => exact congrArg List.length h
      | failed_queries_total => simp [Thread.count, Loop.outcomes, h]
      | failed_connections_total => exact count_failed_connections hphaseValid
  have hperform : ∀ ops : List Op,
      (ops.foldl Loop.apply (t.loop.perform w answer)).performed ≠ [] := by
    intro ops
    rw [(foldl_apply ops _).2.2]
    simp [Loop.perform]
  rw [hsettled]
  rcases iteration_cases (w := w) (a := answer) (l := t.loop) with ⟨hthrows, he⟩ | ⟨_, _, he⟩ |
    ⟨hquery, hlow, hbody, he⟩ | ⟨_, _, _, he⟩
  · rw [he] at hr
    cases hr
    constructor
    · rintro h ⟨_, _, ⟨_, hne⟩ | ⟨hquery, _⟩⟩
      · exact hne h
      · rw [hthrows] at hquery
        cases hquery
    · intro h
      by_contra hne
      exact h ⟨hphase, hi, .inl ⟨hthrows, hne⟩⟩
  · rw [he] at hr
    cases hr
  · rw [he] at hr
    cases hr
    exact ⟨fun h => absurd h (hperform _),
      fun h => absurd ⟨hphase, hi, .inr ⟨hquery, hlow, hbody⟩⟩ h⟩
  · rw [he] at hr
    cases hr

theorem not_loses_of_loopStep {answer : Answer} {l : Loop} {exit : Option Exit}
    (hexit : exit ≠ some .threw) (hr : loopStep w answer t.loop = (l, exit)) :
    ¬ t.Loses w (.iterate answer) := by
  rintro ⟨_, hi, hcause⟩
  rw [loopStep, if_pos hi] at hr
  rcases iteration_cases (w := w) (a := answer) (l := t.loop) with ⟨_, he⟩ | ⟨hquery, hhigh, he⟩ |
    ⟨_, _, _, he⟩ | ⟨hquery, _, hbody, _⟩
  · exact hexit (congrArg Prod.snd (hr.symm.trans he))
  · rcases hcause with ⟨hthrows, _⟩ | ⟨_, hlow, _⟩
    · exact Bool.false_ne_true (hquery.symm.trans hthrows)
    · omega
  · exact hexit (congrArg Prod.snd (hr.symm.trans he))
  · rcases hcause with ⟨hthrows, _⟩ | ⟨_, _, hthrows⟩
    · exact Bool.false_ne_true (hquery.symm.trans hthrows)
    · exact hbody hthrows

theorem operationThrew_settled {op : Op} {ops : List Op} (hphase : t.phase = .leaving (op :: ops))
    (hmay : op.mayThrow = true) :
    Thread.Settled { t with threw := true } ↔ ¬ t.Loses w (.operate false) := by
  constructor
  · rintro h ⟨_, op', ops', hphase', _, total, hmem, hcount⟩
    cases hphase.symm.trans hphase'
    have howed := owed_of_mem (t := { t with threw := true }) _ hphase (List.mem_cons_of_mem op hmem)
    exact hcount (howed.symm.trans (h rfl total))
  · intro h _ total
    by_cases hmem : Op.add total ∈ op :: ops
    · rw [owed_of_mem (t := { t with threw := true }) _ hphase hmem]
      have htail : Op.add total ∈ ops := by
        rcases List.mem_cons.mp hmem with rfl | htail
        · cases hmay
        · exact htail
      by_contra hcount
      exact h ⟨rfl, op, ops, hphase, hmay, total, htail, hcount⟩
    · exact owed_of_notMem (t := { t with threw := true }) _ hphase hmem

/-- A step leaves a thread settled if and only if it was and loses nothing. -/
theorem step_settled (hvalid : t.Valid) (hstep : t.step w a s = some (s', t')) :
    t'.Settled ↔ t.Settled ∧ ¬ t.Loses w a := by
  obtain ⟨hthrew, hmove⟩ := move_of_step hstep
  have hphaseValid := hvalid.phase
  have hsettled : t.Settled := fun h => by
    rw [hthrew] at h
    cases h
  have hkept : ∀ {t' : Thread}, t'.threw = t.threw → ¬ t.Loses w a →
      (t'.Settled ↔ t.Settled ∧ ¬ t.Loses w a) := by
    intro t' hsame hloses
    refine iff_of_true (fun h => ?_) ⟨hsettled, hloses⟩
    rw [hsame, hthrew] at h
    cases h
  have hnothing : ∀ {total}, (∀ ops, t.phase ≠ .leaving ops) → t.loop.performed = [] →
      t.connected = none → Thread.owed { t with threw := true } total = 0 := by
    intro total hne hperformed hconnected
    rw [owed_eq_count (t := { t with threw := true }) hne]
    exact count_eq_zero hperformed hconnected
  cases hmove with
  | emptyList b hphase _ => exact hkept rfl id
  | created hphase => exact hkept rfl id
  | connected errorString hphase => exact hkept rfl id
  | refused errorString hphase => exact hkept rfl id
  | passed answer l hphase hr => exact hkept rfl (not_loses_of_loopStep (by simp) hr)
  | left answer l exit hphase hexit hr =>
    exact hkept rfl (not_loses_of_loopStep (by simpa using hexit) hr)
  | operated b op ops hphase hok =>
    refine hkept rfl ?_
    rintro ⟨rfl, op', ops', hphase', hmay, _⟩
    cases hphase.symm.trans hphase'
    rw [hmay] at hok
    cases hok
  | startThrew hphase =>
    rw [hphase] at hphaseValid
    exact iff_of_true (fun _ total => hnothing (by simp [hphase]) hphaseValid.1 hphaseValid.2)
      ⟨hsettled, id⟩
  | connectThrew hphase =>
    rw [hphase] at hphaseValid
    exact iff_of_true (fun _ total => hnothing (by simp [hphase]) hphaseValid.1 hphaseValid.2)
      ⟨hsettled, id⟩
  | loopThrew answer l hphase hr =>
    rw [loopThrew_settled hvalid hphase hr]
    exact (and_iff_right hsettled).symm
  | operationThrew op ops hphase hmay =>
    rw [operationThrew_settled hphase hmay]
    exact (and_iff_right hsettled).symm

end

/-! ### The totals in the end -/

/-- What the threads have done, all together. -/
def counts (c : Interleaving.Config Shared Thread) (total : Total) : Nat :=
  (c.locals.map fun t => t.count total).sum

section
variable {w : Worker} {threads : Nat} {es : List (Nat × Action)}
  {c : Interleaving.Config Shared Thread}

theorem valid_of_mem_initial {t : Thread} (ht : t ∈ (initial threads).locals) : t.Valid := by
  obtain ⟨number, _, rfl⟩ := List.mem_map.mp ht
  exact valid_initial number

theorem totals_lt (h : run (Thread.step w) (initial threads) es = some c) (total : Total) :
    c.shared.totals total < 2 ^ 64 := by
  refine run_invariant (I := fun c => ∀ total, c.shared.totals total < 2 ^ 64) ?_ ?_ h total
  · rintro c ⟨k, a⟩ c' hc hnext
    obtain ⟨t, s', t', _, hstep, rfl⟩ := next_eq_some.mp hnext
    intro total
    cases (move_of_step hstep).2 with
    | operated b op ops _ _ =>
      cases op with
      | add other =>
        simp only [Shared.apply]
        split
        · exact Nat.mod_lt _ (by decide)
        · exact hc total
      | _ => exact hc total
    | _ => exact hc total
  · intro total
    show 0 < 2 ^ 64
    decide

/-- Whatever the interleaving, a total is the sum of what is booked in it. -/
theorem totals_eq_booked (h : run (Thread.step w) (initial threads) es = some c) (total : Total) :
    c.shared.totals total = (c.locals.map fun t => t.booked total).sum % 2 ^ 64 := by
  have hcast : ∀ ls : List Thread, (ls.map fun t => ((t.booked total : ℕ) : ZMod (2 ^ 64))).sum =
      ((ls.map fun t => t.booked total).sum : ℕ) := by
    intro ls
    rw [Nat.cast_list_sum, List.map_map]
    rfl
  have hbalance := run_balance (fun s : Shared => ((s.totals total : ℕ) : ZMod (2 ^ 64)))
    (fun t : Thread => ((t.booked total : ℕ) : ZMod (2 ^ 64))) Thread.Valid.step
    (step_balance total) (fun _ => valid_of_mem_initial) h
  have hzero : ((initial threads).locals.map fun t => t.booked total).sum = 0 := by
    refine List.sum_eq_zero fun n hn => ?_
    obtain ⟨t, ht, rfl⟩ := List.mem_map.mp hn
    obtain ⟨number, _, rfl⟩ := List.mem_map.mp ht
    rfl
  have hstart : (initial threads).shared.totals total = 0 := rfl
  simp only [hcast, hzero, hstart, sub_self, sub_eq_zero] at hbalance
  rw [← Nat.mod_eq_of_lt (totals_lt h total)]
  exact (ZMod.natCast_eq_natCast_iff' _ _ _).mp hbalance

/-- Nothing was lost on the way if and only if no thread that threw owes anything in the end. -/
theorem settled_iff (h : run (Thread.step w) (initial threads) es = some c) :
    (∀ t ∈ c.locals, t.Settled) ↔
      Along (Thread.step w) (fun t a => ¬ t.Loses w a) (initial threads) es := by
  rw [run_along (P := fun t a => ¬ t.Loses w a) (fun hvalid => hvalid.step (w := w))
    (fun hvalid => step_settled hvalid) (fun _ => valid_of_mem_initial) h]
  refine and_iff_right fun t ht => ?_
  obtain ⟨number, _, rfl⟩ := List.mem_map.mp ht
  intro hthrew
  cases hthrew

theorem sum_booked_add_owed (ls : List Thread) (total : Total) :
    (ls.map fun t => t.booked total).sum + (ls.map fun t => t.owed total).sum =
      (ls.map fun t => t.count total).sum := by
  rw [← List.sum_map_add]
  simp only [booked_add_owed]

/-- **The totals.** Once all threads are joined, each total is the number of what it counts exactly
when no thread has thrown while something was not added, and the numbers fit their counters. -/
theorem totals_eq_iff (w : Worker) (threads : Nat) (es : List (Nat × Action))
    (c : Interleaving.Config Shared Thread)
    (h : run (Thread.step w) (initial threads) es = some c) (hjoined : ∀ t ∈ c.locals, t.Joined) :
    c.shared.totals = counts c ↔
      Along (Thread.step w) (fun t a => ¬ t.Loses w a) (initial threads) es ∧
        ∀ total, counts c total < 2 ^ 64 := by
  rw [← settled_iff h]
  have hsum := sum_booked_add_owed c.locals
  constructor
  · intro htotals
    have hlt : ∀ total, counts c total < 2 ^ 64 := fun total => htotals ▸ totals_lt h total
    refine ⟨fun t ht _ total => ?_, hlt⟩
    have howed : (c.locals.map fun t => t.owed total).sum = 0 := by
      have hbooked := totals_eq_booked h total
      have hcount := hlt total
      rw [htotals] at hbooked
      unfold counts at hbooked hcount
      rw [← hsum total] at hbooked hcount
      rw [Nat.mod_eq_of_lt (by omega)] at hbooked
      omega
    exact List.sum_eq_zero_iff.mp howed _ (List.mem_map_of_mem ht)
  · rintro ⟨hsettled, hlt⟩
    have howed : ∀ total, (c.locals.map fun t => t.owed total).sum = 0 := by
      intro total
      refine List.sum_eq_zero fun n hn => ?_
      obtain ⟨t, ht, rfl⟩ := List.mem_map.mp hn
      rcases hjoined t ht with hthrew | hphase
      · exact hsettled t ht hthrew total
      · exact owed_of_notMem _ hphase List.not_mem_nil
    funext total
    have hcount := hsum total
    rw [howed total, Nat.add_zero] at hcount
    rw [totals_eq_booked h total, hcount]
    exact Nat.mod_eq_of_lt (hlt total)

end

/-- One query for each thread, with the log of all queries. -/
def oneQuery : Worker :=
  { params := { queries_per_thread := 1, log_all_queries := true }, queryList := ["SELECT 1".toList] }

/-- Two threads, one of which is refused while the other one performs its query. -/
def refusedRun : List (Nat × Action) :=
  [(0, .start true), (1, .start true), (1, .connect (some (false, []))),
    (0, .connect (some (true, []))), (0, .iterate .quiet), (1, .operate true), (1, .operate true),
    (1, .operate true), (0, .iterate .quiet), (1, .operate true), (0, .operate true),
    (1, .operate true), (0, .operate true), (1, .operate true), (0, .operate true)]

theorem totals_eq_iff_refused :
    ∃ c, run (Thread.step oneQuery) (initial 2) refusedRun = some c ∧ c.shared.totals = counts c ∧
      counts c .performed_queries_total = 1 ∧ counts c .failed_connections_total = 1 := by
  have hrun : (run (Thread.step oneQuery) (initial 2) refusedRun).map (fun c =>
      (c.locals.all fun t => !t.threw && t.phase == .leaving [], counts c .performed_queries_total,
        counts c .failed_queries_total, counts c .failed_connections_total)) =
      some (true, 1, 0, 1) := by
    decide +kernel
  obtain ⟨c, hc, hfields⟩ := Option.map_eq_some_iff.mp hrun
  simp only [Prod.mk.injEq, List.all_eq_true, Bool.and_eq_true, Bool.not_eq_true',
    beq_iff_eq] at hfields
  obtain ⟨hthreads, hperformed, hfailed, hconnections⟩ := hfields
  have htotals := (totals_eq_iff oneQuery 2 refusedRun c hc fun t ht =>
    Or.inr (hthreads t ht).2).mpr ⟨?_, ?_⟩
  · exact ⟨c, hc, htotals, hperformed, hconnections⟩
  · refine (settled_iff hc).mp fun t ht hthrew => ?_
    rw [(hthreads t ht).1] at hthrew
    cases hthrew
  · intro total
    cases total <;> omega

/-- A query whose record cannot be written is performed and not counted. -/
theorem not_totals_eq :
    ∃ es c, run (Thread.step oneQuery) (initial 1) es = some c ∧
      (∀ t ∈ c.locals, t.Joined) ∧ c.shared.totals ≠ counts c := by
  have hrun : (run (Thread.step oneQuery) (initial 1) [(0, .start true),
      (0, .connect (some (true, []))),
      (0, .iterate { Answer.quiet with failsAt := some 0 })]).map (fun c =>
      (c.locals.all fun t => t.threw, c.shared.totals .performed_queries_total,
        counts c .performed_queries_total)) = some (true, 0, 1) := by
    decide +kernel
  obtain ⟨c, hc, hfields⟩ := Option.map_eq_some_iff.mp hrun
  simp only [Prod.mk.injEq, List.all_eq_true] at hfields
  obtain ⟨hthreads, htotal, hcount⟩ := hfields
  refine ⟨_, c, hc, fun t ht => Or.inl (hthreads t ht), fun h => ?_⟩
  have := congrFun h .performed_queries_total
  omega

end PQuery.DbWorker

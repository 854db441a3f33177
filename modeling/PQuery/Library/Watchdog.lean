import Mathlib.Data.List.Basic

/-!
# Watchdogs

A clock is read now and then. A watchdog raises its first alarm at the first reading after its
deadline and another one at every reading that comes more than a grace period later. Where the
readings keep a distance and soon end after an alarm that is raised again, there are not many of them
(`length_readings_le`).
-/

namespace Watchdog

inductive Alarm
  | raised
  | repeated
deriving DecidableEq, Repr

/-- The alarms, each with its reading. -/
def alarms (deadline grace : Nat) (readings : List Nat) : List (Alarm × Nat) :=
  match readings.dropWhile (· ≤ deadline) with
  | [] => []
  | t :: later => (.raised, t) :: (later.filter (t + grace < ·)).map (Prod.mk .repeated)

theorem alarms_cons (deadline grace t : Nat) (readings : List Nat) :
    alarms deadline grace (t :: readings) =
      if deadline < t then (.raised, t) :: (readings.filter (t + grace < ·)).map (Prod.mk .repeated)
      else alarms deadline grace readings := by
  unfold alarms
  rw [List.dropWhile_cons]
  by_cases ht : deadline < t
  · rw [if_neg (by simpa using ht), if_pos ht]
  · rw [if_pos (by simpa using ht), if_neg ht]

theorem alarms_append_cons {deadline : Nat} {early : List Nat} (grace : Nat) {t : Nat} (later : List Nat)
    (hearly : ∀ t ∈ early, t ≤ deadline) (ht : deadline < t) :
    alarms deadline grace (early ++ t :: later) =
      (.raised, t) :: (later.filter (t + grace < ·)).map (Prod.mk .repeated) := by
  induction early with
  | nil => rw [List.nil_append, alarms_cons, if_pos ht]
  | cons s early ih =>
    obtain ⟨hs, hearly⟩ := List.forall_mem_cons.mp hearly
    rw [List.cons_append, alarms_cons, if_neg (by omega)]
    exact ih hearly

/-! ### How many readings there are -/

/-- Readings at a distance of at least `period`. -/
def Spaced (period : Nat) (readings : List Nat) : Prop := readings.Pairwise fun t t' => t + period ≤ t'

variable {period deadline grace reap start t last : Nat} {readings : List Nat}

theorem length_after_le (hperiod : 0 < period) (h : Spaced period (t :: readings))
    (hlast : ∀ s ∈ readings, s ≤ last) : readings.length ≤ (last - t) / period := by
  induction readings generalizing t with
  | nil => exact Nat.zero_le _
  | cons s readings ih =>
    obtain ⟨ht, hs⟩ := List.pairwise_cons.mp h
    obtain ⟨hsl, hlast⟩ := List.forall_mem_cons.mp hlast
    have hgap : t + period ≤ s := ht s List.mem_cons_self
    calc readings.length + 1 ≤ (last - s) / period + 1 := Nat.succ_le_succ (ih hs hlast)
      _ = (last - s + period) / period := (Nat.add_div_right _ hperiod).symm
      _ ≤ (last - t) / period := Nat.div_le_div_right (by omega)

theorem length_within_le (hperiod : 0 < period) (h : Spaced period readings)
    (hstart : ∀ s ∈ readings, start ≤ s) (hlast : ∀ s ∈ readings, s ≤ last) :
    readings.length ≤ (last - start) / period + 1 := by
  cases readings with
  | nil => exact Nat.zero_le _
  | cons s readings =>
    have hs : start ≤ s := hstart s List.mem_cons_self
    calc readings.length + 1 ≤ (last - s) / period + 1 :=
          Nat.succ_le_succ (length_after_le hperiod h (List.forall_mem_cons.mp hlast).2)
      _ ≤ (last - start) / period + 1 := Nat.succ_le_succ (Nat.div_le_div_right (by omega))

theorem exists_split (last : Nat) (readings : List Nat) : ∃ early late, readings = early ++ late ∧
    (∀ s ∈ early, s ≤ last) ∧ ∀ s ∈ late.head?, last < s := by
  refine ⟨readings.takeWhile (· ≤ last), readings.dropWhile (· ≤ last), ?_, fun s hs => ?_, fun s hs => ?_⟩
  · exact (List.takeWhile_append_dropWhile).symm
  · simpa using List.all_eq_true.mp List.all_takeWhile s hs
  · have hhead := List.head?_dropWhile_not (fun s => decide (s ≤ last)) readings
    rw [Option.mem_def.mp hs] at hhead
    simpa using hhead

/-- Where an alarm that is raised again is followed by readings for a time `reap` only, the readings are
those until the deadline, those of one grace period and those of the time `reap`. -/
theorem length_readings_le (hperiod : 0 < period) (h : Spaced period readings)
    (hstart : ∀ s ∈ readings, start ≤ s)
    (hreap : ∀ before now after, readings = before ++ now :: after →
      ∀ k, (.repeated, k) ∈ alarms deadline grace before → now ≤ k + reap) :
    readings.length ≤ (deadline - start) / period + grace / period + reap / period + 3 := by
  obtain ⟨early, late, rfl, hearly, hlate⟩ := exists_split deadline readings
  obtain ⟨hspacedEarly, hspacedLate, -⟩ := List.pairwise_append.mp h
  have hcountEarly : early.length ≤ (deadline - start) / period + 1 :=
    length_within_le hperiod hspacedEarly (fun s hs => hstart s (List.mem_append_left _ hs)) hearly
  cases late with
  | nil =>
    have hnone : 0 ≤ grace / period + reap / period := Nat.zero_le _
    rw [List.append_nil]
    omega
  | cons t later =>
    have ht : deadline < t := hlate t rfl
    obtain ⟨graced, rest, rfl, hgraced, hrest⟩ := exists_split (t + grace) later
    have hcountGraced : graced.length ≤ grace / period := by
      have hspaced : Spaced period (t :: graced) :=
        hspacedLate.sublist (List.cons_sublist_cons.mpr (List.sublist_append_left graced rest))
      simpa using length_after_le hperiod hspaced hgraced
    cases rest with
    | nil =>
      have hnone : 0 ≤ reap / period := Nat.zero_le _
      simp only [List.length_append, List.length_cons, List.length_nil]
      omega
    | cons k final =>
      have hk : t + grace < k := hrest k rfl
      have hspaced : Spaced period (k :: final) :=
        (hspacedLate.sublist (List.sublist_cons_self t _)).sublist (List.sublist_append_right graced _)
      have hfinal : ∀ s ∈ final, s ≤ k + reap := by
        intro s hs
        obtain ⟨middle, after, rfl⟩ := List.append_of_mem hs
        refine hreap (early ++ t :: (graced ++ k :: middle)) s after (by simp) k ?_
        rw [alarms_append_cons grace _ hearly ht]
        refine List.mem_cons_of_mem _ (List.mem_map_of_mem (List.mem_filter.mpr ⟨?_, by simpa using hk⟩))
        exact List.mem_append_right _ List.mem_cons_self
      have hcountFinal : final.length ≤ reap / period := by
        simpa using length_after_le hperiod hspaced hfinal
      simp only [List.length_append, List.length_cons]
      omega

end Watchdog

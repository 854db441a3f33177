import Mathlib.Algebra.Order.BigOperators.Group.List
import Mathlib.Algebra.Order.Ring.Nat
import Mathlib.Data.List.Infix

/-!
# Lists scattered over a text

Lists are `Scattered` over a text if each of them is a sublist of a stretch of it, the stretches
come one behind the other in the order of the lists, and there is something between any two. Nothing
of the text is then used twice, and the lists and the gaps between them fit into it
(`Scattered.length_add_le`).
-/

variable {α : Type*}

inductive Scattered : List (List α) → List α → Prop
  | nil (text : List α) : Scattered [] text
  | single {q text : List α} (h : q.Sublist text) : Scattered [q] text
  | cons {q u v : List α} {x : α} {qs : List (List α)} (h : q.Sublist u) (hqs : Scattered qs v) :
      Scattered (q :: qs) (u ++ x :: v)

namespace Scattered
variable {qs : List (List α)} {text text' : List α}

theorem mono (h : Scattered qs text) (hsub : text.Sublist text') : Scattered qs text' := by
  induction h generalizing text' with
  | nil text => exact .nil _
  | single h => exact .single (h.trans hsub)
  | cons h _ ih =>
    obtain ⟨u', rest, rfl, hu, hrest⟩ := List.append_sublist_iff.mp hsub
    obtain ⟨gap, v', rfl, hgap, hv⟩ := List.cons_sublist_iff.mp hrest
    obtain ⟨gap₁, gap₂, rfl⟩ := List.append_of_mem hgap
    have hstretch : u'.Sublist (u' ++ gap₁) := List.sublist_append_left _ _
    have hbehind := ih (hv.trans (List.sublist_append_right gap₂ v'))
    simpa using cons (h.trans (hu.trans hstretch)) hbehind

theorem cons_of_ne_nil {q u gap v : List α} (h : q.Sublist u) (hgap : gap ≠ [])
    (hqs : Scattered qs v) : Scattered (q :: qs) (u ++ (gap ++ v)) := by
  obtain ⟨x, gap, rfl⟩ := List.exists_cons_of_ne_nil hgap
  exact cons h (hqs.mono (List.sublist_append_right gap v))

theorem flatten_sublist (h : Scattered qs text) : qs.flatten.Sublist text := by
  induction h with
  | nil text => exact List.nil_sublist text
  | single h => simpa using h
  | @cons q u v x qs h _ ih =>
    rw [List.flatten_cons]
    exact h.append (ih.trans (List.sublist_cons_self x v))

theorem length_add_le (h : Scattered qs text) :
    (qs.map List.length).sum + qs.length ≤ text.length + 1 := by
  induction h with
  | nil text => simp
  | single h =>
    have hle := h.length_le
    simpa using hle
  | cons h _ ih =>
    have hle := h.length_le
    simp only [List.map_cons, List.sum_cons, List.length_cons, List.length_append]
    omega

/-- Lists that are not empty, and the gaps between them. -/
theorem two_mul_length_le (h : Scattered qs text) (hne : ∀ q ∈ qs, q ≠ []) :
    2 * qs.length ≤ text.length + 1 := by
  have hlengths : qs.length ≤ (qs.map List.length).sum := by
    calc qs.length = (qs.map fun _ => 1).sum := by simp
      _ ≤ (qs.map List.length).sum := List.sum_le_sum fun q hq => List.length_pos_iff.mpr (hne q hq)
  have hle := h.length_add_le
  omega

theorem eq_nil_of_nil (h : Scattered qs ([] : List α)) (hne : ∀ q ∈ qs, q ≠ []) : qs = [] := by
  have hle := h.two_mul_length_le hne
  rw [List.length_nil] at hle
  exact List.length_eq_zero_iff.mp (by omega)

theorem sublist_dropLast {q : List α} {x : α} (h : q.Sublist (text ++ [x])) (hx : x ∉ q.getLast?) :
    q.Sublist text := by
  obtain ⟨a, b, rfl, ha, hb⟩ := List.sublist_append_iff.mp h
  rcases List.sublist_singleton.mp hb with rfl | rfl
  · simpa using ha
  · simp at hx

theorem dropLast {x : α} (h : Scattered qs (text ++ [x])) (hqs : ∀ q ∈ qs, q ≠ [] ∧ x ∉ q.getLast?) :
    Scattered qs text := by
  generalize hall : text ++ [x] = all at h
  induction h generalizing text with
  | nil all => exact .nil text
  | single h =>
    rw [← hall] at h
    exact .single (sublist_dropLast h (hqs _ (by simp)).2)
  | @cons q u v y qs h hrest ih =>
    rcases List.eq_nil_or_concat v with rfl | ⟨v, z, rfl⟩
    · obtain ⟨rfl, -⟩ := List.append_inj' hall rfl
      have hnone := eq_nil_of_nil hrest fun q hq => (hqs q (List.mem_cons_of_mem _ hq)).1
      rw [hnone]
      exact .single h
    · rw [List.concat_eq_append] at hall ih
      have hsplit : text ++ [x] = (u ++ y :: v) ++ [z] := by simpa using hall
      obtain ⟨rfl, hlast⟩ := List.append_inj' hsplit rfl
      obtain rfl := List.singleton_inj.mp hlast
      exact .cons h (ih (fun q hq => hqs q (List.mem_cons_of_mem _ hq)) rfl)

end Scattered

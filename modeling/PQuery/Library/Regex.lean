import Mathlib.Data.List.Basic

/-!
# Regular expressions with groups

Regular expressions over an arbitrary alphabet whose letters are classes of letters, with numbered
groups. A match is a relation between an expression, the text that it matches as a whole and the
texts of the groups in the order in which they are closed (`Matches`). The text of a group is that of
its last round (`capture`), and of several matches a greedy group prefers a longest one (`Greedy`).
-/

inductive Regex (α : Type*)
  | cls (p : α → Bool)
  | seq (r s : Regex α)
  | star (r : Regex α)
  | group (i : Nat) (r : Regex α)

namespace Regex

variable {α : Type*}

/-- One round at least. -/
def plus (r : Regex α) : Regex α := seq r (star r)

/-- The groups closed so far, with their texts. -/
abbrev Groups (α : Type*) := List (Nat × List α)

inductive Matches : Regex α → List α → Groups α → Prop
  | cls {p : α → Bool} {c : α} (h : p c = true) : Matches (cls p) [c] []
  | seq {r s : Regex α} {u v : List α} {xs ys : Groups α} (hr : Matches r u xs)
      (hs : Matches s v ys) : Matches (seq r s) (u ++ v) (xs ++ ys)
  | star_nil {r : Regex α} : Matches (star r) [] []
  | star_cons {r : Regex α} {u v : List α} {xs ys : Groups α} (hr : Matches r u xs)
      (hs : Matches (star r) v ys) : Matches (star r) (u ++ v) (xs ++ ys)
  | group {i : Nat} {r : Regex α} {u : List α} {xs : Groups α} (hr : Matches r u xs) :
      Matches (group i r) u (xs ++ [(i, u)])

/-- The text of a group. -/
def capture (i : Nat) (groups : Groups α) : Option (List α) := groups.reverse.lookup i

/-- A match whose group `i` is a longest one. -/
def Greedy (r : Regex α) (i : Nat) (text : List α) (groups : Groups α) : Prop :=
  Matches r text groups ∧ ∀ groups', Matches r text groups' →
    ∀ u ∈ capture i groups, ∀ u' ∈ capture i groups', u'.length ≤ u.length

theorem capture_last (i : Nat) (u : List α) (xs : Groups α) :
    capture i (xs ++ [(i, u)]) = some u := by
  simp [capture]

theorem capture_append {i : Nat} {ys : Groups α} (h : ∀ y ∈ ys, y.1 ≠ i) (xs : Groups α) :
    capture i (xs ++ ys) = capture i xs := by
  have hnone : ys.reverse.lookup i = none := by
    rw [List.lookup_eq_none_iff]
    intro y hy
    simpa using Ne.symm (h y (List.mem_reverse.mp hy))
  rw [capture, capture, List.reverse_append, List.lookup_append, hnone]
  rfl

/-! ### Matches by the form of the expression -/

theorem matches_cls_iff {p : α → Bool} {u : List α} {xs : Groups α} :
    Matches (cls p) u xs ↔ xs = [] ∧ ∃ c, u = [c] ∧ p c = true := by
  constructor
  · rintro ⟨⟩
    exact ⟨rfl, _, rfl, ‹_›⟩
  · rintro ⟨rfl, c, rfl, h⟩
    exact .cls h

theorem matches_seq_iff {r s : Regex α} {w : List α} {zs : Groups α} :
    Matches (seq r s) w zs ↔
      ∃ u v xs ys, w = u ++ v ∧ zs = xs ++ ys ∧ Matches r u xs ∧ Matches s v ys := by
  constructor
  · rintro ⟨⟩
    exact ⟨_, _, _, _, rfl, rfl, ‹_›, ‹_›⟩
  · rintro ⟨u, v, xs, ys, rfl, rfl, hr, hs⟩
    exact .seq hr hs

theorem matches_group_iff {i : Nat} {r : Regex α} {u : List α} {zs : Groups α} :
    Matches (group i r) u zs ↔ ∃ xs, zs = xs ++ [(i, u)] ∧ Matches r u xs := by
  constructor
  · rintro ⟨⟩
    exact ⟨_, rfl, ‹_›⟩
  · rintro ⟨xs, rfl, h⟩
    exact .group h

/-- What holds of no round and is kept by one more round holds of every repetition. -/
theorem Matches.star_induction {r : Regex α} {P : List α → Groups α → Prop} (hnil : P [] [])
    (hcons : ∀ {u v xs ys}, Matches r u xs → P v ys → P (u ++ v) (xs ++ ys)) {w : List α}
    {zs : Groups α} (h : Matches (star r) w zs) : P w zs := by
  generalize hs : star r = s at h
  induction h with
  | star_nil => exact hnil
  | star_cons hr _ _ ih =>
    cases hs
    exact hcons hr (ih rfl)
  | _ => cases hs

theorem matches_star_cls_iff {p : α → Bool} {u : List α} {xs : Groups α} :
    Matches (star (cls p)) u xs ↔ xs = [] ∧ ∀ c ∈ u, p c = true := by
  constructor
  · refine Matches.star_induction (P := fun u xs => xs = [] ∧ ∀ c ∈ u, p c = true) ⟨rfl, by simp⟩ ?_
    rintro u v xs ys hr ⟨rfl, hv⟩
    obtain ⟨rfl, c, rfl, hc⟩ := matches_cls_iff.mp hr
    exact ⟨rfl, by simpa using ⟨hc, hv⟩⟩
  · rintro ⟨rfl, h⟩
    induction u with
    | nil => exact .star_nil
    | cons c u ih =>
      rw [List.forall_mem_cons] at h
      exact .star_cons (.cls h.1) (ih h.2)

theorem matches_plus_cls_iff {p : α → Bool} {u : List α} {xs : Groups α} :
    Matches (plus (cls p)) u xs ↔ xs = [] ∧ u ≠ [] ∧ ∀ c ∈ u, p c = true := by
  rw [plus, matches_seq_iff]
  constructor
  · rintro ⟨u, v, xs, ys, rfl, rfl, hr, hs⟩
    obtain ⟨rfl, c, rfl, hc⟩ := matches_cls_iff.mp hr
    obtain ⟨rfl, hv⟩ := matches_star_cls_iff.mp hs
    exact ⟨rfl, by simp, by simpa using ⟨hc, hv⟩⟩
  · rintro ⟨rfl, hne, h⟩
    obtain ⟨c, u, rfl⟩ := List.exists_cons_of_ne_nil hne
    rw [List.forall_mem_cons] at h
    exact ⟨[c], u, [], [], rfl, rfl, .cls h.1, matches_star_cls_iff.mpr ⟨rfl, h.2⟩⟩

end Regex

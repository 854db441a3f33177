import Mathlib.Data.List.Count
import Mathlib.Logic.Function.Basic

/-!
# Resources with one owner

Resources are numbered in the order in which they are made. An owner holds at most one of them: it
gets a new one, gives it to an owner that holds none, or releases it. `Ledger.Sound` is what these
moves keep: no resource has two owners, one that is held has not been released, and one that is held no
longer has been released once. A history is `Lawful` where each of its entries is one that those before it
allow.
-/

namespace Ownership

variable {κ : Type*}

structure Ledger (κ : Type*) where
  holds : κ → Option Nat
  /-- How many resources have been made. -/
  made : Nat
  /-- The releases so far. -/
  released : List Nat

namespace Ledger

/-- No resource has two owners, and each is held or has been released, once. -/
structure Sound (l : Ledger κ) : Prop where
  unique : ∀ x y p, l.holds x = some p → l.holds y = some p → x = y
  held : ∀ x p, l.holds x = some p → p < l.made ∧ l.released.count p = 0
  unheld : ∀ p < l.made, (∀ x, l.holds x ≠ some p) → l.released.count p = 1
  fresh : ∀ p, l.made ≤ p → l.released.count p = 0

theorem sound_empty : ({ holds := fun _ => none, made := 0, released := [] } : Ledger κ).Sound :=
  ⟨by simp, by simp, by simp, by simp⟩

theorem Sound.count_le_one {l : Ledger κ} (h : l.Sound) (p : Nat) : l.released.count p ≤ 1 := by
  by_cases hp : p < l.made
  · by_cases hheld : ∃ x, l.holds x = some p
    · obtain ⟨x, hx⟩ := hheld
      rw [(h.held x p hx).2]
      omega
    · exact Nat.le_of_eq (h.unheld p hp fun x hx => hheld ⟨x, hx⟩)
  · rw [h.fresh p (by omega)]
    omega

variable [DecidableEq κ]

def acquire (l : Ledger κ) (x : κ) : Ledger κ :=
  { l with holds := Function.update l.holds x (some l.made), made := l.made + 1 }

/-- The resource of `y`, if any, goes to `x`. -/
def give (l : Ledger κ) (x y : κ) : Ledger κ :=
  { l with holds := Function.update (Function.update l.holds x (l.holds y)) y none }

def release (l : Ledger κ) (x : κ) : Ledger κ :=
  { l with holds := Function.update l.holds x none, released := l.released ++ (l.holds x).toList }

variable {l : Ledger κ} {x y : κ}

theorem Sound.acquire (h : l.Sound) (hx : l.holds x = none) : (l.acquire x).Sound := by
  have hnew : ∀ y, l.holds y ≠ some l.made := fun y hy =>
    Nat.lt_irrefl _ (h.held y _ hy).1
  refine ⟨fun y z p hy hz => ?_, fun y p hy => ?_, fun p hp hnone => ?_, fun p hp => ?_⟩
  · simp only [Ledger.acquire, Function.update_apply] at hy hz
    split_ifs at hy hz with hyx hzx hzx
    · rw [hyx, hzx]
    · exact absurd (hz.trans hy.symm) (hnew z)
    · exact absurd (hy.trans hz.symm) (hnew y)
    · exact h.unique y z p hy hz
  · simp only [Ledger.acquire, Function.update_apply] at hy ⊢
    split_ifs at hy with hyx
    · obtain rfl := Option.some.inj hy
      exact ⟨by omega, h.fresh _ (Nat.le_refl _)⟩
    · obtain ⟨hlt, hcount⟩ := h.held y p hy
      exact ⟨by omega, hcount⟩
  · have hxp := hnone x
    simp only [Ledger.acquire, Function.update_self, ne_eq, Option.some.injEq] at hp hxp
    refine h.unheld p (by omega) fun y hy => ?_
    have hyx : y ≠ x := by
      rintro rfl
      rw [hx] at hy
      cases hy
    refine hnone y ?_
    simp only [Ledger.acquire, Function.update_of_ne hyx]
    exact hy
  · simp only [Ledger.acquire] at hp ⊢
    exact h.fresh p (by omega)

theorem Sound.give (h : l.Sound) (hxy : x ≠ y) (hx : l.holds x = none) : (l.give x y).Sound := by
  -- the holder of a resource after the move held it before, or had it given
  have hholds : ∀ z p, (l.give x y).holds z = some p →
      z ≠ y ∧ l.holds (if z = x then y else z) = some p := by
    intro z p hz
    simp only [Ledger.give, Function.update_apply] at hz
    split_ifs at hz with hzy hzx
    · exact ⟨hzy, by rw [if_pos hzx]; exact hz⟩
    · exact ⟨hzy, by rw [if_neg hzx]; exact hz⟩
  refine ⟨fun z w p hz hw => ?_, fun z p hz => ?_, fun p hp hnone => ?_, h.fresh⟩
  · obtain ⟨hzy, hz⟩ := hholds z p hz
    obtain ⟨hwy, hw⟩ := hholds w p hw
    have heq := h.unique _ _ p hz hw
    split_ifs at heq with hzx hwx hwx
    · rw [hzx, hwx]
    · exact absurd heq.symm hwy
    · exact absurd heq hzy
    · exact heq
  · exact h.held _ p (hholds z p hz).2
  · refine h.unheld p hp fun z hz => ?_
    by_cases hzy : z = y
    · refine hnone x ?_
      simp only [Ledger.give, Function.update_of_ne hxy, Function.update_self]
      rwa [← hzy]
    · have hzx : z ≠ x := by
        rintro rfl
        rw [hx] at hz
        cases hz
      refine hnone z ?_
      simp only [Ledger.give, Function.update_of_ne hzy, Function.update_of_ne hzx]
      exact hz

theorem Sound.release (h : l.Sound) (x : κ) : (l.release x).Sound := by
  have hother : ∀ y p, (l.release x).holds y = some p → y ≠ x ∧ l.holds y = some p := by
    intro y p hy
    simp only [Ledger.release, Function.update_apply] at hy
    split_ifs at hy with hyx
    exact ⟨hyx, hy⟩
  cases hx : l.holds x with
  | none =>
    have hsame : l.release x = l := by
      simp only [Ledger.release, hx, Option.toList_none, List.append_nil]
      rw [← hx, Function.update_eq_self]
    rwa [hsame]
  | some q =>
    obtain ⟨hq, hcount⟩ := h.held x q hx
    have hcounts : ∀ p, (l.release x).released.count p = l.released.count p + if q = p then 1 else 0 := by
      intro p
      simp only [Ledger.release, hx, Option.toList_some, List.count_append, List.count_singleton, beq_iff_eq]
    refine ⟨fun y z p hy hz => ?_, fun y p hy => ?_, fun p hp hnone => ?_, fun p hp => ?_⟩
    · exact h.unique y z p (hother y p hy).2 (hother z p hz).2
    · obtain ⟨hyx, hy⟩ := hother y p hy
      have hne : q ≠ p := by
        rintro rfl
        exact hyx (h.unique y x q hy hx)
      rw [hcounts, if_neg hne]
      exact h.held y p hy
    · rw [hcounts]
      by_cases hqp : q = p
      · rw [if_pos hqp, ← hqp, hcount]
      · rw [if_neg hqp]
        refine h.unheld p hp fun y hy => hnone y ?_
        have hyx : y ≠ x := by
          rintro rfl
          exact hqp (Option.some.inj (hx.symm.trans hy))
        simp only [Ledger.release, Function.update_of_ne hyx]
        exact hy
    · have hp' : l.made ≤ p := hp
      rw [hcounts, if_neg (by omega)]
      exact h.fresh p hp

end Ledger

/-! ### Histories -/

section
variable {ε : Type*} {Allowed : List ε → ε → Prop} {history : List ε}

/-- Every entry is one that the entries before it allow. -/
def Lawful (Allowed : List ε → ε → Prop) (history : List ε) : Prop :=
  ∀ before e after, history = before ++ e :: after → Allowed before e

theorem lawful_nil : Lawful Allowed [] := by
  intro before e after heq
  cases before <;> cases heq

theorem Lawful.concat (h : Lawful Allowed history) {e : ε} (he : Allowed history e) :
    Lawful Allowed (history ++ [e]) := by
  intro before e' after heq
  rcases List.append_eq_append_iff.mp heq with ⟨mid, rfl, hmid⟩ | ⟨mid, rfl, hmid⟩
  · cases mid with
    | nil =>
      obtain ⟨rfl, -⟩ := List.cons.inj hmid
      rwa [List.append_nil]
    | cons e'' mid => simp at hmid
  · cases mid with
    | nil =>
      obtain ⟨rfl, -⟩ := List.cons.inj hmid
      rwa [List.append_nil] at he
    | cons e'' mid =>
      obtain ⟨rfl, -⟩ := List.cons.inj hmid
      exact h before e' mid rfl

/-- An entry that is allowed only where it has not been made is made once at most. -/
theorem Lawful.count_le_one [BEq ε] [LawfulBEq ε] (h : Lawful Allowed history) {e : ε}
    (honce : ∀ before, Allowed before e → e ∉ before) : history.count e ≤ 1 := by
  by_contra hcount
  obtain ⟨before, after, rfl⟩ := List.append_of_mem (List.count_pos_iff.mp (by omega : 0 < history.count e))
  have hfirst : before.count e = 0 := List.count_eq_zero.mpr (honce before (h before e after rfl))
  have hagain : 0 < after.count e := by
    rw [List.count_append, List.count_cons_self, hfirst] at hcount
    omega
  obtain ⟨mid, after, rfl⟩ := List.append_of_mem (List.count_pos_iff.mp hagain)
  refine honce (before ++ e :: mid) (h (before ++ e :: mid) e after ?_) (List.mem_append_right _ List.mem_cons_self)
  rw [List.append_assoc, List.cons_append]

theorem Lawful.eq_of_mem (h : Lawful Allowed history) {e e' : ε} (he : e ∈ history) (he' : e' ∈ history)
    (hnot : ∀ before, Allowed before e → e' ∉ before) (hnot' : ∀ before, Allowed before e' → e ∉ before) :
    e = e' := by
  obtain ⟨before, after, rfl⟩ := List.append_of_mem he
  rcases List.mem_append.mp he' with hbefore | hafter
  · exact absurd hbefore (hnot before (h before e after rfl))
  · rcases List.mem_cons.mp hafter with rfl | hafter
    · rfl
    · obtain ⟨mid, after, rfl⟩ := List.append_of_mem hafter
      refine absurd (List.mem_append_right before List.mem_cons_self) (hnot' (before ++ e :: mid) (h _ e' after ?_))
      rw [List.append_assoc, List.cons_append]

end

end Ownership

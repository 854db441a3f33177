import Mathlib.Data.List.DropRight
import Mathlib.Data.List.TakeWhile
import Mathlib.Data.List.Infix
import Mathlib.Data.List.Chain

/-!
# First occurrences, lines and trimming of a list

Scanning vocabulary over an arbitrary alphabet: the prefix of a list through the first occurrence
of a pattern (`through`), the lines of a list (`lines`) and the list they spell (`terminated`), and
the list without the members of a class at its two ends (`strip`). A pattern that misses a letter
cannot be matched across that letter (`prefix_append_cons`), which is what makes a scanner that
works line by line agree with one that sees the whole text.
-/

namespace ListScan

variable {α : Type*}

/-! ### Prefixes -/

theorem prefix_append_cons {pat u v : List α} {x : α} (hx : x ∉ pat) :
    pat <+: u ++ x :: v ↔ pat <+: u := by
  refine ⟨fun h => ?_, fun h => h.trans (List.prefix_append u _)⟩
  have hux : u ++ [x] <+: u ++ x :: v := by
    rw [List.append_cons u x v]
    exact List.prefix_append _ _
  rcases List.prefix_or_prefix_of_prefix h hux with h | h
  · rcases List.prefix_concat_iff.mp h with rfl | h
    · exact absurd (by simp) hx
    · exact h
  · exact absurd (h.mem (by simp)) hx

theorem takeWhile_append_cons {p : α → Bool} {u v : List α} {x : α} (hx : p x = false) :
    (u ++ x :: v).takeWhile p = u.takeWhile p := by
  rw [List.takeWhile_append]
  split
  · simp [hx]
    exact ((List.takeWhile_prefix p).eq_of_length ‹_›).symm
  · rfl

theorem takeWhile_dropWhile_append {p : α → Bool} {u v : List α} (hu : ∀ x ∈ u, p x = true)
    (hv : ∀ x ∈ v.head?, p x = false) :
    (u ++ v).takeWhile p = u ∧ (u ++ v).dropWhile p = v := by
  rw [List.takeWhile_append_of_pos hu, List.dropWhile_append_of_pos hu]
  cases v with
  | nil => simp
  | cons y v =>
    have hy : p y = false := hv y rfl
    simp [hy]

theorem drop_takeWhile (p : α → Bool) (xs : List α) :
    xs.drop (xs.takeWhile p).length = xs.dropWhile p := by
  have h := @List.drop_left _ (xs.takeWhile p) (xs.dropWhile p)
  rwa [List.takeWhile_append_dropWhile] at h

theorem append_cons_inj {u u' v v' : List α} {x : α} (hv : x ∉ v) (hv' : x ∉ v')
    (h : u ++ x :: v = u' ++ x :: v') : u = u' ∧ v = v' := by
  rcases List.append_eq_append_iff.mp h with ⟨w, hu', hw⟩ | ⟨w, hu, hw⟩
  · cases w with
    | nil => exact ⟨by simpa using hu'.symm, (List.cons.inj hw).2⟩
    | cons y w =>
      have hmem : x ∈ v := (List.cons.inj hw).2 ▸ by simp
      exact absurd hmem hv
  · cases w with
    | nil => exact ⟨by simpa using hu, (List.cons.inj hw).2.symm⟩
    | cons y w =>
      have hmem : x ∈ v' := (List.cons.inj hw).2 ▸ by simp
      exact absurd hmem hv'

theorem eq_concat_iff [DecidableEq α] {x : α} {xs body : List α} :
    xs = body ++ [x] ∧ x ∉ body ↔
      xs.takeWhile (· ≠ x) = body ∧ xs.length = body.length + 1 := by
  constructor
  · rintro ⟨rfl, hx⟩
    have hbody : ∀ y ∈ body, decide (y ≠ x) = true := fun y hy => by
      simpa using ne_of_mem_of_not_mem hy hx
    exact ⟨(takeWhile_dropWhile_append hbody (by simp)).1, by simp⟩
  · rintro ⟨rfl, hlen⟩
    have hx : x ∉ xs.takeWhile (· ≠ x) := fun hmem => by simpa using List.mem_takeWhile_imp hmem
    have hhead := List.head?_dropWhile_not (fun y => decide (y ≠ x)) xs
    have hsplit := List.takeWhile_append_dropWhile (p := fun y => decide (y ≠ x)) (l := xs)
    have hlength := congrArg List.length hsplit
    rw [List.length_append, hlen] at hlength
    obtain ⟨y, hy⟩ := List.length_eq_one_iff.mp (Nat.add_left_cancel hlength)
    rw [hy] at hsplit hhead
    have hyx : y = x := by simpa using hhead
    rw [hyx] at hsplit
    exact ⟨hsplit.symm, hx⟩

/-! ### First occurrences -/

/-- `body` runs up to the first occurrence of `pat` in `body ++ pat`. -/
def Closes (pat body : List α) : Prop :=
  ∀ k < body.length, ¬ pat <+: (body ++ pat).drop k

theorem closes_nil (pat : List α) : Closes pat [] := by
  intro k hk
  simp at hk

theorem closes_cons {pat body : List α} {x : α} :
    Closes pat (x :: body) ↔ ¬ pat <+: x :: (body ++ pat) ∧ Closes pat body := by
  constructor
  · intro h
    refine ⟨by simpa using h 0 (by simp), fun k hk => ?_⟩
    simpa using h (k + 1) (by simpa using hk)
  · rintro ⟨h0, h⟩ k hk
    cases k with
    | zero => simpa using h0
    | succ k => simpa using h k (by simpa using hk)

theorem prefix_append_of_length_le {pat xs ys : List α} (h : pat.length ≤ xs.length) :
    pat <+: xs ++ ys ↔ pat <+: xs :=
  ⟨fun hp => List.prefix_of_prefix_length_le hp (List.prefix_append xs ys) h,
    fun hp => hp.trans (List.prefix_append xs ys)⟩

section through
variable [DecidableEq α]

/-- The shortest prefix of a list that ends with `pat`; the whole list where `pat` does not occur. -/
def through (pat : List α) : List α → List α
  | [] => []
  | x :: xs => if pat <+: x :: xs then pat else x :: through pat xs

/-- What is left of a list after the first occurrence of `pat`. -/
def after (pat : List α) : List α → List α
  | [] => []
  | x :: xs => if pat <+: x :: xs then (x :: xs).drop pat.length else after pat xs

@[simp] theorem through_append_after (pat xs : List α) : through pat xs ++ after pat xs = xs := by
  induction xs with
  | nil => rfl
  | cons x xs ih =>
    simp only [through, after]
    split
    · exact List.prefix_iff_eq_append.mp ‹_›
    · rw [List.cons_append, ih]

instance (pat body : List α) : Decidable (Closes pat body) :=
  inferInstanceAs (Decidable (∀ k < body.length, ¬ pat <+: (body ++ pat).drop k))

/-- The scan for a pattern stops at the end of a body that it closes. -/
theorem through_of_closes {pat : List α} (hpat : pat ≠ []) {body : List α} (h : Closes pat body)
    (post : List α) :
    through pat (body ++ pat ++ post) = body ++ pat ∧ after pat (body ++ pat ++ post) = post := by
  induction body with
  | nil =>
    obtain ⟨x, pat, rfl⟩ := List.exists_cons_of_ne_nil hpat
    simp [through, after]
  | cons x body ih =>
    obtain ⟨hx, h⟩ := closes_cons.mp h
    have hx' : ¬ pat <+: x :: (body ++ pat ++ post) := by
      rw [← List.cons_append, prefix_append_of_length_le (by simp; omega)]
      exact hx
    simp only [List.cons_append, through, after, if_neg hx', ih h, and_self]

theorem through_isPrefix (pat xs : List α) : through pat xs <+: xs :=
  ⟨after pat xs, through_append_after pat xs⟩

omit [DecidableEq α] in
theorem closes_singleton {x : α} {body : List α} : Closes [x] body ↔ x ∉ body := by
  induction body with
  | nil => simp [closes_nil]
  | cons y body ih =>
    rw [closes_cons, ih]
    simp [List.cons_prefix_cons, not_or]

theorem through_singleton {x : α} {body : List α} (h : x ∉ body) (post : List α) :
    through [x] (body ++ x :: post) = body ++ [x] := by
  have := (through_of_closes (by simp) (closes_singleton.mpr h) post).1
  rwa [List.append_assoc, List.singleton_append] at this

theorem through_of_not_mem {x : α} {xs : List α} (h : x ∉ xs) : through [x] xs = xs := by
  induction xs with
  | nil => rfl
  | cons y xs ih =>
    simp only [List.mem_cons, not_or] at h
    rw [through, if_neg (by simpa [List.cons_prefix_cons] using h.1), ih h.2]

theorem length_lt_through {x : α} {u v : List α} (hu : x ∉ u) (hv : v ≠ []) :
    u.length < (through [x] (u ++ v)).length := by
  induction u with
  | nil =>
    obtain ⟨y, v, rfl⟩ := List.exists_cons_of_ne_nil hv
    rw [List.nil_append, through]
    split <;> simp
  | cons y u ih =>
    simp only [List.mem_cons, not_or] at hu
    have hy : ¬ [x] <+: y :: (u ++ v) := by simpa [List.cons_prefix_cons] using hu.1
    rw [List.cons_append, through, if_neg hy, List.length_cons, List.length_cons]
    exact Nat.succ_lt_succ (ih hu.2)

/-- A first occurrence inside `u` does not depend on what follows `u`. -/
theorem through_local {pat u v : List α} (h : (through pat (u ++ v)).length ≤ u.length) (hv : v ≠ [])
    (v' : List α) : through pat (u ++ v') = through pat (u ++ v) := by
  have key : through pat (u ++ v') = through pat (u ++ v) ∧ pat.length ≤ u.length := by
    induction u with
    | nil =>
      obtain ⟨y, v, rfl⟩ := List.exists_cons_of_ne_nil hv
      rw [List.nil_append, through] at h
      split at h
      · obtain rfl : pat = [] := by simpa using h
        cases v' <;> simp [through]
      · simp at h
    | cons y u ih =>
      simp only [List.cons_append, through] at h ⊢
      by_cases hp : pat <+: y :: (u ++ v)
      · rw [if_pos hp] at h ⊢
        rw [← List.cons_append, prefix_append_of_length_le h] at hp
        rw [if_pos (by rw [← List.cons_append, prefix_append_of_length_le h]; exact hp)]
        exact ⟨rfl, h⟩
      · rw [if_neg hp] at h ⊢
        obtain ⟨heq, hlen⟩ := ih (by simpa using h)
        have hlen' : pat.length ≤ (y :: u).length := by
          rw [List.length_cons]
          omega
        rw [← List.cons_append, prefix_append_of_length_le hlen'] at hp
        rw [if_neg (by rw [← List.cons_append, prefix_append_of_length_le hlen']; exact hp), heq]
        exact ⟨rfl, hlen'⟩
  exact key.1

end through

/-! ### Lines -/

section lines
variable [DecidableEq α]

/-- The lines of a list: the separator ends a line, and an unended last line counts. -/
def lines (sep : α) : List α → List (List α)
  | [] => []
  | x :: xs =>
    if x = sep then [] :: lines sep xs
    else match lines sep xs with
      | [] => [[x]]
      | l :: ls => (x :: l) :: ls

/-- The list with every line ended by the separator. -/
def terminated (sep : α) (xs : List α) : List α :=
  (lines sep xs).flatMap (· ++ [sep])

theorem not_mem_of_mem_lines {sep : α} {xs l : List α} (hl : l ∈ lines sep xs) : sep ∉ l := by
  induction xs generalizing l with
  | nil => simp [lines] at hl
  | cons x xs ih =>
    rw [lines] at hl
    split at hl
    · rcases List.mem_cons.mp hl with rfl | hl
      · simp
      · exact ih hl
    · rename_i hx
      cases hls : lines sep xs with
      | nil =>
        rw [hls] at hl
        simp only [List.mem_singleton] at hl
        simpa [hl] using Ne.symm hx
      | cons l' ls =>
        rw [hls] at hl ih
        rcases List.mem_cons.mp hl with rfl | hl
        · have := ih (l := l') (by simp)
          simpa [Ne.symm hx] using this
        · exact ih (by simp [hl])

theorem lines_append_cons {sep : α} {l : List α} (hl : sep ∉ l) (rest : List α) :
    lines sep (l ++ sep :: rest) = l :: lines sep rest := by
  induction l with
  | nil => simp [lines]
  | cons x l ih =>
    simp only [List.mem_cons, not_or] at hl
    rw [List.cons_append, lines, if_neg (Ne.symm hl.1), ih hl.2]

theorem lines_flatMap {sep : α} {ls : List (List α)} (hls : ∀ l ∈ ls, sep ∉ l) :
    lines sep (ls.flatMap (· ++ [sep])) = ls := by
  induction ls with
  | nil => rfl
  | cons l ls ih =>
    rw [List.forall_mem_cons] at hls
    rw [List.flatMap_cons, List.append_assoc, List.singleton_append, lines_append_cons hls.1, ih hls.2]

theorem terminated_eq (sep : α) (xs : List α) :
    terminated sep xs = xs ∨ terminated sep xs = xs ++ [sep] := by
  induction xs with
  | nil => exact Or.inl rfl
  | cons x xs ih =>
    simp only [terminated, lines] at ih ⊢
    split
    · rename_i hx
      subst hx
      simpa using ih
    · cases hls : lines sep xs with
      | nil =>
        cases xs with
        | nil => simp
        | cons y ys =>
          rw [lines] at hls
          split at hls
          · simp at hls
          · split at hls <;> simp at hls
      | cons l ls =>
        rw [hls] at ih
        simpa using ih

theorem terminated_of_getLast {sep : α} {xs : List α} :
    terminated sep (xs ++ [sep]) = xs ++ [sep] := by
  induction xs with
  | nil => simp [terminated, lines]
  | cons x xs ih =>
    simp only [terminated, List.cons_append, lines] at ih ⊢
    split
    · rename_i hx
      simp [hx, ih]
    · cases hls : lines sep (xs ++ [sep]) with
      | nil => simp [hls] at ih
      | cons l ls =>
        rw [hls] at ih
        simpa using ih

theorem lines_append {sep : α} {xs : List α} (h : xs = [] ∨ xs.getLast? = some sep) (ys : List α) :
    lines sep (xs ++ ys) = lines sep xs ++ lines sep ys := by
  have hxs : (lines sep xs).flatMap (· ++ [sep]) = xs := by
    rcases h with rfl | h
    · rfl
    · obtain ⟨ws, rfl⟩ := List.getLast?_eq_some_iff.mp h
      exact terminated_of_getLast
  have happend : ∀ ls : List (List α), (∀ l ∈ ls, sep ∉ l) →
      lines sep (ls.flatMap (· ++ [sep]) ++ ys) = ls ++ lines sep ys := by
    intro ls hls
    induction ls with
    | nil => rfl
    | cons l ls ih =>
      rw [List.forall_mem_cons] at hls
      rw [List.flatMap_cons, List.append_assoc, List.append_assoc, List.singleton_append,
        lines_append_cons hls.1, ih hls.2]
      rfl
  have hall := happend (lines sep xs) fun _ => not_mem_of_mem_lines
  rwa [hxs] at hall

theorem lines_flatMap_append {sep : α} {ls : List (List α)} (hls : ∀ l ∈ ls, sep ∉ l) (ys : List α) :
    lines sep (ls.flatMap (· ++ [sep]) ++ ys) = ls ++ lines sep ys := by
  rw [lines_append ?_, lines_flatMap hls]
  rcases List.eq_nil_or_concat ls with rfl | ⟨ls, l, rfl⟩
  · exact Or.inl rfl
  · right
    rw [List.concat_eq_append, List.flatMap_append, List.flatMap_singleton, ← List.append_assoc]
    exact List.getLast?_concat

theorem lines_concat (sep : α) (xs : List α) :
    lines sep (xs ++ [sep]) = lines sep xs ∨ lines sep (xs ++ [sep]) = lines sep xs ++ [[]] := by
  rcases terminated_eq sep xs with h | h
  · have hlines : ∀ l ∈ lines sep xs ++ [[]], sep ∉ l := by
      intro l hl
      rcases List.mem_append.mp hl with hl | hl
      · exact not_mem_of_mem_lines hl
      · simp [List.mem_singleton.mp hl]
    have hall := lines_flatMap hlines
    rw [List.flatMap_append, ← terminated, h] at hall
    exact Or.inr (by simpa using hall)
  · rw [← h]
    exact Or.inl (lines_flatMap fun _ => not_mem_of_mem_lines)

theorem terminated_concat {sep x : α} (hx : x ≠ sep) (xs : List α) :
    terminated sep (xs ++ [x]) = xs ++ [x] ++ [sep] := by
  refine (terminated_eq sep (xs ++ [x])).resolve_left fun h => hx ?_
  rw [terminated] at h
  rcases List.eq_nil_or_concat (lines sep (xs ++ [x])) with hnil | ⟨ls, l, hls⟩
  · rw [hnil] at h
    simp at h
  · rw [hls, List.concat_eq_append, List.flatMap_append, List.flatMap_singleton, ← List.append_assoc] at h
    exact (List.singleton_inj.mp (List.append_inj' h rfl).2).symm

theorem notMem_intercalate {β : Type*} {x : β} {sep : List β} (hsep : x ∉ sep) {ls : List (List β)}
    (hls : ∀ l ∈ ls, x ∉ l) : x ∉ sep.intercalate ls := by
  induction ls with
  | nil => exact List.not_mem_nil
  | cons l ls ih =>
    rw [List.forall_mem_cons] at hls
    cases ls with
    | nil =>
      rw [List.intercalate_singleton]
      exact hls.1
    | cons l' ls =>
      rw [List.intercalate_cons_cons, List.mem_append, List.mem_append, not_or, not_or]
      exact ⟨⟨hls.1, hsep⟩, ih hls.2⟩

/-! ### Groups -/

/-- The elements up to each one that ends a group, and this one; what comes after the last end is left. -/
def groups {β : Type*} (ends : β → Bool) : List β → List β → List (List β × β)
  | _, [] => []
  | before, x :: xs => if ends x then (before, x) :: groups ends [] xs else groups ends (before ++ [x]) xs

theorem groups_append {β : Type*} {ends : β → Bool} {group : List β} {x : β}
    (hgroup : ∀ y ∈ group, ends y = false) (hx : ends x = true) (before rest : List β) :
    groups ends before (group ++ x :: rest) = (before ++ group, x) :: groups ends [] rest := by
  induction group generalizing before with
  | nil => rw [List.nil_append, groups, if_pos hx, List.append_nil]
  | cons y group ih =>
    rw [List.forall_mem_cons] at hgroup
    rw [List.cons_append, groups, if_neg (by simp [hgroup.1]), ih hgroup.2, List.append_assoc, List.singleton_append]

theorem groups_flatMap {β : Type*} {ends : β → Bool} {gs : List (List β × β)}
    (h : ∀ g ∈ gs, (∀ y ∈ g.1, ends y = false) ∧ ends g.2 = true) (rest : List β) :
    groups ends [] ((gs.flatMap fun g => g.1 ++ [g.2]) ++ rest) = gs ++ groups ends [] rest := by
  induction gs with
  | nil => rfl
  | cons g gs ih =>
    rw [List.forall_mem_cons] at h
    rw [List.flatMap_cons, List.append_assoc, List.append_assoc, List.singleton_append,
      groups_append h.1.1 h.1.2, ih h.2, List.nil_append, List.cons_append]

end lines

/-! ### Trimming -/

section strip
variable {β : Type*}

/-- The list without the members of `p` at either end. -/
def strip (p : α → Bool) (xs : List α) : List α :=
  (xs.dropWhile p).rdropWhile p

theorem exists_strip (p : α → Bool) (xs : List α) :
    ∃ l r, xs = l ++ (strip p xs ++ r) ∧ (∀ x ∈ l, p x) ∧ ∀ x ∈ r, p x := by
  refine ⟨xs.takeWhile p, (xs.dropWhile p).rtakeWhile p, ?_, fun x => List.mem_takeWhile_imp,
    fun x => List.mem_rtakeWhile_imp⟩
  rw [strip, List.rdropWhile_append_rtakeWhile, List.takeWhile_append_dropWhile]

theorem strip_map (p : β → Bool) (f : α → β) (xs : List α) :
    strip p (xs.map f) = (strip (p ∘ f) xs).map f := by
  simp only [strip, List.rdropWhile, List.dropWhile_map, ← List.map_reverse]

theorem dropWhile_flatMap {p : β → Bool} {q : α → Bool} {f : α → List β} (hne : ∀ x, f x ≠ [])
    (h : ∀ x, ∀ y ∈ f x, p y = q x) (xs : List α) :
    (xs.flatMap f).dropWhile p = (xs.dropWhile q).flatMap f := by
  induction xs with
  | nil => rfl
  | cons x xs ih =>
    rw [List.flatMap_cons]
    by_cases hx : q x = true
    · rw [List.dropWhile_append_of_pos fun y hy => (h x y hy).trans hx, ih, List.dropWhile_cons_of_pos hx]
    · obtain ⟨y, ys, hys⟩ := List.exists_cons_of_ne_nil (hne x)
      have hy : ¬ p y = true := by rwa [h x y (by simp [hys])]
      rw [List.dropWhile_cons_of_neg hx, List.flatMap_cons, hys, List.cons_append,
        List.dropWhile_cons_of_neg hy]

theorem strip_flatMap {p : β → Bool} {q : α → Bool} {f : α → List β} (hne : ∀ x, f x ≠ [])
    (h : ∀ x, ∀ y ∈ f x, p y = q x) (xs : List α) :
    strip p (xs.flatMap f) = (strip q xs).flatMap f := by
  have hreverse := dropWhile_flatMap (p := p) (q := q) (f := fun x => (f x).reverse) (by simpa using hne)
    (fun x y hy => h x y (List.mem_reverse.mp hy)) (xs.dropWhile q).reverse
  rw [strip, strip, dropWhile_flatMap hne h, List.rdropWhile, List.rdropWhile, List.reverse_flatMap]
  rw [show (List.reverse ∘ f) = fun x => (f x).reverse from rfl, hreverse, List.reverse_flatMap]
  simp [Function.comp_def]

theorem strip_eq_nil {p : α → Bool} {xs : List α} : strip p xs = [] ↔ ∀ x ∈ xs, p x := by
  rw [strip, List.rdropWhile_eq_nil_iff]
  constructor
  · intro h x hx
    rw [← List.takeWhile_append_dropWhile (p := p) (l := xs), List.mem_append] at hx
    rcases hx with hx | hx
    · exact List.mem_takeWhile_imp hx
    · exact h x hx
  · exact fun h x hx => h x ((List.dropWhile_sublist p).subset hx)

theorem strip_strip (p : α → Bool) (xs : List α) : strip p (strip p xs) = strip p xs := by
  have hdrop : (strip p xs).dropWhile p = strip p xs := by
    cases hs : strip p xs with
    | nil => rfl
    | cons x ys =>
      have hpre : x :: ys <+: xs.dropWhile p := hs ▸ List.rdropWhile_prefix p _
      obtain ⟨zs, hzs⟩ := hpre
      have hx := List.head?_dropWhile_not p xs
      rw [← hzs] at hx
      exact List.dropWhile_cons_of_neg (by simpa using hx)
  conv_lhs => rw [strip, hdrop]
  exact List.rdropWhile_idempotent p _

theorem getLast?_strip (p : α → Bool) (xs : List α) : ∀ x ∈ (strip p xs).getLast?, p x = false := by
  intro x hx
  rw [strip, List.rdropWhile, List.getLast?_reverse] at hx
  have hnot := List.head?_dropWhile_not p (xs.dropWhile p).reverse
  rw [hx] at hnot
  simpa using hnot

theorem dropWhile_append_of_head {p : α → Bool} {xs : List α} (hne : xs ≠ [])
    (hhead : ∀ x ∈ xs.head?, p x = false) (u : List α) :
    (u ++ xs).dropWhile p = u.dropWhile p ++ xs := by
  obtain ⟨x, xs, rfl⟩ := List.exists_cons_of_ne_nil hne
  have hx : p x = false := hhead x (by simp)
  rw [List.dropWhile_append]
  split
  · rename_i hnil
    rw [List.isEmpty_iff.mp hnil, List.dropWhile_cons_of_neg (by simp [hx]), List.nil_append]
  · rfl

theorem rdropWhile_append_of_getLast {p : α → Bool} {xs : List α} (hne : xs ≠ [])
    (hlast : ∀ x ∈ xs.getLast?, p x = false) (v : List α) :
    (xs ++ v).rdropWhile p = xs ++ v.rdropWhile p := by
  have h := @dropWhile_append_of_head _ p xs.reverse (by simpa) (by simpa) v.reverse
  rw [List.rdropWhile, List.reverse_append, h]
  simp [List.rdropWhile]

theorem strip_append {p : α → Bool} {xs : List α} (hne : xs ≠ [])
    (hhead : ∀ x ∈ xs.head?, p x = false) (hlast : ∀ x ∈ xs.getLast?, p x = false) (u v : List α) :
    strip p (u ++ xs ++ v) = u.dropWhile p ++ xs ++ v.rdropWhile p := by
  have hlast' : ∀ x ∈ (u.dropWhile p ++ xs).getLast?, p x = false := by
    intro x hx
    rw [List.getLast?_append_of_ne_nil _ hne] at hx
    exact hlast x hx
  have hhead' : ∀ x ∈ (xs ++ v).head?, p x = false := by
    intro x hx
    rw [List.head?_append_of_ne_nil _ hne] at hx
    exact hhead x hx
  rw [strip, List.append_assoc, dropWhile_append_of_head (by simp [hne]) hhead', ← List.append_assoc,
    rdropWhile_append_of_getLast (by simp [hne]) hlast']

theorem isChain_strip {p : α → Bool} {R : α → α → Prop} (hl : ∀ a b, p a → R a b)
    (hr : ∀ a b, p b → R a b) (xs : List α) : (strip p xs).IsChain R ↔ xs.IsChain R := by
  obtain ⟨l, r, hxs, hpl, hpr⟩ := exists_strip p xs
  have hchain : ∀ ys : List α, (∀ y ∈ ys, p y) → ys.IsChain R := fun ys hys =>
    List.isChain_iff_getElem.mpr fun i hi => hl _ _ (hys _ (List.getElem_mem _))
  generalize strip p xs = ys at hxs ⊢
  subst hxs
  simp only [List.isChain_append]
  constructor
  · intro h
    refine ⟨hchain l hpl, ⟨h, hchain r hpr, fun a _ b hb => hr a b ?_⟩, fun a ha b _ => hl a b ?_⟩
    · exact hpr b (List.mem_of_mem_head? hb)
    · exact hpl a (List.mem_of_mem_getLast? ha)
  · exact fun h => h.2.1.1

end strip

end ListScan

import Mathlib.Algebra.BigOperators.Group.List.Basic
import Mathlib.Algebra.Group.Basic
import Mathlib.Tactic.Abel

/-!
# Interleaved runs

Finitely many components, each with a state of its own, and one shared state. A step takes one
component, an action, the shared state and the component's own state, and gives the next two, or
nothing where the action is not enabled. A run is a list of steps, each with the index of the
component that takes it, so a statement about every run is one about every interleaving. The rules:
an invariant of the single components, an account that every step keeps between the shared state
and the components, and a property of the components that holds in the end if and only if no step
on the way broke it.
-/

namespace Interleaving

/-- The shared state and the states of the components. -/
structure Config (σ τ : Type*) where
  shared : σ
  locals : List τ

variable {σ τ α : Type*} (step : α → σ → τ → Option (σ × τ))

/-- One step of one component. -/
def next (c : Config σ τ) (e : Nat × α) : Option (Config σ τ) :=
  match c.locals[e.1]? with
  | none => none
  | some l => (step e.2 c.shared l).map fun r => ⟨r.1, c.locals.set e.1 r.2⟩

def run : Config σ τ → List (Nat × α) → Option (Config σ τ)
  | c, [] => some c
  | c, e :: es => (next step c e).bind fun c' => run c' es

/-- Every step of the run is taken from a component's state that allows it. -/
def Along (P : τ → α → Prop) : Config σ τ → List (Nat × α) → Prop
  | _, [] => True
  | c, e :: es => (∀ l, c.locals[e.1]? = some l → P l e.2) ∧
      ∀ c', next step c e = some c' → Along P c' es

variable {step}

theorem next_eq_some {c c' : Config σ τ} {e : Nat × α} :
    next step c e = some c' ↔ ∃ l s' l', c.locals[e.1]? = some l ∧
      step e.2 c.shared l = some (s', l') ∧ c' = ⟨s', c.locals.set e.1 l'⟩ := by
  unfold next
  cases hl : c.locals[e.1]? with
  | none => simp
  | some l =>
    constructor
    · intro h
      obtain ⟨⟨s', l'⟩, hstep, rfl⟩ := Option.map_eq_some_iff.mp h
      exact ⟨l, s', l', rfl, hstep, rfl⟩
    · rintro ⟨_, s', l', hl', hstep, rfl⟩
      obtain rfl := Option.some.inj hl'
      show (step e.2 c.shared l).map _ = _
      rw [hstep]
      rfl

theorem run_cons {c c' : Config σ τ} {e : Nat × α} {es : List (Nat × α)} :
    run step c (e :: es) = some c' ↔ ∃ c₁, next step c e = some c₁ ∧ run step c₁ es = some c' := by
  rw [run, Option.bind_eq_some_iff]

/-- What every step keeps, every run keeps. -/
theorem run_invariant {I : Config σ τ → Prop}
    (hstep : ∀ c e c', I c → next step c e = some c' → I c') {es : List (Nat × α)} :
    ∀ {c c' : Config σ τ}, I c → run step c es = some c' → I c' := by
  induction es with
  | nil =>
    intro c c' hc h
    obtain rfl := Option.some.inj h
    exact hc
  | cons e es ih =>
    intro c c' hc h
    obtain ⟨c₁, hnext, hrun⟩ := run_cons.mp h
    exact ih (hstep c e c₁ hc hnext) hrun

theorem forall_mem_set {I : τ → Prop} {ls : List τ} {k : Nat} {l' : τ} (h : ∀ l ∈ ls, I l)
    (hl' : I l') : ∀ l ∈ ls.set k l', I l := by
  intro l hl
  rcases List.mem_or_eq_of_mem_set hl with hl | rfl
  · exact h l hl
  · exact hl'

section balance
variable {M : Type*} [AddCommGroup M]

theorem sum_map_set (g : τ → M) {ls : List τ} {k : Nat} {l : τ} (l' : τ) (hl : ls[k]? = some l) :
    ((ls.set k l').map g).sum = (ls.map g).sum + (g l' - g l) := by
  induction ls generalizing k with
  | nil => simp at hl
  | cons x ls ih =>
    cases k with
    | zero =>
      obtain rfl : x = l := by simpa using hl
      simp only [List.set_cons_zero, List.map_cons, List.sum_cons]
      abel
    | succ k =>
      simp only [List.getElem?_cons_succ] at hl
      simp only [List.set_cons_succ, List.map_cons, List.sum_cons, ih hl]
      abel

/-- What each step moves from a component into the shared state is in the shared state in the
end, whatever the interleaving. -/
theorem run_balance {I : τ → Prop} (f : σ → M) (g : τ → M)
    (hkeep : ∀ {a s l s' l'}, I l → step a s l = some (s', l') → I l')
    (hstep : ∀ {a s l s' l'}, I l → step a s l = some (s', l') → f s' - f s = g l' - g l)
    {c c' : Config σ τ} {es : List (Nat × α)} (hc : ∀ l ∈ c.locals, I l)
    (h : run step c es = some c') :
    f c'.shared - (c'.locals.map g).sum = f c.shared - (c.locals.map g).sum := by
  let J (d : Config σ τ) : Prop := (∀ l ∈ d.locals, I l) ∧
    f d.shared - (d.locals.map g).sum = f c.shared - (c.locals.map g).sum
  suffices hJ : J c' from hJ.2
  refine run_invariant (I := J) ?_ ⟨hc, rfl⟩ h
  rintro d e d' ⟨hd, hbalance⟩ hnext
  obtain ⟨l, s', l', hl, hs, rfl⟩ := next_eq_some.mp hnext
  have hI : I l := hd l (List.mem_of_getElem? hl)
  refine ⟨forall_mem_set hd (hkeep hI hs), ?_⟩
  have hmove : f s' = f d.shared + (g l' - g l) := by
    rw [← hstep hI hs]
    abel
  calc f s' - ((d.locals.set e.1 l').map g).sum
      = f d.shared + (g l' - g l) - ((d.locals.map g).sum + (g l' - g l)) := by
        rw [hmove, sum_map_set g l' hl]
    _ = f d.shared - (d.locals.map g).sum := by abel
    _ = _ := hbalance

end balance

/-- A property that a step keeps exactly where it is allowed, and that never comes back, holds in
the end if and only if every step was allowed. -/
theorem run_along {I J : τ → Prop} {P : τ → α → Prop}
    (hkeep : ∀ {a s l s' l'}, I l → step a s l = some (s', l') → I l')
    (hstep : ∀ {a s l s' l'}, I l → step a s l = some (s', l') → (J l' ↔ J l ∧ P l a))
    {es : List (Nat × α)} : ∀ {c c' : Config σ τ}, (∀ l ∈ c.locals, I l) →
      run step c es = some c' →
      ((∀ l ∈ c'.locals, J l) ↔ (∀ l ∈ c.locals, J l) ∧ Along step P c es) := by
  induction es with
  | nil =>
    intro c c' _ h
    obtain rfl := Option.some.inj h
    exact ⟨fun h => ⟨h, trivial⟩, And.left⟩
  | cons e es ih =>
    intro c c' hc h
    obtain ⟨c₁, hnext, hrun⟩ := run_cons.mp h
    obtain ⟨l, s', l', hl, hs, rfl⟩ := next_eq_some.mp hnext
    have hmem : l ∈ c.locals := List.mem_of_getElem? hl
    have hI : I l := hc l hmem
    have hbound : e.1 < c.locals.length := (List.getElem?_eq_some_iff.mp hl).1
    rw [ih (forall_mem_set hc (hkeep hI hs)) hrun]
    constructor
    · rintro ⟨hJ, halong⟩
      have hl' : J l' := hJ l' (List.mem_set hbound l')
      obtain ⟨hJl, hP⟩ := (hstep hI hs).mp hl'
      refine ⟨fun m hm => ?_, fun m hm => ?_, fun d hd => ?_⟩
      · obtain ⟨k, hk⟩ := List.mem_iff_getElem?.mp hm
        by_cases hkl : e.1 = k
        · obtain rfl : l = m := by
            rw [← hkl, hl] at hk
            exact Option.some.inj hk
          exact hJl
        · refine hJ m (List.mem_of_getElem? (i := k) ?_)
          rw [List.getElem?_set_ne hkl]
          exact hk
      · obtain rfl : l = m := Option.some.inj (hl.symm.trans hm)
        exact hP
      · rw [hnext] at hd
        obtain rfl := Option.some.inj hd
        exact halong
    · rintro ⟨hJ, hP, halong⟩
      exact ⟨forall_mem_set hJ ((hstep hI hs).mpr ⟨hJ l hmem, hP l hl⟩), halong _ hnext⟩

theorem sum_map_set_lt (g : τ → Nat) {l l' : τ} (hlt : g l' < g l) {ls : List τ} {k : Nat}
    (hl : ls[k]? = some l) : ((ls.set k l').map g).sum < (ls.map g).sum := by
  induction ls generalizing k with
  | nil => simp at hl
  | cons x ls ih =>
    cases k with
    | zero =>
      obtain rfl : x = l := by simpa using hl
      simpa using hlt
    | succ k =>
      simp only [List.getElem?_cons_succ] at hl
      simpa using ih hl

/-- Where every step makes the component that takes it smaller, a run is no longer than what the
components have lost. -/
theorem run_length (g : τ → Nat)
    (hstep : ∀ {a s l s' l'}, step a s l = some (s', l') → g l' < g l)
    {es : List (Nat × α)} : ∀ {c c' : Config σ τ}, run step c es = some c' →
      es.length + (c'.locals.map g).sum ≤ (c.locals.map g).sum := by
  induction es with
  | nil =>
    intro c c' h
    obtain rfl := Option.some.inj h
    exact Nat.le_of_eq (Nat.zero_add _)
  | cons e es ih =>
    intro c c' h
    obtain ⟨c₁, hnext, hrun⟩ := run_cons.mp h
    obtain ⟨l, s', l', hl, hs, rfl⟩ := next_eq_some.mp hnext
    have hlt := sum_map_set_lt g (hstep hs) hl
    have hle : es.length + (c'.locals.map g).sum ≤ ((c.locals.set e.1 l').map g).sum := ih hrun
    rw [List.length_cons]
    omega

/-! ### Components on their own

Where the shared state makes no difference to what becomes of the component that takes a step, a
run is the runs of its components, each with its own actions, and these can be put together in any
order. -/

/-- The actions of component `k`. -/
def own (k : Nat) : List (Nat × α) → List α
  | [] => []
  | e :: es => if e.1 = k then e.2 :: own k es else own k es

section solo
variable (solo : α → τ → Option τ)

/-- A component that takes these actions. -/
def soloRun : τ → List α → Option τ
  | l, [] => some l
  | l, a :: as => (solo a l).bind fun l' => soloRun l' as

variable {solo}

theorem soloRun_cons {l l' : τ} {a : α} {as : List α} :
    soloRun solo l (a :: as) = some l' ↔ ∃ l₁, solo a l = some l₁ ∧ soloRun solo l₁ as = some l' := by
  rw [soloRun, Option.bind_eq_some_iff]

/-- A component has made of its own actions what it would have made of them alone. -/
theorem soloRun_of_run (hsolo : ∀ a s l, (step a s l).map Prod.snd = solo a l)
    {es : List (Nat × α)} : ∀ {c c' : Config σ τ}, run step c es = some c' →
      ∀ {k l}, c.locals[k]? = some l →
        ∃ l', c'.locals[k]? = some l' ∧ soloRun solo l (own k es) = some l' := by
  induction es with
  | nil =>
    intro c c' h k l hl
    obtain rfl := Option.some.inj h
    exact ⟨l, hl, rfl⟩
  | cons e es ih =>
    intro c c' h k l hl
    obtain ⟨c₁, hnext, hrun⟩ := run_cons.mp h
    obtain ⟨m, s', m', hm, hstep, rfl⟩ := next_eq_some.mp hnext
    rw [own]
    by_cases hk : e.1 = k
    · obtain rfl : m = l := by
        rw [← hk, hm] at hl
        exact Option.some.inj hl
      have hbound : e.1 < c.locals.length := (List.getElem?_eq_some_iff.mp hm).1
      have hset : (c.locals.set e.1 m')[k]? = some m' := by
        rw [← hk, List.getElem?_set_self hbound]
      obtain ⟨l', hl', hsoloRun⟩ := ih hrun hset
      refine ⟨l', hl', ?_⟩
      rw [if_pos hk]
      refine soloRun_cons.mpr ⟨m', ?_, hsoloRun⟩
      rw [← hsolo e.2 c.shared m, hstep]
      rfl
    · have hset : (c.locals.set e.1 m')[k]? = some l := by
        rw [List.getElem?_set_ne hk]
        exact hl
      rw [if_neg hk]
      exact ih hrun hset

/-- Steps that each component allows in its own order are a run. -/
theorem exists_run_of_soloRun (hsolo : ∀ a s l, (step a s l).map Prod.snd = solo a l)
    {es : List (Nat × α)} : ∀ {c : Config σ τ}, (∀ e ∈ es, e.1 < c.locals.length) →
      (∀ k l, c.locals[k]? = some l → ∃ l', soloRun solo l (own k es) = some l') →
        ∃ c', run step c es = some c' := by
  induction es with
  | nil => exact fun _ _ => ⟨_, rfl⟩
  | cons e es ih =>
    intro c hbound hown
    obtain ⟨m, hm⟩ : ∃ m, c.locals[e.1]? = some m :=
      ⟨_, List.getElem?_eq_getElem (hbound e List.mem_cons_self)⟩
    obtain ⟨l', hl'⟩ := hown e.1 m hm
    rw [own, if_pos rfl] at hl'
    obtain ⟨m', hm', hrest⟩ := soloRun_cons.mp hl'
    rw [← hsolo e.2 c.shared m] at hm'
    obtain ⟨⟨s', m₁⟩, hstep, hsnd⟩ := Option.map_eq_some_iff.mp hm'
    obtain rfl : m₁ = m' := hsnd
    have hnext : next step c e = some ⟨s', c.locals.set e.1 m₁⟩ :=
      next_eq_some.mpr ⟨m, s', m₁, hm, hstep, rfl⟩
    have hset : ∀ k l, (c.locals.set e.1 m₁)[k]? = some l →
        ∃ l', soloRun solo l (own k es) = some l' := by
      intro k l hl
      by_cases hk : e.1 = k
      · rw [← hk, List.getElem?_set_self (hbound e List.mem_cons_self)] at hl
        obtain rfl := Option.some.inj hl
        exact ⟨l', hk ▸ hrest⟩
      · rw [List.getElem?_set_ne hk] at hl
        have := hown k l hl
        rwa [own, if_neg hk] at this
    obtain ⟨c', hrun⟩ := @ih ⟨s', c.locals.set e.1 m₁⟩
      (fun e' he' => by rw [List.length_set]; exact hbound e' (List.mem_cons_of_mem e he')) hset
    exact ⟨c', run_cons.mpr ⟨_, hnext, hrun⟩⟩

end solo

/-- The components one after the other, each with these actions. -/
def sequential (acts : Nat → List α) (n : Nat) : List (Nat × α) :=
  (List.range n).flatMap fun k => (acts k).map (Prod.mk k)

theorem own_append (k : Nat) (es es' : List (Nat × α)) :
    own k (es ++ es') = own k es ++ own k es' := by
  induction es with
  | nil => rfl
  | cons e es ih =>
    rw [List.cons_append, own, own, ih]
    split <;> rfl

theorem own_map_mk (j k : Nat) (as : List α) :
    own k (as.map (Prod.mk j)) = if j = k then as else [] := by
  induction as with
  | nil => simp [own]
  | cons a as ih =>
    rw [List.map_cons, own, ih]
    split <;> rfl

theorem own_sequential (acts : Nat → List α) (n k : Nat) :
    own k (sequential acts n) = if k < n then acts k else [] := by
  induction n with
  | zero => rfl
  | succ n ih =>
    have hsplit : sequential acts (n + 1) = sequential acts n ++ (acts n).map (Prod.mk n) := by
      simp [sequential, List.range_succ]
    rw [hsplit, own_append, own_map_mk, ih]
    rcases Nat.lt_trichotomy k n with hlt | rfl | hgt
    · rw [if_pos hlt, if_neg (by omega), if_pos (by omega), List.append_nil]
    · rw [if_neg (by omega), if_pos rfl, if_pos (by omega), List.nil_append]
    · rw [if_neg (by omega), if_neg (by omega), if_neg (by omega), List.append_nil]

theorem lt_of_mem_sequential {acts : Nat → List α} {n : Nat} {e : Nat × α}
    (h : e ∈ sequential acts n) : e.1 < n := by
  obtain ⟨k, hk, hmem⟩ := List.mem_flatMap.mp h
  obtain ⟨_, _, rfl⟩ := List.mem_map.mp hmem
  exact List.mem_range.mp hk

end Interleaving

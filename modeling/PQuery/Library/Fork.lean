import Mathlib.Logic.Basic

/-!
# Programs that fork

A program of one process calls what is outside of it, goes on with the answer, and may fork: then
two processes go on with what is left of the program (`Prog`). A run is the tree of the processes:
what each one calls in turn, where it forks, and with what it ends; any of them may have stopped
where it is (`Tree`, `Runs`). A program that only makes calls of one kind leaves a straight piece
of such calls in the tree (`Within`), and rules in the manner of Hoare say what it ends with (`Ends`,
`Safe`). A program that begins with such a one runs as its continuation does, after that piece
(`runs_bind_ends`).
-/

namespace Fork

/-- What a program can call and what it is answered, and the errors of `fork`. -/
structure Interface where
  Call : Type
  Answer : Call → Type
  Error : Type

/-- What `fork` returns: an error, the PID of the child, or 0 in the child. -/
inductive Forked (ε : Type)
  | error (e : ε)
  | parent (pid : Nat)
  | child

inductive Prog (I : Interface) (α : Type)
  | ret (a : α)
  | call (c : I.Call) (next : I.Answer c → Prog I α)
  | fork (next : Forked I.Error → Prog I α)

/-- A run of a process, with those of the children where it forks them. -/
inductive Tree (I : Interface) (α : Type)
  | stopped
  | ended (a : α)
  | called (c : I.Call) (answer : I.Answer c) (rest : Tree I α)
  | forkFailed (e : I.Error) (rest : Tree I α)
  | forked (pid : Nat) (child rest : Tree I α)

variable {I : Interface} {ε α β γ : Type}

namespace Prog

def bind : Prog I α → (α → Prog I β) → Prog I β
  | ret a, f => f a
  | call c next, f => call c fun answer => (next answer).bind f
  | fork next, f => fork fun result => (next result).bind f

instance : Monad (Prog I) where
  pure := ret
  bind := bind

/-- A single call. -/
def perform (c : I.Call) : Prog I (I.Answer c) := call c ret

/-- A single `fork`. -/
def forking : Prog I (Forked I.Error) := fork ret

theorem bind_assoc (p : Prog I α) (f : α → Prog I β) (g : β → Prog I γ) :
    (p.bind f).bind g = p.bind fun a => (f a).bind g := by
  induction p with
  | ret a => rfl
  | call c next ih =>
    simp only [bind]
    congr 1
    funext answer
    exact ih answer
  | fork next ih =>
    simp only [bind]
    congr 1
    funext result
    exact ih result

/-- What a program of a language with exceptions does, with a handler around it. -/
def catching (p : ExceptT ε (Prog I) α) (handler : ε → Prog I β) (f : α → Prog I β) : Prog I β :=
  p.run.bind fun
    | .ok a => f a
    | .error e => handler e

theorem catching_bind (p : ExceptT ε (Prog I) α) (q : α → ExceptT ε (Prog I) β)
    (handler : ε → Prog I γ) (f : β → Prog I γ) :
    catching (p >>= q) handler f = catching p handler fun a => catching (q a) handler f := by
  have h : (p >>= q).run = p.run.bind fun
      | .ok a => (q a).run
      | .error e => ret (.error e) := by
    show Prog.bind _ _ = _
    congr 1
  rw [catching, h, bind_assoc, catching]
  congr 1
  funext r
  cases r with
  | ok a => rfl
  | error e => rfl

@[simp] theorem catching_pure (a : α) (handler : ε → Prog I β) (f : α → Prog I β) :
    catching (pure a) handler f = f a := rfl

end Prog

/-! ### Runs -/

inductive Runs : Prog I α → Tree I α → Prop
  | stopped (p : Prog I α) : Runs p .stopped
  | ret (a : α) : Runs (.ret a) (.ended a)
  | call {c : I.Call} {next : I.Answer c → Prog I α} {t : Tree I α} (answer : I.Answer c)
      (h : Runs (next answer) t) : Runs (.call c next) (.called c answer t)
  | forkFailed {next : Forked I.Error → Prog I α} {t : Tree I α} (e : I.Error)
      (h : Runs (next (.error e)) t) : Runs (.fork next) (.forkFailed e t)
  | fork {next : Forked I.Error → Prog I α} {child t : Tree I α} (pid : Nat)
      (hchild : Runs (next .child) child) (h : Runs (next (.parent pid)) t) :
      Runs (.fork next) (.forked pid child t)

theorem runs_ret {a : α} {t : Tree I α} (h : Runs (.ret a) t) : t = .stopped ∨ t = .ended a := by
  cases h with
  | stopped => exact .inl rfl
  | ret => exact .inr rfl

namespace Tree

/-- The calls of the process itself, each with its answer. -/
def calls : Tree I α → List (Σ c, I.Answer c)
  | stopped => []
  | ended _ => []
  | called c answer rest => ⟨c, answer⟩ :: rest.calls
  | forkFailed _ rest => rest.calls
  | forked _ _ rest => rest.calls

/-- The children of the process itself, in the order it forks them. -/
def children : Tree I α → List (Tree I α)
  | stopped => []
  | ended _ => []
  | called _ _ rest => rest.children
  | forkFailed _ rest => rest.children
  | forked _ child rest => child :: rest.children

/-- The children with the PIDs that the process knows them by. -/
def family : Tree I α → List (Nat × Tree I α)
  | stopped => []
  | ended _ => []
  | called _ _ rest => rest.family
  | forkFailed _ rest => rest.family
  | forked pid child rest => (pid, child) :: rest.family

/-- What the process has ended with. -/
def result : Tree I α → Option α
  | stopped => none
  | ended a => some a
  | called _ _ rest => rest.result
  | forkFailed _ rest => rest.result
  | forked _ _ rest => rest.result

/-- All processes but the first. -/
def descendants : Tree I α → List (Tree I α)
  | stopped => []
  | ended _ => []
  | called _ _ rest => rest.descendants
  | forkFailed _ rest => rest.descendants
  | forked _ child rest => child :: (child.descendants ++ rest.descendants)

/-- How often the process itself has called `fork`. -/
def forks : Tree I α → Nat
  | stopped => 0
  | ended _ => 0
  | called _ _ rest => rest.forks
  | forkFailed _ rest => rest.forks + 1
  | forked _ _ rest => rest.forks + 1

/-- Calls before a run. -/
def graft : List (Σ c, I.Answer c) → Tree I α → Tree I α
  | [], t => t
  | e :: before, t => .called e.1 e.2 (graft before t)

@[simp] theorem calls_graft (before : List (Σ c, I.Answer c)) (t : Tree I α) :
    (graft before t).calls = before ++ t.calls := by
  induction before with
  | nil => rfl
  | cons e before ih => rw [graft, calls, ih, List.cons_append]

@[simp] theorem children_graft (before : List (Σ c, I.Answer c)) (t : Tree I α) :
    (graft before t).children = t.children := by
  induction before with
  | nil => rfl
  | cons e before ih => rw [graft, children, ih]

@[simp] theorem family_graft (before : List (Σ c, I.Answer c)) (t : Tree I α) :
    (graft before t).family = t.family := by
  induction before with
  | nil => rfl
  | cons e before ih => rw [graft, family, ih]

theorem map_snd_family (t : Tree I α) : t.family.map Prod.snd = t.children := by
  induction t with
  | stopped => rfl
  | ended a => rfl
  | called c answer rest ih => exact ih
  | forkFailed e rest ih => exact ih
  | forked pid child rest _ ih => exact congrArg (child :: ·) ih

@[simp] theorem result_graft (before : List (Σ c, I.Answer c)) (t : Tree I α) :
    (graft before t).result = t.result := by
  induction before with
  | nil => rfl
  | cons e before ih => rw [graft, result, ih]

theorem graft_append (before before' : List (Σ c, I.Answer c)) (t : Tree I α) :
    graft (before ++ before') t = graft before (graft before' t) := by
  induction before with
  | nil => rfl
  | cons e before ih => rw [List.cons_append, graft, ih, graft]

theorem children_eq_nil {t : Tree I α} (h : t.forks = 0) : t.children = [] := by
  induction t with
  | stopped => rfl
  | ended a => rfl
  | called c answer rest ih => exact ih h
  | forkFailed e rest ih => cases h
  | forked pid child rest _ ih => cases h

theorem descendants_eq_children {t : Tree I α} (h : ∀ child ∈ t.children, child.descendants = []) :
    t.descendants = t.children := by
  induction t with
  | stopped => rfl
  | ended a => rfl
  | called c answer rest ih => exact ih h
  | forkFailed e rest ih => exact ih h
  | forked pid child rest _ ih =>
    obtain ⟨hchild, hrest⟩ := List.forall_mem_cons.mp h
    rw [descendants, children, hchild, List.nil_append, ih hrest]

end Tree

theorem Runs.bind {p : Prog I α} {f : α → Prog I β} {calls : List (Σ c, I.Answer c)} {a : α} {t : Tree I β}
    (hp : Runs p (.graft calls (.ended a))) (h : Runs (f a) t) : Runs (p.bind f) (.graft calls t) := by
  induction calls generalizing p with
  | nil =>
    cases hp with
    | ret => exact h
  | cons e calls ih =>
    cases hp with
    | call _ hnext => exact .call e.2 (ih hnext)

/-! ### Programs that do not fork -/

/-- The program does not fork, and all that it calls is in `P`. -/
inductive Within (P : I.Call → Prop) : Prog I α → Prop
  | ret (a : α) : Within P (.ret a)
  | call {c : I.Call} {next : I.Answer c → Prog I α} (hc : P c)
      (h : ∀ answer, Within P (next answer)) : Within P (.call c next)

variable {P : I.Call → Prop}

theorem Within.bind {p : Prog I α} {f : α → Prog I β} (hp : Within P p)
    (hf : ∀ a, Within P (f a)) : Within P (p.bind f) := by
  induction hp with
  | ret a => exact hf a
  | call hc _ ih => exact .call hc ih

theorem Within.pure (a : α) : Within P (pure a : ExceptT ε (Prog I) α).run := .ret _

theorem Within.lift {p : Prog I α} (hp : Within P p) :
    Within P (ExceptT.lift p : ExceptT ε (Prog I) α).run :=
  hp.bind fun _ => .ret _

theorem Within.seq {p : ExceptT ε (Prog I) α} {f : α → ExceptT ε (Prog I) β}
    (hp : Within P p.run) (hf : ∀ a, Within P (f a).run) : Within P (p >>= f).run := by
  refine hp.bind fun r => ?_
  cases r with
  | ok a => exact hf a
  | error e => exact .ret _

theorem Within.forM {f : β → ExceptT ε (Prog I) PUnit} (hf : ∀ x, Within P (f x).run)
    (xs : List β) : Within P (xs.forM f).run := by
  induction xs with
  | nil => exact .pure _
  | cons x xs ih => exact (hf x).seq fun _ => ih

theorem Within.catching {p : ExceptT ε (Prog I) α} {handler : ε → Prog I β} {f : α → Prog I β}
    (hp : Within P p.run) (hhandler : ∀ e, Within P (handler e)) (hf : ∀ a, Within P (f a)) :
    Within P (Prog.catching p handler f) := by
  refine hp.bind fun r => ?_
  cases r with
  | ok a => exact hf a
  | error e => exact hhandler e

theorem Within.imp {P' : I.Call → Prop} {p : Prog I α} (hp : Within P p) (h : ∀ c, P c → P' c) :
    Within P' p := by
  induction hp with
  | ret a => exact .ret a
  | call hc _ ih => exact .call (h _ hc) ih

theorem within_perform {c : I.Call} (hc : P c) : Within P (Prog.perform c) :=
  .call hc .ret

/-! ### What such programs end with -/

/-- The program does not fork, all that it calls is in `P`, and all that it ends with is in `Q`. -/
inductive Ends (P : I.Call → Prop) (Q : α → Prop) : Prog I α → Prop
  | ret {a : α} (h : Q a) : Ends P Q (.ret a)
  | call {c : I.Call} {next : I.Answer c → Prog I α} (hc : P c)
      (h : ∀ answer, Ends P Q (next answer)) : Ends P Q (.call c next)

/-- Where the program does not throw, it ends with a value in `Q`. -/
def Safe (P : I.Call → Prop) (Q : α → Prop) (p : ExceptT ε (Prog I) α) : Prop :=
  Ends P (fun r => ∀ a, r = .ok a → Q a) p.run

section ends
variable {Q : α → Prop} {R : β → Prop}

theorem Within.ends {p : Prog I α} (hp : Within P p) (hQ : ∀ a, Q a) : Ends P Q p := by
  induction hp with
  | ret a => exact .ret (hQ a)
  | call hc _ ih => exact .call hc ih

theorem Within.safe {p : ExceptT ε (Prog I) α} (hp : Within P p.run) : Safe P (fun _ => True) p :=
  hp.ends fun _ _ _ => trivial

theorem Ends.bind {p : Prog I α} {f : α → Prog I β} (hp : Ends P Q p)
    (hf : ∀ a, Q a → Ends P R (f a)) : Ends P R (p.bind f) := by
  induction hp with
  | ret h => exact hf _ h
  | call hc _ ih => exact .call hc ih

theorem Ends.runs {p : Prog I α} {t : Tree I α} (hp : Ends P Q p) (h : Runs p t) :
    t.forks = 0 ∧ (∀ e ∈ t.calls, P e.1) ∧ ∀ a, t.result = some a → Q a := by
  induction hp generalizing t with
  | ret hQ =>
    rcases runs_ret h with rfl | rfl
    · exact ⟨rfl, by simp [Tree.calls], by simp [Tree.result]⟩
    · exact ⟨rfl, by simp [Tree.calls], by simpa [Tree.result] using hQ⟩
  | call hc _ ih =>
    cases h with
    | stopped => exact ⟨rfl, by simp [Tree.calls], by simp [Tree.result]⟩
    | call answer h =>
      obtain ⟨hforks, hcalls, hresult⟩ := ih answer h
      exact ⟨hforks, List.forall_mem_cons.mpr ⟨hc, hcalls⟩, hresult⟩

/-- A program that begins with one that does not fork runs as its continuation, after some calls. -/
theorem runs_bind_ends {p : Prog I α} {f : α → Prog I β} {t : Tree I β} (hp : Ends P Q p)
    (h : Runs (p.bind f) t) :
    ∃ before t', t = .graft before t' ∧ (∀ e ∈ before, P e.1) ∧
      (t' = .stopped ∨ ∃ a, Q a ∧ Runs (f a) t') := by
  induction hp generalizing t with
  | ret hQ => exact ⟨[], t, rfl, by simp, .inr ⟨_, hQ, h⟩⟩
  | call hc _ ih =>
    cases h with
    | stopped => exact ⟨[], _, rfl, by simp, .inl rfl⟩
    | call answer h =>
      obtain ⟨before, t', rfl, hbefore, ht'⟩ := ih answer h
      exact ⟨⟨_, answer⟩ :: before, t', rfl, List.forall_mem_cons.mpr ⟨hc, hbefore⟩, ht'⟩

theorem Safe.pure {a : α} (h : Q a) : Safe P Q (pure a : ExceptT ε (Prog I) α) :=
  .ret fun _ heq => Except.ok.inj heq ▸ h

theorem Safe.bind {p : ExceptT ε (Prog I) α} {f : α → ExceptT ε (Prog I) β} (hp : Safe P Q p)
    (hf : ∀ a, Q a → Safe P R (f a)) : Safe P R (p >>= f) := by
  refine Ends.bind hp fun r hr => ?_
  cases r with
  | ok a => exact hf a (hr a rfl)
  | error e => exact .ret fun b hb => by cases hb

theorem Safe.catching {p : ExceptT ε (Prog I) α} {handler : ε → Prog I β} {f : α → Prog I β}
    (hp : Safe P Q p) (hhandler : ∀ e, Ends P R (handler e)) (hf : ∀ a, Q a → Ends P R (f a)) :
    Ends P R (Prog.catching p handler f) := by
  refine Ends.bind hp fun r hr => ?_
  cases r with
  | ok a => exact hf a (hr a rfl)
  | error e => exact hhandler e

theorem runs_catching_safe {p : ExceptT ε (Prog I) α} {handler : ε → Prog I β} {f : α → Prog I β}
    {t : Tree I β} (hp : Safe P Q p) (h : Runs (Prog.catching p handler f) t) :
    ∃ before t', t = .graft before t' ∧ (∀ e ∈ before, P e.1) ∧
      (t' = .stopped ∨ (∃ e, Runs (handler e) t') ∨ ∃ a, Q a ∧ Runs (f a) t') := by
  obtain ⟨before, t', rfl, hbefore, rfl | ⟨r, hr, ht'⟩⟩ := runs_bind_ends hp h
  · exact ⟨before, _, rfl, hbefore, .inl rfl⟩
  · refine ⟨before, t', rfl, hbefore, .inr ?_⟩
    cases r with
    | ok a => exact .inr ⟨a, hr a rfl, ht'⟩
    | error e => exact .inl ⟨e, ht'⟩

theorem safe_call {c : I.Call} (hc : P c) :
    Safe P (fun _ => True) (ExceptT.lift (Prog.perform c) : ExceptT ε (Prog I) (I.Answer c)) :=
  .call hc fun _ => .ret fun _ _ => trivial

theorem Safe.foldlM {γ : Type} {f : β → γ → ExceptT ε (Prog I) β} {g : β → γ → β}
    (hf : ∀ b x, Safe P (· = g b x) (f b x)) (xs : List γ) (b : β) :
    Safe P (· = xs.foldl g b) (xs.foldlM f b) := by
  induction xs generalizing b with
  | nil => exact .pure rfl
  | cons x xs ih =>
    rw [List.foldlM_cons, List.foldl_cons]
    refine (hf b x).bind fun b' hb' => ?_
    rw [hb']
    exact ih _

end ends

/-! ### What they end with, by the answers they get

`Ends` says nothing of the answers. Where a program does with them what it ought to, its value is
related to all that it has called and been answered; a process that has come to its end has been
answered each time. -/

/-- The program does not fork, and each value that it can end with is related to the calls before. -/
inductive Yields : (List (Σ c, I.Answer c) → α → Prop) → Prog I α → Prop
  | ret {R : List (Σ c, I.Answer c) → α → Prop} {a : α} (h : R [] a) : Yields R (.ret a)
  | call {R : List (Σ c, I.Answer c) → α → Prop} {c : I.Call} {next : I.Answer c → Prog I α}
      (h : ∀ answer, Yields (fun calls a => R (⟨c, answer⟩ :: calls) a) (next answer)) :
      Yields R (.call c next)

section yields
variable {R : List (Σ c, I.Answer c) → α → Prop} {S : List (Σ c, I.Answer c) → β → Prop}

theorem Yields.bind {p : Prog I α} {f : α → Prog I β} (hp : Yields R p)
    (hf : ∀ calls a, R calls a → Yields (fun later b => S (calls ++ later) b) (f a)) :
    Yields S (p.bind f) := by
  induction hp generalizing S with
  | ret h => exact hf [] _ h
  | call _ ih => exact .call fun answer => ih answer fun calls a ha => hf _ a ha

theorem Yields.imp {R' : List (Σ c, I.Answer c) → α → Prop} {p : Prog I α} (hp : Yields R p)
    (h : ∀ calls a, R calls a → R' calls a) : Yields R' p := by
  induction hp generalizing R' with
  | ret ha => exact .ret (h _ _ ha)
  | call _ ih => exact .call fun answer => ih answer fun calls a ha => h _ a ha

theorem Yields.and {R' : List (Σ c, I.Answer c) → α → Prop} {p : Prog I α} (hp : Yields R p)
    (hp' : Yields R' p) : Yields (fun calls a => R calls a ∧ R' calls a) p := by
  induction hp generalizing R' with
  | ret hR =>
    cases hp' with
    | ret hR' => exact .ret ⟨hR, hR'⟩
  | call _ ih =>
    cases hp' with
    | call hnext => exact .call fun answer => ih answer (hnext answer)

theorem Ends.yields {P : I.Call → Prop} {Q : α → Prop} {p : Prog I α} (hp : Ends P Q p) :
    Yields (fun calls a => (∀ e ∈ calls, P e.1) ∧ Q a) p := by
  induction hp with
  | ret hQ => exact .ret ⟨by simp, hQ⟩
  | call hc _ ih =>
    refine .call fun answer => (ih answer).imp fun calls a ha => ?_
    exact ⟨List.forall_mem_cons.mpr ⟨hc, ha.1⟩, ha.2⟩

/-- Where the program does not throw, its value is related to the calls before. -/
def Gives (Q : List (Σ c, I.Answer c) → α → Prop) (p : ExceptT ε (Prog I) α) : Prop :=
  Yields (fun calls r => ∀ a, r = .ok a → Q calls a) p.run

theorem Safe.gives {P : I.Call → Prop} {Q : α → Prop} {p : ExceptT ε (Prog I) α} (hp : Safe P Q p) :
    Gives (fun calls a => (∀ e ∈ calls, P e.1) ∧ Q a) p :=
  (Ends.yields hp).imp fun _ _ h a ha => ⟨h.1, h.2 a ha⟩

theorem Gives.bind {p : ExceptT ε (Prog I) α} {f : α → ExceptT ε (Prog I) β} (hp : Gives R p)
    (hf : ∀ calls a, R calls a → Gives (fun later b => S (calls ++ later) b) (f a)) :
    Gives S (p >>= f) := by
  refine Yields.bind hp fun calls r hr => ?_
  cases r with
  | ok a => exact hf calls a (hr a rfl)
  | error e => exact .ret fun b hb => by cases hb

theorem Gives.and {R' : List (Σ c, I.Answer c) → α → Prop} {p : ExceptT ε (Prog I) α} (hp : Gives R p)
    (hp' : Gives R' p) : Gives (fun calls a => R calls a ∧ R' calls a) p :=
  (Yields.and hp hp').imp fun _ _ h a ha => ⟨h.1 a ha, h.2 a ha⟩

theorem Gives.pure {a : α} (h : R [] a) : Gives R (pure a : ExceptT ε (Prog I) α) :=
  .ret fun _ heq => Except.ok.inj heq ▸ h

/-- A process at its end has been through all of a program that it begins with. -/
theorem runs_bind_yields {p : Prog I α} {f : α → Prog I β} {t : Tree I β} {b : β} (hp : Yields R p)
    (h : Runs (p.bind f) t) (hresult : t.result = some b) :
    ∃ calls a t', t = .graft calls t' ∧ R calls a ∧ Runs (f a) t' ∧ t'.result = some b := by
  induction hp generalizing t with
  | ret ha => exact ⟨[], _, t, rfl, ha, h, hresult⟩
  | call _ ih =>
    cases h with
    | stopped => cases hresult
    | call answer h =>
      obtain ⟨calls, a, t', rfl, hR, hf, hb⟩ := ih answer h hresult
      exact ⟨⟨_, answer⟩ :: calls, a, t', rfl, hR, hf, hb⟩

end yields

end Fork

import Mathlib.Data.List.GetD
import Mathlib.Logic.Function.Basic
import PQuery.Library.Interleaving

/-!
# Buffered output

A stream keeps what has not reached its file in a buffer. At any time it may write a first part of
the buffer to the file, and at any time it may fail: from then on it takes no more text until it is opened
again. Several processes write to the files, each in an order of its own. What is in a file that only one
of them writes to is a beginning of what this one has taken in.
-/

namespace Output

open Interleaving

variable {κ α : Type*}

/-- What a process does to the files; a path that is opened is truncated. -/
inductive FileOp (κ α : Type*)
  | trunc (path : κ)
  | write (path : κ) (text : List α)

def FileOp.path : FileOp κ α → κ
  | trunc path => path
  | write path _ => path

def FileOp.text : FileOp κ α → List α
  | trunc _ => []
  | write _ text => text

/-- All that some operations write. -/
def written (ops : List (FileOp κ α)) : List α := ops.flatMap FileOp.text

structure OutStream (κ α : Type*) where
  file : Option κ
  buffer : List α
  good : Bool

/-- The stream is given a text and makes these operations on its file. -/
inductive Moves : OutStream κ α → List α → List (FileOp κ α) → OutStream κ α → Prop
  | done (s : OutStream κ α) : Moves s [] [] s
  | put {f : κ} {buffer text : List α} {c : α} {ops : List (FileOp κ α)} {s' : OutStream κ α}
      (h : Moves ⟨some f, buffer ++ [c], true⟩ text ops s') :
      Moves ⟨some f, buffer, true⟩ (c :: text) ops s'
  | lose {file : Option κ} {buffer text : List α} {c : α} {ops : List (FileOp κ α)}
      {s' : OutStream κ α} (h : Moves ⟨file, buffer, false⟩ text ops s') :
      Moves ⟨file, buffer, false⟩ (c :: text) ops s'
  | fail {file : Option κ} {buffer text : List α} {good : Bool} {ops : List (FileOp κ α)}
      {s' : OutStream κ α} (h : Moves ⟨file, buffer, false⟩ text ops s') :
      Moves ⟨file, buffer, good⟩ text ops s'
  | drain {f : κ} {piece buffer text : List α} {good : Bool} {ops : List (FileOp κ α)}
      {s' : OutStream κ α} (hpiece : piece ≠ []) (h : Moves ⟨some f, buffer, good⟩ text ops s') :
      Moves ⟨some f, piece ++ buffer, good⟩ text (.write f piece :: ops) s'

section moves
variable {s s' s'' : OutStream κ α} {text text' : List α} {ops ops' : List (FileOp κ α)}

theorem Moves.trans (h : Moves s text ops s') (h' : Moves s' text' ops' s'') :
    Moves s (text ++ text') (ops ++ ops') s'' := by
  induction h with
  | done s => exact h'
  | put _ ih => exact .put (ih h')
  | lose _ ih => exact .lose (ih h')
  | fail _ ih => exact .fail (ih h')
  | drain hpiece _ ih => exact .drain hpiece (ih h')

theorem Moves.file (h : Moves s text ops s') : s'.file = s.file := by
  induction h with
  | done s => rfl
  | put _ ih => exact ih
  | lose _ ih => exact ih
  | fail _ ih => exact ih
  | drain _ _ ih => exact ih

theorem Moves.writes (h : Moves s text ops s') :
    ∀ op ∈ ops, ∃ f piece, s.file = some f ∧ op = .write f piece ∧ piece ≠ [] := by
  induction h with
  | done s => simp
  | put _ ih => exact ih
  | lose _ ih => exact ih
  | fail _ ih => exact ih
  | drain hpiece _ ih => exact List.forall_mem_cons.mpr ⟨⟨_, _, rfl, rfl, hpiece⟩, ih⟩

theorem Moves.prefix_of_good (h : Moves s text ops s') :
    written ops ++ s'.buffer <+: s.buffer ++ if s.good then text else [] := by
  induction h with
  | done s => split <;> simp [written]
  | put _ ih => simpa using ih
  | lose _ ih => exact ih
  | fail _ ih =>
    rw [if_neg Bool.false_ne_true, List.append_nil] at ih
    exact ih.trans (List.prefix_append _ _)
  | drain hpiece _ ih =>
    simp only [written, List.flatMap_cons, FileOp.text, List.append_assoc] at ih ⊢
    exact (List.prefix_append_right_inj _).mpr ih

/-- Nothing is written that was not in the buffer or in the text, nothing twice, and all of it in order. -/
theorem Moves.written_prefix (h : Moves s text ops s') : written ops <+: s.buffer ++ text := by
  have hgood := (List.prefix_append _ _).trans h.prefix_of_good
  by_cases hs : s.good
  · rwa [if_pos hs] at hgood
  · rw [if_neg hs, List.append_nil] at hgood
    exact hgood.trans (List.prefix_append _ _)

theorem Moves.nothing (h : Moves s [] ops s') (hbuffer : s.buffer = []) : ops = [] := by
  have hwritten := h.written_prefix
  rw [hbuffer, List.append_nil, List.prefix_nil] at hwritten
  rw [List.eq_nil_iff_forall_not_mem]
  intro op hop
  obtain ⟨f, piece, -, rfl, hpiece⟩ := h.writes op hop
  exact hpiece (List.flatMap_eq_nil_iff.mp hwritten _ hop)

theorem moves_put (f : κ) (buffer text : List α) :
    Moves ⟨some f, buffer, true⟩ text [] ⟨some f, buffer ++ text, true⟩ := by
  induction text generalizing buffer with
  | nil =>
    rw [List.append_nil]
    exact .done _
  | cons c text ih =>
    have hrest := ih (buffer ++ [c])
    rw [List.append_assoc, List.singleton_append] at hrest
    exact .put hrest

theorem moves_flush (f : κ) {buffer : List α} (hbuffer : buffer ≠ []) (good : Bool) :
    Moves ⟨some f, buffer, good⟩ [] [.write f buffer] ⟨some f, [], good⟩ := by
  have hdrain := Moves.drain hbuffer (.done ⟨some f, [], good⟩)
  rwa [List.append_nil] at hdrain

end moves

/-! ### Files -/

section files
variable [DecidableEq κ] {files files' : κ → List α} {ops : List (FileOp κ α)} {path : κ}

def FileOp.apply (files : κ → List α) : FileOp κ α → κ → List α
  | trunc path => Function.update files path []
  | write path text => Function.update files path (files path ++ text)

def contents (files : κ → List α) (ops : List (FileOp κ α)) : κ → List α := ops.foldl FileOp.apply files

theorem apply_of_ne {op : FileOp κ α} (h : op.path ≠ path) : op.apply files path = files path := by
  cases op with
  | trunc p => exact Function.update_of_ne (Ne.symm h) _ _
  | write p text => exact Function.update_of_ne (Ne.symm h) _ _

theorem apply_congr (op : FileOp κ α) (h : files path = files' path) :
    op.apply files path = op.apply files' path := by
  by_cases hpath : op.path = path
  · cases op with
    | trunc p =>
      obtain rfl : p = path := hpath
      simp [FileOp.apply]
    | write p text =>
      obtain rfl : p = path := hpath
      simp [FileOp.apply, h]
  · rw [apply_of_ne hpath, apply_of_ne hpath, h]

theorem contents_congr (h : files path = files' path) : contents files ops path = contents files' ops path := by
  induction ops generalizing files files' with
  | nil => exact h
  | cons op ops ih => exact ih (apply_congr op h)

theorem contents_writes (h : ∀ op ∈ ops, ∃ text, op = .write path text) :
    contents files ops path = files path ++ written ops := by
  induction ops generalizing files with
  | nil => simp [contents, written]
  | cons op ops ih =>
    obtain ⟨⟨text, rfl⟩, hops⟩ := List.forall_mem_cons.mp h
    have hone : FileOp.apply files (.write path text) path = files path ++ text :=
      Function.update_self ..
    show contents (FileOp.apply files (.write path text)) ops path = _
    rw [ih hops, hone, written, written, List.flatMap_cons, FileOp.text, List.append_assoc]

theorem Moves.contents_prefix {s s' : OutStream κ α} {text : List α} {done : List (FileOp κ α)}
    (h : Moves s text ops s') (hfile : s.file = some path) (hdone : done <+: ops) :
    ∃ added, added <+: s.buffer ++ text ∧ contents files done path = files path ++ added := by
  obtain ⟨rest, rfl⟩ := hdone
  have hwrites : ∀ op ∈ done, ∃ text, op = .write path text := by
    intro op hop
    obtain ⟨f, piece, hf, rfl, -⟩ := h.writes op (List.mem_append_left rest hop)
    obtain rfl := Option.some.inj (hf.symm.trans hfile)
    exact ⟨piece, rfl⟩
  have hprefix : written done <+: written (done ++ rest) := by
    rw [written, written, List.flatMap_append]
    exact List.prefix_append _ _
  exact ⟨written done, hprefix.trans h.written_prefix, contents_writes hwrites⟩

/-- Operations of several processes, each having got to some point of its own. -/
def Interleaved {β : Type*} (processes : List (List β)) (es : List (Nat × β)) : Prop :=
  ∀ k, own k es <+: processes.getD k []

theorem contents_own {k : Nat} {es : List (Nat × FileOp κ α)} (h : ∀ e ∈ es, e.1 ≠ k → e.2.path ≠ path) :
    contents files (es.map Prod.snd) path = contents files (own k es) path := by
  induction es generalizing files with
  | nil => rfl
  | cons e es ih =>
    obtain ⟨he, hes⟩ := List.forall_mem_cons.mp h
    rw [own]
    by_cases hk : e.1 = k
    · rw [if_pos hk]
      exact ih hes
    · rw [if_neg hk, ← ih hes]
      exact contents_congr (apply_of_ne (he hk))

theorem mem_own {β : Type*} {e : Nat × β} {es : List (Nat × β)} (h : e ∈ es) : e.2 ∈ own e.1 es := by
  induction es with
  | nil => cases h
  | cons e' es ih =>
    rw [own]
    rcases List.mem_cons.mp h with rfl | h
    · rw [if_pos rfl]
      exact List.mem_cons_self
    · split
      · exact List.mem_cons_of_mem _ (ih h)
      · exact ih h

/-- Where all processes but the first keep away from a path, it holds what the first has got to. -/
theorem Interleaved.contents {processes : List (List (FileOp κ α))} {es : List (Nat × FileOp κ α)}
    (h : Interleaved (ops :: processes) es) (hothers : ∀ p ∈ processes, ∀ op ∈ p, op.path ≠ path) :
    ∃ done, done <+: ops ∧ Output.contents files (es.map Prod.snd) path = Output.contents files done path := by
  refine ⟨own 0 es, h 0, contents_own fun e he hk => ?_⟩
  have hmem := (h e.1).subset (mem_own he)
  obtain ⟨k, hk⟩ := Nat.exists_eq_succ_of_ne_zero hk
  rw [hk, List.getD_cons_succ] at hmem
  by_cases hlt : k < processes.length
  · rw [List.getD_eq_getElem _ _ hlt] at hmem
    exact hothers _ (List.getElem_mem hlt) _ hmem
  · rw [List.getD_eq_default _ _ (by omega)] at hmem
    cases hmem

end files

end Output

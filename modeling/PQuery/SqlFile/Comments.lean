import PQuery.SqlFile.Refinement

/-!
# Dropped comments and the tokens beside them

`placedStatements` keeps with every character of a statement its position in the file. Two
neighbours of a statement that were not neighbours in the file had a comment or a DELIMITER command
between them, and `placedFrom_unglued` says for which files no two of them are tokens glued together:
those in which every dropped stretch inside a statement has a blank on one of its sides. The
splitter does not put a separator in the place of what it drops, so `SELECT/**/1` is sent as
`SELECT1`.
-/

namespace PQuery.SqlFile

open ListScan

/-- Characters with their positions in the file. -/
abbrev Placed := List (Char × Nat)

def emitPlaced (statement : Placed) : List Placed :=
  let trimmed := strip (isBlank ∘ Prod.fst) statement
  if trimmed = [] then [] else [trimmed]

/-- `statementsFrom` with positions, `pos` being that of the first piece. -/
def placedFrom (pending : Placed) (pos : Nat) : List Piece → List Placed
  | [] => emitPlaced pending
  | .delimiter text :: ps => emitPlaced pending ++ placedFrom [] (pos + text.length) ps
  | .kept text :: ps => placedFrom (pending ++ text.zipIdx pos) (pos + text.length) ps
  | .command line _ :: ps => placedFrom pending (pos + line.length) ps
  | .comment text :: ps => placedFrom pending (pos + text.length) ps

/-- The statements of a file with the positions of their characters. -/
def placedStatements (dollarQuoting : Bool) (file : Str) : List Placed :=
  placedFrom [] 0 (pieces dollarQuoting true semicolon (terminated '\n' file))

/-! ### The positions are those of the file -/

theorem emitPlaced_fst (statement : Placed) :
    (emitPlaced statement).map (List.map Prod.fst) = emit (statement.map Prod.fst) := by
  simp only [emitPlaced, emit, trim, strip_map, List.map_eq_nil_iff]
  split <;> simp

theorem placedFrom_fst (pending : Placed) (pos : Nat) (ps : List Piece) :
    (placedFrom pending pos ps).map (List.map Prod.fst) =
      statementsFrom (pending.map Prod.fst) ps := by
  induction ps generalizing pending pos with
  | nil => exact emitPlaced_fst pending
  | cons p ps ih =>
    cases p with
    | command line d => exact ih _ _
    | delimiter text => rw [placedFrom, statementsFrom, List.map_append, ih, emitPlaced_fst]; rfl
    | comment text => exact ih _ _
    | kept text => rw [placedFrom, statementsFrom, ih, List.map_append, List.zipIdx_map_fst]

theorem placedStatements_fst (dollarQuoting : Bool) (file : Str) :
    (placedStatements dollarQuoting file).map (List.map Prod.fst) =
      loadQueriesFromFile dollarQuoting [] file := by
  rw [placedStatements, placedFrom_fst, splitStatements_pieces]
  rfl

theorem mem_emitPlaced {statement : Placed} {st : Placed} (h : st ∈ emitPlaced statement)
    {x : Char × Nat} (hx : x ∈ st) : x ∈ statement := by
  simp only [emitPlaced] at h
  split at h
  · simp at h
  · rw [List.mem_singleton] at h
    subst h
    obtain ⟨l, r, hstatement, -, -⟩ := exists_strip (isBlank ∘ Prod.fst) statement
    rw [hstatement]
    simp [hx]

theorem zipIdx_get {before text after : Str} {x : Char × Nat}
    (hx : x ∈ text.zipIdx before.length) : (before ++ text ++ after)[x.2]? = some x.1 := by
  obtain ⟨c, i⟩ := x
  obtain ⟨hle, hlt, hc⟩ := List.mem_zipIdx hx
  rw [List.append_assoc, List.getElem?_append_right hle, List.getElem?_append_left (by omega),
    List.getElem?_eq_getElem (by omega), hc]

theorem placedFrom_get {file : Str} {ps : List Piece} {before : Str} {pending : Placed}
    (hfile : before ++ ps.flatMap Piece.text = file)
    (hpending : ∀ x ∈ pending, file[x.2]? = some x.1) :
    ∀ st ∈ placedFrom pending before.length ps, ∀ x ∈ st, file[x.2]? = some x.1 := by
  induction ps generalizing before pending with
  | nil => exact fun st hst x hx => hpending x (mem_emitPlaced hst hx)
  | cons p ps ih =>
    rw [List.flatMap_cons, ← List.append_assoc] at hfile
    have hlen : before.length + p.text.length = (before ++ p.text).length := by simp
    cases p with
    | command line d => exact fun st hst => ih hfile hpending st (hlen ▸ hst)
    | comment text => exact fun st hst => ih hfile hpending st (hlen ▸ hst)
    | delimiter text =>
      intro st hst x hx
      rcases List.mem_append.mp hst with hst | hst
      · exact hpending x (mem_emitPlaced hst hx)
      · exact ih hfile (by simp) st (hlen ▸ hst) x hx
    | kept text =>
      rw [placedFrom, show text.length = (Piece.kept text).text.length from rfl, hlen]
      refine ih hfile fun x hx => ?_
      rcases List.mem_append.mp hx with hx | hx
      · exact hpending x hx
      · rw [← hfile]
        exact zipIdx_get hx

/-! ### Neighbours -/

/-- Two neighbours of a statement that are no blanks were neighbours in the file. -/
def Adjacent (a b : Char × Nat) : Prop :=
  isBlank a.1 = false → isBlank b.1 = false → b.2 = a.2 + 1

/-- No two tokens of the statement are glued together. -/
def Unglued (statement : Placed) : Prop := statement.IsChain Adjacent

/-- Every stretch of dropped pieces inside a statement has a blank beside it. `last` is the last
character that the statement has so far, and `gap` tells whether something was dropped after it. -/
def SeparatedFrom (last : Option Char) (gap : Bool) : List Piece → Prop
  | [] => True
  | .delimiter _ :: ps => SeparatedFrom none false ps
  | .command _ _ :: ps => SeparatedFrom last true ps
  | .comment _ :: ps => SeparatedFrom last true ps
  | .kept text :: ps =>
    (gap = true → ∀ a ∈ last, ∀ b ∈ text.head?, isBlank a = true ∨ isBlank b = true) ∧
      SeparatedFrom (text.getLast?.or last) false ps

/-- The files in which no comment and no DELIMITER command stands directly between two tokens of a
statement. -/
def Separated (dollarQuoting : Bool) (file : Str) : Prop :=
  SeparatedFrom none false (pieces dollarQuoting true semicolon (terminated '\n' file))

theorem unglued_strip (statement : Placed) :
    Unglued (strip (isBlank ∘ Prod.fst) statement) ↔ Unglued statement := by
  apply isChain_strip
  · intro a b ha h
    simp_all
  · intro a b hb _ h
    simp_all

theorem unglued_emitPlaced (statement : Placed) :
    (∀ st ∈ emitPlaced statement, Unglued st) ↔ Unglued statement := by
  rw [← unglued_strip statement]
  rw [emitPlaced]
  by_cases h : strip (isBlank ∘ Prod.fst) statement = []
  · simp [h, Unglued]
  · simp [h]

theorem unglued_zipIdx (text : Str) (pos : Nat) : Unglued (text.zipIdx pos) := by
  refine List.isChain_iff_getElem.mpr fun i hi _ _ => ?_
  simp only [List.getElem_zipIdx]
  omega

/-- The place after the pending statement: right here, or before what was dropped. -/
def EndsAt (pending : Placed) (last : Option Char) (gap : Bool) (pos : Nat) : Prop :=
  (pending.getLast?.map Prod.fst = last) ∧
    ∀ a ∈ pending.getLast?, if gap then a.2 + 1 < pos else a.2 + 1 = pos

theorem EndsAt.drop {pending : Placed} {last : Option Char} {gap : Bool} {pos n : Nat}
    (h : EndsAt pending last gap pos) (hn : 0 < n) : EndsAt pending last true (pos + n) := by
  refine ⟨h.1, fun a ha => ?_⟩
  have := h.2 a ha
  split at this
  · simp only [if_true]
    omega
  · simp only [if_true]
    omega

theorem endsAt_keep {text : Str} (ht : text ≠ []) (pending : Placed) (last : Option Char) (pos : Nat) :
    EndsAt (pending ++ text.zipIdx pos) (text.getLast?.or last) false (pos + text.length) := by
  have hlast : (pending ++ text.zipIdx pos).getLast? =
      some (text.getLast ht, pos + text.length - 1) := by
    rw [List.getLast?_append, List.getLast?_zipIdx, List.getLast?_eq_some_getLast ht]
    simp
  have hpos := List.length_pos_iff.mpr ht
  refine ⟨by rw [hlast, List.getLast?_eq_some_getLast ht]; rfl, fun a ha => ?_⟩
  obtain rfl : (_, _) = a := by simpa [hlast] using ha
  simp only [Bool.false_eq_true, if_false]
  omega

/-- Appending a kept text glues nothing if a blank stands beside the gap, and only then. -/
theorem EndsAt.unglued_append {pending : Placed} {last : Option Char} {gap : Bool} {pos : Nat}
    {text : Str} (h : EndsAt pending last gap pos) (ht : text ≠ []) :
    Unglued (pending ++ text.zipIdx pos) ↔ Unglued pending ∧
      (gap = true → ∀ a ∈ last, ∀ b ∈ text.head?, isBlank a = true ∨ isBlank b = true) := by
  obtain ⟨c, text, rfl⟩ := List.exists_cons_of_ne_nil ht
  have hz := unglued_zipIdx (c :: text) pos
  unfold Unglued at hz ⊢
  rw [List.zipIdx_cons] at hz ⊢
  rw [List.isChain_append]
  simp only [hz, true_and, List.head?_cons, Option.mem_some_iff]
  refine and_congr_right fun _ => ?_
  obtain ⟨hlast, hat⟩ := h
  cases hp : pending.getLast? with
  | none =>
    rw [hp] at hlast
    simp [← hlast]
  | some a =>
    have hat := hat a (by simp [hp])
    rw [hp] at hlast
    subst hlast
    cases gap with
    | false =>
      have hadj : pos = a.2 + 1 := by simpa using hat.symm
      simp [Adjacent, hadj]
    | true =>
      have hne : pos ≠ a.2 + 1 := by
        simp only [if_true] at hat
        omega
      cases ha : isBlank a.1 <;> cases hc : isBlank c <;> simp [Adjacent, hne, ha, hc]

theorem placedFrom_unglued {ps : List Piece} (hps : ∀ p ∈ ps, p.text ≠ []) {pending : Placed}
    {last : Option Char} {gap : Bool} {pos : Nat} (h : EndsAt pending last gap pos) :
    (∀ st ∈ placedFrom pending pos ps, Unglued st) ↔
      Unglued pending ∧ SeparatedFrom last gap ps := by
  induction ps generalizing pending last gap pos with
  | nil => simp [placedFrom, SeparatedFrom, unglued_emitPlaced]
  | cons p ps ih =>
    have hp := hps p (by simp)
    have hpos := List.length_pos_iff.mpr hp
    have ih := @ih fun p hp => hps p (by simp [hp])
    cases p with
    | command line d => exact ih (h.drop hpos)
    | comment text => exact ih (h.drop hpos)
    | delimiter text =>
      have hnil : EndsAt [] none false (pos + text.length) := by simp [EndsAt]
      simp only [placedFrom, List.mem_append, or_imp, forall_and, unglued_emitPlaced, ih hnil,
        SeparatedFrom]
      simp [Unglued]
    | kept text =>
      have ht : text ≠ [] := hp
      rw [placedFrom, ih (endsAt_keep ht pending last pos), h.unglued_append ht, SeparatedFrom, and_assoc]

/-- **Dropped pieces glue tokens exactly where no blank stands beside them.** The placed statements
are the statements of the splitter with the positions of their characters in the file, and their
neighbours that are no blanks are neighbours of the file if and only if the file is separated. -/
theorem loadQueriesFromFile_unglued (dollarQuoting : Bool) (file : Str) :
    (placedStatements dollarQuoting file).map (List.map Prod.fst) =
        loadQueriesFromFile dollarQuoting [] file ∧
      (∀ st ∈ placedStatements dollarQuoting file, ∀ x ∈ st,
        (terminated '\n' file)[x.2]? = some x.1) ∧
      ((∀ st ∈ placedStatements dollarQuoting file, Unglued st) ↔ Separated dollarQuoting file) := by
  refine ⟨placedStatements_fst dollarQuoting file, ?_, ?_⟩
  · have hfile := pieces_text dollarQuoting true semicolon (terminated '\n' file)
    rw [← List.nil_append (List.flatMap _ _)] at hfile
    exact placedFrom_get hfile (by simp)
  · have hstart : EndsAt [] none false 0 := by simp [EndsAt]
    have hnil : Unglued [] := by simp [Unglued]
    rw [placedStatements, placedFrom_unglued (fun p => pieces_ne_nil) hstart, Separated]
    exact and_iff_right hnil

/-- A comment stood between the keyword and the number, and nothing stands there in the statement. -/
theorem not_loadQueriesFromFile_unglued :
    loadQueriesFromFile true [] "SELECT/**/1;".toList = ["SELECT1".toList] ∧
      ¬ ∀ st ∈ placedStatements true "SELECT/**/1;".toList, Unglued st := by
  have hrun : placedStatements true "SELECT/**/1;".toList =
      [[('S', 0), ('E', 1), ('L', 2), ('E', 3), ('C', 4), ('T', 5), ('1', 10)]] := by
    decide +kernel
  refine ⟨by decide +kernel, fun h => ?_⟩
  have hchain := h _ (by rw [hrun]; exact List.mem_singleton.mpr rfl)
  simp [Unglued, Adjacent, isBlank] at hchain

end PQuery.SqlFile

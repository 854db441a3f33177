import Mathlib.Algebra.Order.BigOperators.Group.List
import Mathlib.Algebra.Order.Group.Nat
import Mathlib.Algebra.Order.Ring.Int
import PQuery.SqlFile.Opaque

/-!
# Files made of records

A record is a statement, an annotation (nothing, or a `#` comment) and a newline. Such a file has no
delimiter, so its statements are those of the records only where there is one record at most. That
there cannot be more follows from counting the characters that are not blank: the statements of a
file have no more of them than its kept pieces, every other piece has some, and a file that gives
two statements has a delimiter (`statements_records_iff`).
-/

namespace PQuery.SqlFile

open ListScan

/-! ### Characters that are not blank -/

def solid (text : Str) : Nat := text.countP fun c => !isBlank c

@[simp] theorem solid_nil : solid [] = 0 := rfl

@[simp] theorem solid_append (a b : Str) : solid (a ++ b) = solid a + solid b := List.countP_append

theorem solid_pos_iff {text : Str} : 0 < solid text ↔ ∃ c ∈ text, isBlank c = false := by
  simp [solid, List.countP_pos_iff]

@[simp] theorem solid_trim (text : Str) : solid (trim text) = solid text := by
  obtain ⟨a, b, htext, ha, hb⟩ := exists_strip isBlank text
  have hzero : ∀ u : Str, (∀ c ∈ u, isBlank c = true) → solid u = 0 := fun u hu => by
    simpa [solid, List.countP_eq_zero] using hu
  conv_rhs => rw [htext]
  rw [solid_append, solid_append, hzero a ha, hzero b hb]
  simp [trim]

theorem solid_flatMap {α : Type*} (f : α → Str) (xs : List α) :
    solid (xs.flatMap f) = (xs.map fun x => solid (f x)).sum := by
  induction xs with
  | nil => rfl
  | cons x xs ih => rw [List.flatMap_cons, solid_append, ih, List.map_cons, List.sum_cons]

/-! ### What the pieces contribute -/

def Piece.isKept : Piece → Bool
  | .kept _ => true
  | _ => false

def Piece.isDelimiter : Piece → Bool
  | .delimiter _ => true
  | _ => false

/-- What is kept of a piece. -/
def Piece.keptText : Piece → Str
  | .kept text => text
  | _ => []

theorem isDelimiter_of_isKept {p : Piece} (h : p.isKept = true) : p.isDelimiter = false := by
  cases p with
  | kept text => rfl
  | _ => cases h

theorem foldl_inForce {ps : List Piece} (h : ∀ p ∈ ps, p.isKept = true) (d : Delimiter) :
    ps.foldl Piece.inForce d = d := by
  induction ps with
  | nil => rfl
  | cons p ps ih =>
    cases p with
    | kept text => exact ih fun p hp => h p (List.mem_cons_of_mem _ hp)
    | _ => cases h _ List.mem_cons_self

theorem solid_emit (statement : Str) : ((emit statement).map solid).sum = solid statement := by
  rw [emit]
  split
  · rename_i h
    rw [← solid_trim, h]
    rfl
  · simp

theorem solid_statementsFrom (pending : Str) (ps : List Piece) :
    ((statementsFrom pending ps).map solid).sum =
      solid pending + (ps.map fun p => solid p.keptText).sum := by
  induction ps generalizing pending with
  | nil => simp [statementsFrom, solid_emit]
  | cons p ps ih =>
    cases p with
    | delimiter text => simp [statementsFrom, solid_emit, ih, Piece.keptText]
    | kept text => simp [statementsFrom, ih, Piece.keptText, Nat.add_assoc]
    | command line d => simp [statementsFrom, ih, Piece.keptText]
    | comment text => simp [statementsFrom, ih, Piece.keptText]

theorem statementsFrom_kept {ps : List Piece} (h : ∀ p ∈ ps, p.isKept = true) (pending : Str)
    (qs : List Piece) :
    statementsFrom pending (ps ++ qs) =
      statementsFrom (pending ++ ps.flatMap Piece.text) qs := by
  induction ps generalizing pending with
  | nil => simp
  | cons p ps ih =>
    have hps : ∀ p ∈ ps, p.isKept = true := fun p' hp' => h p' (List.mem_cons_of_mem p hp')
    cases p with
    | kept text =>
      rw [List.cons_append, statementsFrom, ih hps, List.flatMap_cons, List.append_assoc]
      rfl
    | _ => cases h _ List.mem_cons_self

theorem length_statementsFrom_le {ps : List Piece} (h : ∀ p ∈ ps, p.isDelimiter = false)
    (pending : Str) : (statementsFrom pending ps).length ≤ 1 := by
  induction ps generalizing pending with
  | nil =>
    rw [statementsFrom, emit]
    split <;> simp
  | cons p ps ih =>
    have hps : ∀ p ∈ ps, p.isDelimiter = false := fun p' hp' => h p' (List.mem_cons_of_mem p hp')
    cases p with
    | delimiter text => cases h _ List.mem_cons_self
    | _ => exact ih hps _

/-! ### A piece that is not kept is not blank -/

theorem mem_through_of_mem_firstLine {text : Str} {c : Char} (hc : c ∈ firstLine text) :
    c ∈ through ['\n'] text := by
  by_cases hnl : '\n' ∈ text
  · obtain ⟨l, v, rfl, hl⟩ := List.eq_append_cons_of_mem hnl
    rw [firstLine_append hl] at hc
    rw [through_singleton hl]
    exact List.mem_append_left _ hc
  · rw [through_of_not_mem hnl]
    exact (List.takeWhile_prefix _).subset hc

theorem solid_pos_of_trim {text : Str} (h : trim text ≠ []) : 0 < solid text := by
  rw [solid_pos_iff]
  by_contra hnot
  refine h (strip_eq_nil.mpr fun c hc => ?_)
  by_contra hblank
  exact hnot ⟨c, hc, by simpa using hblank⟩

theorem command_solid {line : Str} {d : Delimiter} (h : command line = some d) :
    0 < solid line ∧ 0 < solid d.text := by
  simp only [command] at h
  split at h
  · rename_i hword
    split at h
    · rename_i hrest
      obtain rfl := Option.some.inj h
      refine ⟨solid_pos_of_trim fun hnil => ?_, ?_⟩
      · rw [hnil] at hword
        simp at hword
      · show 0 < solid (trim _)
        rw [solid_trim]
        exact solid_pos_of_trim hrest.1
    · cases h
  · cases h

section
variable {dollarQuoting : Bool}

theorem firstPiece_solid {atStart : Bool} {d : Delimiter} {text : Str} (hd : 0 < solid d.text) :
    ((firstPiece dollarQuoting atStart d text).isKept = false →
        0 < solid (firstPiece dollarQuoting atStart d text).text) ∧
      0 < solid ((firstPiece dollarQuoting atStart d text).inForce d).text := by
  unfold firstPiece
  split
  · rename_i d' hcmd
    obtain ⟨_, hcmd⟩ := Option.ite_none_right_eq_some.mp hcmd
    obtain ⟨hline, hd'⟩ := command_solid hcmd
    refine ⟨fun _ => ?_, hd'⟩
    obtain ⟨c, hc, hblank⟩ := solid_pos_iff.mp hline
    exact solid_pos_iff.mpr ⟨c, mem_through_of_mem_firstLine hc, hblank⟩
  · have hspec := look_spec dollarQuoting d.text text
    cases hl : look dollarQuoting d.text text with
    | delimiter => exact ⟨fun _ => hd, hd⟩
    | lineComment opener =>
      rw [hl] at hspec
      refine ⟨fun _ => ?_, hd⟩
      show 0 < solid (opener ++ _)
      rw [solid_append]
      rcases (lineCommentOpener_eq_some hspec).1 with rfl | rfl | ⟨rfl, _⟩ <;>
        exact Nat.add_pos_left (by decide) _
    | blockComment =>
      refine ⟨fun _ => ?_, hd⟩
      show 0 < solid (['/', '*'] ++ _)
      rw [solid_append]
      exact Nat.add_pos_left (by decide) _
    | _ => exact ⟨fun h => (by cases h), hd⟩

theorem solid_pos_of_pieces {atStart : Bool} {d : Delimiter} {text : Str} (hd : 0 < solid d.text)
    {p : Piece} (hp : p ∈ pieces dollarQuoting atStart d text) (hkept : p.isKept = false) :
    0 < solid p.text := by
  induction atStart, d, text using @pieces_induction dollarQuoting with
  | nil atStart d => simp at hp
  | cons atStart d text ht ih =>
    obtain ⟨hfirst, hforce⟩ := @firstPiece_solid dollarQuoting atStart d text hd
    rw [pieces_of_ne ht] at hp
    rcases List.mem_cons.mp hp with rfl | hp
    · exact hfirst hkept
    · exact ih hforce hp

/-- If the statements that the first pieces make have all their characters that are not blank, these
pieces are kept. -/
theorem isKept_of_solid {text : Str} {ps tail : List Piece}
    (hps : pieces dollarQuoting true semicolon text = ps ++ tail)
    (h : ((statementsFrom [] ps).map solid).sum = solid (ps.flatMap Piece.text)) :
    ∀ p ∈ ps, p.isKept = true := by
  intro p hp
  by_contra hkept
  rw [Bool.not_eq_true] at hkept
  have hlt : (ps.map fun p => solid p.keptText).sum < (ps.map fun p => solid p.text).sum := by
    refine List.sum_lt_sum _ _ (fun q _ => ?_) ⟨p, hp, ?_⟩
    · cases q with
      | kept text => exact Nat.le_refl _
      | _ => exact Nat.zero_le _
    · have hmem : p ∈ pieces dollarQuoting true semicolon text := hps ▸ List.mem_append_left _ hp
      have hpos := solid_pos_of_pieces (d := semicolon) (by decide) hmem hkept
      cases p with
      | kept text => cases hkept
      | _ => exact hpos
  rw [solid_statementsFrom, solid_nil, Nat.zero_add] at h
  rw [h, ← solid_flatMap] at hlt
  exact Nat.lt_irrefl _ hlt

/-! ### Records -/

/-- The text of a statement with its annotation. -/
def recordText (r : Str × Str) : Str := r.1 ++ (r.2 ++ ['\n'])

/-- What is written behind a statement: nothing, or a comment in its line. -/
def Annotation (annotated : Bool) (text : Str) : Prop :=
  if annotated then ∃ x, text = '#' :: x ∧ '\n' ∉ x else text = []

/-- Scanned from the Normal state the statement is kept as it is, and a comment can follow it. -/
def Closed (dollarQuoting : Bool) (statement : Str) : Prop :=
  ∃ ps, (∀ p ∈ ps, p.isKept = true) ∧
    pieces dollarQuoting true semicolon (statement ++ ['#', '\n']) = ps ++ [.comment ['#', '\n']]

/-- The statement alone in its record is read back: it is kept as it is, and the annotation is
dropped. -/
def Alone (dollarQuoting annotated : Bool) (statement : Str) : Prop :=
  if annotated then Closed dollarQuoting statement
  else ∀ p ∈ pieces dollarQuoting true semicolon (statement ++ ['\n']), p.isKept = true

/-- No statement, or one that stands alone. -/
def Replayable (dollarQuoting annotated : Bool) (queries : List Str) : Prop :=
  queries = [] ∨ ∃ q, queries = [q] ∧ Alone dollarQuoting annotated q

theorem pieces_hash {x : Str} (hx : '\n' ∉ x) (atStart : Bool) (rest : Str) :
    pieces dollarQuoting atStart semicolon ('#' :: (x ++ '\n' :: rest)) =
      .comment ('#' :: (x ++ ['\n'])) :: pieces dollarQuoting true semicolon rest := by
  have hfirst : firstPiece dollarQuoting atStart semicolon ('#' :: (x ++ '\n' :: rest)) =
      .comment ('#' :: (x ++ ['\n'])) :=
    Construct.firstPiece_eq (k := .hash) trivial (closes_singleton.mpr hx)
      (forall_mem_of_all (by decide)) atStart rest
  have hends : (Piece.comment ('#' :: (x ++ ['\n']))).endsLine = true := by
    show (('#' :: x ++ ['\n']).getLast? == some '\n') = true
    rw [List.getLast?_concat]
    decide
  have hdrop : ('#' :: (x ++ '\n' :: rest)).drop (Piece.comment ('#' :: (x ++ ['\n']))).text.length =
      rest := by
    have htext : '#' :: (x ++ '\n' :: rest) = '#' :: (x ++ ['\n']) ++ rest := by simp
    rw [htext]
    exact List.drop_left
  rw [pieces_of_ne (List.cons_ne_nil _ _), hfirst, hends, hdrop]
  rfl

theorem pieces_closed {statement : Str} (h : Closed dollarQuoting statement) {x : Str}
    (hx : '\n' ∉ x) : ∃ ps, (∀ p ∈ ps, p.isKept = true) ∧ ps.flatMap Piece.text = statement ∧
      ∀ rest, pieces dollarQuoting true semicolon (recordText (statement, '#' :: x) ++ rest) =
        ps ++ .comment ('#' :: (x ++ ['\n'])) :: pieces dollarQuoting true semicolon rest := by
  obtain ⟨ps, hkept, hps⟩ := h
  have htext : ps.flatMap Piece.text = statement := by
    have hspell := pieces_text dollarQuoting true semicolon (statement ++ ['#', '\n'])
    rw [hps, List.flatMap_append] at hspell
    exact List.append_cancel_right hspell
  have hforce := foldl_inForce hkept semicolon
  refine ⟨ps, hkept, htext, fun rest => ?_⟩
  have hbarrier : Barrier '#' [] := ⟨by decide, by decide, by decide⟩
  rw [← htext] at hps
  have hlocal := pieces_local hbarrier hps (by rw [hforce]; decide) (x ++ '\n' :: rest)
  have hrecord : recordText (statement, '#' :: x) ++ rest =
      statement ++ (['#'] ++ (x ++ '\n' :: rest)) := by
    simp [recordText]
  rw [hforce, htext, ← hrecord] at hlocal
  exact hlocal.trans (congrArg (ps ++ ·) (pieces_hash hx _ rest))

theorem statements_records (recs : List (Str × Str)) :
    statements dollarQuoting (recs.flatMap recordText) =
      statementsFrom [] (pieces dollarQuoting true semicolon (recs.flatMap recordText)) := by
  have hlast : terminated '\n' (recs.flatMap recordText) = recs.flatMap recordText := by
    rcases List.eq_nil_or_concat recs with rfl | ⟨init, r, rfl⟩
    · rfl
    · have hconcat : (init.concat r).flatMap recordText =
          init.flatMap recordText ++ (r.1 ++ r.2) ++ ['\n'] := by
        simp [recordText]
      rw [hconcat]
      exact terminated_of_getLast
  rw [statements, hlast]

theorem mem_statementsFrom {q pending : Str} {ps : List Piece} (h : q ∈ statementsFrom pending ps) :
    trim q = q ∧ q ≠ [] := by
  have hemit : ∀ {statement : Str}, q ∈ emit statement → trim q = q ∧ q ≠ [] := by
    intro statement hq
    rw [emit] at hq
    split at hq
    · cases hq
    · rename_i hne
      obtain rfl := List.mem_singleton.mp hq
      exact ⟨strip_strip _ _, hne⟩
  induction ps generalizing pending with
  | nil => exact hemit h
  | cons p ps ih =>
    cases p with
    | delimiter text =>
      rcases List.mem_append.mp h with h | h
      · exact hemit h
      · exact ih h
    | kept text => exact ih h
    | command line d => exact ih h
    | comment text => exact ih h

theorem length_statements_le (dollarQuoting : Bool) (file : Str) :
    (statements dollarQuoting file).length ≤ file.length := by
  have hkept : ∀ ps : List Piece,
      (ps.map fun p => solid p.keptText).sum ≤ (ps.map fun p => solid p.text).sum := by
    intro ps
    refine List.sum_le_sum fun p _ => ?_
    cases p with
    | kept text => exact Nat.le_refl _
    | _ => exact Nat.zero_le _
  have hpos : ∀ q ∈ statements dollarQuoting file, 1 ≤ solid q := by
    intro q hq
    obtain ⟨htrim, hne⟩ := mem_statementsFrom hq
    exact solid_pos_of_trim (by rwa [htrim])
  have hfile : solid (terminated '\n' file) ≤ file.length := by
    rcases terminated_eq '\n' file with h | h
    · rw [h]
      exact List.countP_le_length
    · rw [h, solid_append]
      exact List.countP_le_length
  calc (statements dollarQuoting file).length
      = ((statements dollarQuoting file).map fun _ => 1).sum := by simp
    _ ≤ ((statements dollarQuoting file).map solid).sum := List.sum_le_sum hpos
    _ = ((pieces dollarQuoting true semicolon (terminated '\n' file)).map
          fun p => solid p.keptText).sum := by
        rw [statements, solid_statementsFrom, solid_nil, Nat.zero_add]
    _ ≤ ((pieces dollarQuoting true semicolon (terminated '\n' file)).map
          fun p => solid p.text).sum := hkept _
    _ = solid (terminated '\n' file) := by rw [← solid_flatMap, pieces_text]
    _ ≤ file.length := hfile

theorem emit_of_trim {statement : Str} (htrim : trim statement = statement) (hne : statement ≠ []) :
    emit statement = [statement] := by
  rw [emit, htrim, if_neg hne]

theorem isDelimiter_records : ∀ {recs : List (Str × Str)},
    (∀ r ∈ recs, Annotation true r.2) → (∀ r ∈ recs, Closed dollarQuoting r.1) →
      ∀ p ∈ pieces dollarQuoting true semicolon (recs.flatMap recordText), p.isDelimiter = false := by
  intro recs
  induction recs with
  | nil =>
    intro _ _ p hp
    simp at hp
  | cons r recs ih =>
    intro hann hclosed p hp
    obtain ⟨statement, annotation⟩ := r
    obtain ⟨x, rfl, hx⟩ : ∃ x, annotation = '#' :: x ∧ '\n' ∉ x := hann _ List.mem_cons_self
    obtain ⟨ps, hkept, _, hpieces⟩ := pieces_closed (hclosed _ List.mem_cons_self) hx
    rw [List.flatMap_cons, hpieces] at hp
    rcases List.mem_append.mp hp with hp | hp
    · exact isDelimiter_of_isKept (hkept p hp)
    · rcases List.mem_cons.mp hp with rfl | hp
      · rfl
      · exact ih (fun r hr => hann r (List.mem_cons_of_mem _ hr))
          (fun r hr => hclosed r (List.mem_cons_of_mem _ hr)) p hp

theorem recordText_of_nil {r : Str × Str} (h : Annotation false r.2) :
    recordText r = r.1 ++ ['\n'] := by
  have hnil : r.2 = [] := h
  rw [recordText, hnil, List.nil_append]

theorem statements_record {annotated : Bool} {r : Str × Str} (htrim : trim r.1 = r.1)
    (hne : r.1 ≠ []) (hann : Annotation annotated r.2) (halone : Alone dollarQuoting annotated r.1) :
    statements dollarQuoting ([r].flatMap recordText) = [r.1] := by
  rw [statements_records, List.flatMap_singleton]
  cases annotated with
  | true =>
    obtain ⟨x, hx, hnl⟩ : ∃ x, r.2 = '#' :: x ∧ '\n' ∉ x := hann
    obtain ⟨ps, hkept, htext, hpieces⟩ := pieces_closed halone hnl
    have hrecord := hpieces []
    rw [List.append_nil, ← hx, pieces_nil] at hrecord
    rw [show recordText r = recordText (r.1, r.2) from rfl, hrecord, statementsFrom_kept hkept, htext]
    exact emit_of_trim htrim hne
  | false =>
    have hkept : ∀ p ∈ pieces dollarQuoting true semicolon (r.1 ++ ['\n']), p.isKept = true := halone
    rw [recordText_of_nil hann]
    have hall := statementsFrom_kept hkept [] []
    rw [List.append_nil, pieces_text, List.nil_append, statementsFrom] at hall
    rw [hall, emit, trim_newline, htrim, if_neg hne]

/-- **Records are read back only where there is one at most.** -/
theorem statements_records_iff {annotated : Bool} {recs : List (Str × Str)}
    (htrim : ∀ r ∈ recs, trim r.1 = r.1 ∧ r.1 ≠ []) (hann : ∀ r ∈ recs, Annotation annotated r.2)
    (hclosed : annotated = true → ∀ r ∈ recs, Closed dollarQuoting r.1) :
    statements dollarQuoting (recs.flatMap recordText) = recs.map Prod.fst ↔
      Replayable dollarQuoting annotated (recs.map Prod.fst) := by
  constructor
  · intro h
    have hstatements := @statements_records dollarQuoting recs
    rw [h] at hstatements
    -- Without annotations all pieces are kept, with them every other one is a comment.
    have hkept : annotated = false →
        ∀ p ∈ pieces dollarQuoting true semicolon (recs.flatMap recordText), p.isKept = true := by
      rintro rfl
      refine isKept_of_solid (List.append_nil _).symm ?_
      rw [← hstatements, pieces_text, List.map_map, solid_flatMap]
      congr 1
      refine List.map_congr_left fun r hr => ?_
      rw [recordText_of_nil (hann r hr), solid_append]
      rfl
    have hlength : recs.length ≤ 1 := by
      have hle : (statementsFrom [] (pieces dollarQuoting true semicolon
          (recs.flatMap recordText))).length ≤ 1 := by
        refine length_statementsFrom_le (fun p hp => ?_) []
        cases annotated with
        | true => exact isDelimiter_records hann (hclosed rfl) p hp
        | false => exact isDelimiter_of_isKept (hkept rfl p hp)
      rwa [← hstatements, List.length_map] at hle
    match recs, hlength with
    | [], _ => exact .inl rfl
    | [r], _ =>
      refine .inr ⟨r.1, rfl, ?_⟩
      cases annotated with
      | true => exact hclosed rfl r List.mem_cons_self
      | false =>
        have hline := hkept rfl
        rw [List.flatMap_singleton, recordText_of_nil (hann r List.mem_cons_self)] at hline
        exact hline
  · rintro (hnil | ⟨q, hone, halone⟩)
    · obtain rfl := List.map_eq_nil_iff.mp hnil
      rw [statements_records, List.flatMap_nil, pieces_nil]
      rfl
    · obtain ⟨r, rfl, rfl⟩ := List.map_eq_singleton_iff.mp hone
      obtain ⟨htrim, hne⟩ := htrim r List.mem_cons_self
      exact statements_record htrim hne (hann r List.mem_cons_self) halone

end

end PQuery.SqlFile

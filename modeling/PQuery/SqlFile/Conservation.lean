import PQuery.Library.Scattered
import PQuery.SqlFile.Records

/-!
# Nothing of a file is sent twice

The statements of a file are scattered over it (`statements_scattered`): the kept pieces between two
delimiters make one statement, every delimiter leaves a gap, and the newline that the last line may
get is at the end of the last statement, where it is trimmed away.
-/

namespace PQuery.SqlFile

open ListScan

theorem trim_sublist (text : Str) : (trim text).Sublist text :=
  (List.rdropWhile_prefix isBlank _).sublist.trans (List.dropWhile_sublist isBlank)

theorem statementsFrom_scattered (pending : Str) (ps : List Piece) (hps : ∀ p ∈ ps, p.text ≠ []) :
    Scattered (statementsFrom pending ps) (pending ++ ps.flatMap Piece.text) := by
  induction ps generalizing pending with
  | nil =>
    rw [statementsFrom, emit, List.flatMap_nil, List.append_nil]
    split_ifs
    · exact .nil pending
    · exact .single (trim_sublist pending)
  | cons p ps ih =>
    rw [List.forall_mem_cons] at hps
    obtain ⟨hp, hps⟩ := hps
    have hpassed : (pending ++ ps.flatMap Piece.text).Sublist
        (pending ++ (p :: ps).flatMap Piece.text) := by
      rw [List.flatMap_cons]
      exact (List.sublist_append_right _ _).append_left pending
    cases p with
    | delimiter text =>
      have hbehind := ih [] hps
      rw [List.nil_append] at hbehind
      rw [statementsFrom, emit]
      split_ifs
      · exact hbehind.mono ((List.sublist_append_right _ _).trans hpassed)
      · exact .cons_of_ne_nil (trim_sublist pending) hp hbehind
    | kept text =>
      rw [statementsFrom, List.flatMap_cons, ← List.append_assoc]
      exact ih (pending ++ text) hps
    | command line d => exact (ih pending hps).mono hpassed
    | comment text => exact (ih pending hps).mono hpassed

/-- The statements of a file are scattered over it. -/
theorem statements_scattered (dollarQuoting : Bool) (file : Str) :
    Scattered (statements dollarQuoting file) file := by
  have hscattered : Scattered (statements dollarQuoting file) (terminated '\n' file) := by
    have hpieces := statementsFrom_scattered []
      (pieces dollarQuoting true semicolon (terminated '\n' file)) fun p hp => pieces_ne_nil hp
    rwa [List.nil_append, pieces_text] at hpieces
  rcases terminated_eq '\n' file with hfile | hfile
  · rwa [hfile] at hscattered
  · rw [hfile] at hscattered
    refine hscattered.dropLast fun q hq => ?_
    obtain ⟨htrim, hne⟩ := mem_statementsFrom hq
    refine ⟨hne, fun hlast => ?_⟩
    have hblank := getLast?_strip isBlank q '\n'
    rw [show strip isBlank q = q from htrim] at hblank
    exact absurd (hblank hlast) (by decide)

end PQuery.SqlFile

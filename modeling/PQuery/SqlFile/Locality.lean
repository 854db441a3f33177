import PQuery.SqlFile.Refinement

/-!
# What a piece depends on

The look-aheads of the reference read past the piece that they decide on, but never past the opener
of a literal or comment that comes later. `pieces_local` says so for a whole prefix of the file: up
to an opener the pieces are the same whatever stands behind the opener.
-/

namespace PQuery.SqlFile

open ListScan

/-- A character that no rule but the one for the delimiter looks for. -/
def Inert (c : Char) : Prop := isBlank c = false ∧ c ∉ "'\"`#/-*$".toList

instance : DecidablePred Inert := fun c =>
  inferInstanceAs (Decidable (isBlank c = false ∧ c ∉ "'\"`#/-*$".toList))

section locality
variable {dollarQuoting : Bool} {d : Delimiter} {v : Str} {c : Char} {o : Str}

/-- The conditions on an opener `c :: o`: no look-ahead before it can read past it. -/
structure Barrier (c : Char) (o : Str) : Prop where
  blank : isBlank c = false
  tag : isTagChar c = false
  dash : o = [] → c ≠ '-'

theorem Barrier.ne_newline (h : Barrier c o) : c ≠ '\n' := by
  rintro rfl
  simpa [isBlank] using h.blank

theorem Barrier.not_mem_word (h : Barrier c o) {word : Str}
    (hword : ∀ x ∈ word, isTagChar x = true ∨ isBlank x = true) : c ∉ word := fun hc => by
  rcases hword c hc with hc | hc
  · simp [h.tag] at hc
  · simp [h.blank] at hc

theorem delimiter_local (hd : '\n' ∈ v ∨ c ∉ d.text) (rest : Str) :
    d.text <+: v ++ c :: rest ↔ d.text <+: v := by
  rcases hd with hnl | hc
  · obtain ⟨u, u', rfl, -⟩ := List.eq_append_cons_of_mem hnl
    rw [List.append_assoc, List.cons_append, prefix_append_cons d.line, prefix_append_cons d.line]
  · exact prefix_append_cons hc

theorem lineCommentOpener_local {y : Str} (h : 3 ≤ y.length ∨ y.length = 2 ∧ y.getLast? ≠ some '-')
    (rest : Str) : lineCommentOpener (y ++ rest) = lineCommentOpener y := by
  rcases y with _ | ⟨a, _ | ⟨b, _ | ⟨e, y⟩⟩⟩
  · simp at h
  · simp at h
  · have hb : b ≠ '-' := by simpa using h
    by_cases ha : a = '#'
    · simp [ha, lineCommentOpener]
    · by_cases hs : a = '/' ∧ b = '/'
      · simp [hs, lineCommentOpener]
      · simp only [List.cons_append, List.nil_append]
        unfold lineCommentOpener
        split <;> split <;> simp_all
  · simp only [List.cons_append]
    unfold lineCommentOpener
    split <;> split <;> simp_all

theorem dollarOpener_local (hc : isTagChar c = false) (hv : v ≠ []) (rest : Str) :
    dollarOpener (v ++ c :: rest) = dollarOpener (v ++ [c]) := by
  obtain ⟨a, v, rfl⟩ := List.exists_cons_of_ne_nil hv
  by_cases ha : a = '$'
  · have hdrop : ∀ r : Str, ((v ++ c :: r).dropWhile isTagChar).head? =
        (v.dropWhile isTagChar ++ [c]).head? := by
      intro r
      rw [dropWhile_append_of_head (by simp) (by simpa using hc)]
      cases v.dropWhile isTagChar <;> rfl
    have htake : ∀ r : Str, (v ++ c :: r).takeWhile isTagChar = v.takeWhile isTagChar :=
      fun r => takeWhile_append_cons hc
    subst ha
    simp only [List.cons_append, dollarOpener, hdrop, htake]
  · simp only [List.cons_append]
    unfold dollarOpener
    split <;> split <;> simp_all

theorem look_local (h : Barrier c o) (hv : v ≠ []) (hd : '\n' ∈ v ∨ c ∉ d.text) (rest rest' : Str) :
    look dollarQuoting d.text (v ++ (c :: o ++ rest')) =
      look dollarQuoting d.text (v ++ (c :: o ++ rest)) := by
  have hlen : 3 ≤ (v ++ c :: o).length ∨
      (v ++ c :: o).length = 2 ∧ (v ++ c :: o).getLast? ≠ some '-' := by
    have hvlen := List.length_pos_iff.mpr hv
    rcases o with _ | ⟨b, o⟩
    · have hdash := h.dash rfl
      simp only [List.length_append, List.length_singleton, List.getLast?_concat]
      by_cases h3 : 3 ≤ v.length + 1
      · exact Or.inl h3
      · exact Or.inr ⟨by omega, by simpa using hdash⟩
    · left
      simp only [List.length_append, List.length_cons]
      omega
  have hline := lineCommentOpener_local hlen
  have hblock : ∀ r, ['/', '*'] <+: v ++ c :: o ++ r ↔ ['/', '*'] <+: v ++ c :: o := fun r =>
    prefix_append_of_length_le (by
      rcases hlen with hlen | hlen
      · simp only [List.length_cons, List.length_nil]
        omega
      · simp [hlen.1])
  have hdelim := fun r => delimiter_local hd (o ++ r)
  have hdollar := fun r => dollarOpener_local h.tag hv (o ++ r)
  have hchar : ∀ r, charAt (v ++ r) 0 = charAt v 0 := fun r =>
    charAt_append_of_lt v r (List.length_pos_iff.mpr hv)
  simp only [look, List.cons_append, hdelim, hdollar, hchar]
  simp only [List.append_assoc, List.cons_append] at hline hblock
  simp only [hline, hblock]

/-! ### The rest of a literal or comment -/

theorem throughQuote_local {quote : Char} {u w : Str}
    (h : (throughQuote quote (u ++ w)).length ≤ u.length) (hw : w ≠ []) (w' : Str) :
    throughQuote quote (u ++ w') = throughQuote quote (u ++ w) := by
  induction hn : u.length using Nat.strong_induction_on generalizing u with
  | _ n ih =>
    subst hn
    rcases u with _ | ⟨a, u⟩
    · have hpos := List.length_pos_iff.mpr (@throughQuote_ne_nil quote w hw)
      simp only [List.nil_append, List.length_nil] at h
      omega
    · by_cases ha : a = '\\'
      · subst ha
        rcases u with _ | ⟨b, u⟩
        · -- the backslash takes the first character of `w` with it
          obtain ⟨x, w, rfl⟩ := List.exists_cons_of_ne_nil hw
          simp [throughQuote] at h
        · simp only [List.cons_append, throughQuote, List.length_cons] at h ⊢
          rw [ih _ (by simp only [List.length_cons]; omega) (by omega) rfl]
      · simp only [List.cons_append, throughQuote_cons ha] at h ⊢
        split
        · rfl
        · rename_i hq
          rw [if_neg hq] at h
          rw [ih _ (by simp) (by simpa using h) rfl]

theorem restOf_local {state : ScanState} {dollarTag u w : Str}
    (h : (restOf state dollarTag (u ++ w)).length ≤ u.length) (hw : w ≠ []) (w' : Str) :
    restOf state dollarTag (u ++ w') = restOf state dollarTag (u ++ w) := by
  cases state with
  | Normal => rfl
  | SingleQuote => exact throughQuote_local h hw w'
  | DoubleQuote => exact throughQuote_local h hw w'
  | Backtick => exact through_local h hw w'
  | LineComment => exact through_local h hw w'
  | BlockComment => exact through_local h hw w'
  | DollarQuote => exact through_local h hw w'

theorem Look.piece_local {l : Look} {w : Str} (hv : v ≠ [])
    (h : (l.piece (v ++ w) d).text.length ≤ v.length) (hw : w ≠ []) (w' : Str) :
    l.piece (v ++ w') d = l.piece (v ++ w) d := by
  have key : ∀ (state : ScanState) (dollarTag opener : Str),
      (opener ++ restOf state dollarTag ((v ++ w).drop opener.length)).length ≤ v.length →
      restOf state dollarTag ((v ++ w').drop opener.length) =
        restOf state dollarTag ((v ++ w).drop opener.length) := by
    intro state dollarTag opener hlen
    rw [List.length_append] at hlen
    rw [List.drop_append_of_le_length (by omega)] at hlen ⊢
    rw [List.drop_append_of_le_length (by omega)]
    exact restOf_local (by rw [List.length_drop]; omega) hw w'
  cases l with
  | delimiter => rfl
  | lineComment opener => exact congrArg (fun t => Piece.comment (opener ++ t)) (key _ _ opener h)
  | blockComment => exact congrArg (fun t => Piece.comment (['/', '*'] ++ t)) (key _ _ ['/', '*'] h)
  | dollarQuote tag => exact congrArg (fun t => Piece.kept (tag ++ t)) (key _ _ tag h)
  | quote c => exact congrArg (fun t => Piece.kept ([c] ++ t)) (key _ _ [c] h)
  | plain =>
    obtain ⟨a, v, rfl⟩ := List.exists_cons_of_ne_nil hv
    rfl

/-! ### The line before an opener -/

theorem trim_append_cons (hc : isBlank c = false) (rest : Str) :
    trim (v ++ c :: rest) = v.dropWhile isBlank ++ c :: rest.rdropWhile isBlank := by
  have h := @strip_append _ isBlank [c] (by simp) (by simpa using hc) (by simpa using hc) v rest
  simpa [trim] using h

/-- Whether a line is a DELIMITER command is decided before its first character that is no blank
and no letter. -/
theorem command_isSome (h : Barrier c o) {rest : Str} (hrest : '\n' ∉ v ++ c :: rest) :
    (command (v ++ c :: rest)).isSome ↔ "DELIMITER ".toList <+: v.dropWhile isBlank ∨
      "delimiter ".toList <+: v.dropWhile isBlank := by
  have hupper : c ∉ "DELIMITER ".toList := h.not_mem_word (forall_mem_of_all (by decide))
  have hlower : c ∉ "delimiter ".toList := h.not_mem_word (forall_mem_of_all (by decide))
  have hlen : "DELIMITER ".toList.length = 10 ∧ "delimiter ".toList.length = 10 := ⟨rfl, rfl⟩
  have hmem : '\n' ∉ trim ((trim (v ++ c :: rest)).drop 10) := fun h =>
    hrest (mem_of_mem_trim (List.mem_of_mem_drop (mem_of_mem_trim h)))
  rw [isSome_command]
  rw [trim_append_cons h.blank] at hmem ⊢
  generalize "DELIMITER ".toList = upper at *
  generalize "delimiter ".toList = lower at *
  rw [prefix_append_cons hupper, prefix_append_cons hlower]
  refine ⟨fun hp => hp.1, fun hp => ⟨hp, ?_, hmem⟩⟩
  have hten : 10 ≤ (v.dropWhile isBlank).length := by
    rcases hp with hp | hp
    · exact hlen.1 ▸ hp.length_le
    · exact hlen.2 ▸ hp.length_le
  rw [List.drop_append_of_le_length hten, trim_append_cons h.blank]
  simp

theorem firstLine_append_of_not_mem (hv : '\n' ∉ v) (rest : Str) :
    firstLine (v ++ rest) = v ++ firstLine rest := by
  rw [firstLine, List.takeWhile_append_of_pos fun x hx => by simpa using ne_of_mem_of_not_mem hx hv]
  rfl

theorem firstPiece_local (h : Barrier c o) (hv : v ≠ []) (hd : '\n' ∈ v ∨ c ∉ d.text)
    {atStart : Bool} {rest : Str}
    (hle : (firstPiece dollarQuoting atStart d (v ++ (c :: o ++ rest))).text.length ≤ v.length)
    (rest' : Str) :
    firstPiece dollarQuoting atStart d (v ++ (c :: o ++ rest')) =
      firstPiece dollarQuoting atStart d (v ++ (c :: o ++ rest)) := by
  have hlook := @look_local dollarQuoting d v c o h hv hd rest rest'
  by_cases hnl : '\n' ∈ v
  · -- the line ends before the opener
    obtain ⟨l, u, rfl, hl⟩ := List.eq_append_cons_of_mem hnl
    have hline : ∀ r : Str, firstLine (l ++ '\n' :: u ++ r) = l ∧
        through ['\n'] (l ++ '\n' :: u ++ r) = l ++ ['\n'] := fun r => by
      rw [List.append_assoc, List.cons_append, firstLine_append hl, through_singleton hl]
      exact ⟨rfl, rfl⟩
    unfold firstPiece at hle ⊢
    rw [(hline _).1, (hline _).2] at hle ⊢
    rw [(hline _).1, (hline _).2, hlook]
    split at hle
    · rfl
    · exact Look.piece_local hv hle (by simp) _
  · -- the opener stands in the line
    have hcommand : ∀ r, (command (firstLine (v ++ (c :: o ++ r)))).isSome ↔
        "DELIMITER ".toList <+: v.dropWhile isBlank ∨ "delimiter ".toList <+: v.dropWhile isBlank := by
      intro r
      have hfirst : firstLine (c :: o ++ r) = c :: firstLine (o ++ r) := by
        rw [List.cons_append, firstLine, List.takeWhile_cons_of_pos (by simpa using h.ne_newline)]
        rfl
      have hline : '\n' ∉ firstLine (v ++ (c :: o ++ r)) := fun hm => by
        simpa using List.mem_takeWhile_imp hm
      rw [firstLine_append_of_not_mem hnl, hfirst] at hline ⊢
      exact command_isSome h hline
    cases hcmd : if atStart then command (firstLine (v ++ (c :: o ++ rest))) else none with
    | some d' =>
      have hlong := length_lt_through hnl (show c :: o ++ rest ≠ [] by simp)
      simp only [firstPiece, hcmd, Piece.text] at hle
      omega
    | none =>
      have hcmd' : (if atStart then command (firstLine (v ++ (c :: o ++ rest'))) else none) = none := by
        cases atStart with
        | false => rfl
        | true =>
          rw [if_pos rfl, ← Option.not_isSome_iff_eq_none, hcommand] at hcmd ⊢
          exact hcmd
      simp only [firstPiece, hcmd] at hle
      simp only [firstPiece, hcmd, hcmd', hlook]
      exact Look.piece_local hv hle (by simp) _

theorem inForce_of_pieces {ps tail : List Piece} {atStart : Bool} {rest : Str} (hrest : rest ≠ [])
    (hps : pieces dollarQuoting atStart d (ps.flatMap Piece.text ++ rest) = ps ++ tail) :
    '\n' ∈ ps.flatMap Piece.text ∨ ps.foldl Piece.inForce d = d := by
  induction ps generalizing atStart d with
  | nil => exact Or.inr rfl
  | cons p ps ih =>
    rw [List.flatMap_cons, List.append_assoc, pieces_of_ne (by simp [hrest])] at hps
    obtain ⟨hp, htail⟩ := List.cons.inj hps
    rw [hp, List.drop_left] at htail
    rw [List.flatMap_cons, List.mem_append, List.foldl_cons]
    rcases ih htail with h | h
    · exact Or.inl (Or.inr h)
    · by_cases hcmd : p.inForce d = d
      · rw [hcmd] at h ⊢
        exact Or.inr h
      · -- a command takes its newline with it
        left
        left
        by_contra hnl
        have hlong := length_lt_through hnl (show ps.flatMap Piece.text ++ rest ≠ [] by simp [hrest])
        unfold firstPiece at hp
        split at hp
        · have htext : through ['\n'] (p.text ++ (ps.flatMap Piece.text ++ rest)) = p.text :=
            congrArg Piece.text hp
          rw [htext] at hlong
          omega
        · apply hcmd
          rw [← hp]
          generalize look dollarQuoting d.text _ = l
          cases l <;> rfl

/-- **Up to an opener the pieces do not depend on what stands behind it.** -/
theorem pieces_local (h : Barrier c o) {ps tail : List Piece} {atStart : Bool} {rest : Str}
    (hps : pieces dollarQuoting atStart d (ps.flatMap Piece.text ++ (c :: o ++ rest)) = ps ++ tail)
    (hd : c ∉ (ps.foldl Piece.inForce d).text) (rest' : Str) :
    pieces dollarQuoting atStart d (ps.flatMap Piece.text ++ (c :: o ++ rest')) =
      ps ++ pieces dollarQuoting (ps.foldl (fun _ p => p.endsLine) atStart)
        (ps.foldl Piece.inForce d) (c :: o ++ rest') := by
  induction ps generalizing atStart d with
  | nil => rfl
  | cons p ps ih =>
    have hchange := inForce_of_pieces (by simp) hps
    rw [List.flatMap_cons, List.append_assoc, pieces_of_ne (by simp)] at hps
    obtain ⟨hp, htail⟩ := List.cons.inj hps
    have hpre := firstPiece_isPrefix dollarQuoting atStart d
      (show p.text ++ (ps.flatMap Piece.text ++ (c :: o ++ rest)) ≠ [] by simp)
    rw [hp] at hpre htail
    rw [List.drop_left] at htail
    have hv : p.text ++ ps.flatMap Piece.text ≠ [] := by simp [hpre.2]
    have hd' : '\n' ∈ p.text ++ ps.flatMap Piece.text ∨ c ∉ d.text := by
      rw [List.flatMap_cons] at hchange
      refine hchange.imp_right fun heq => ?_
      rwa [heq] at hd
    have hle : (firstPiece dollarQuoting atStart d
        (p.text ++ ps.flatMap Piece.text ++ (c :: o ++ rest))).text.length ≤
        (p.text ++ ps.flatMap Piece.text).length := by
      rw [List.append_assoc, hp]
      simp
    have hlocal := firstPiece_local h hv hd' hle rest'
    rw [List.append_assoc, List.append_assoc, hp] at hlocal
    rw [List.flatMap_cons, List.append_assoc, pieces_of_ne (by simp), hlocal, List.drop_left,
      ih htail hd]
    rfl

end locality

end PQuery.SqlFile

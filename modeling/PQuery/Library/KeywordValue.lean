import Mathlib.Algebra.Order.Ring.Int
import Mathlib.Data.List.Perm.Subperm
import Mathlib.Data.List.Nodup
import Mathlib.Algebra.BigOperators.Group.List.Basic

/-!
# Keyword and value strings

The grammar of a string of settings: `keyword = value` with optional white space around the `=`, a
value being quoted, or running to the next white space with a backslash before a character that
stands for itself. `encode` writes settings without any quoting. A decoded setting takes at least
the characters of its keyword and value and two more (`weight_le`), which leaves no room in an
encoded string for anything but the settings themselves: so encoding can be undone only if every
value before the last is plain (`plain_of_decode`).
-/

namespace KeywordValue

abbrev Text := List Char

/-- A keyword and its value. -/
abbrev Setting := Text × Text

variable (space : Char → Bool)

/-- An unquoted value and what is left after the white space that ends it. -/
def unquoted : Text → Text × Text
  | [] => ([], [])
  | c :: rest =>
    if space c then ([], rest)
    else if c = '\\' then
      match rest with
      | [] => ([], [])
      | x :: rest => (x :: (unquoted rest).1, (unquoted rest).2)
    else (c :: (unquoted rest).1, (unquoted rest).2)

/-- A value after its opening quote, and what is left after the closing one. -/
def quoted : Text → Option (Text × Text)
  | [] => none
  | c :: rest =>
    if c = '\\' then
      match rest with
      | [] => none
      | x :: rest => (quoted rest).map fun r => (x :: r.1, r.2)
    else if c = '\'' then some ([], rest)
    else (quoted rest).map fun r => (c :: r.1, r.2)

def value (text : Text) : Option (Text × Text) :=
  match text with
  | '\'' :: rest => quoted rest
  | _ => some (unquoted space text)

theorem unquoted_length (text : Text) :
    (unquoted space text).1.length + (unquoted space text).2.length ≤ text.length := by
  fun_induction unquoted space text with
  | case1 => simp
  | case2 c rest h => simp
  | case3 => simp
  | case4 x rest h ih =>
    simp only [List.length_cons]
    omega
  | case5 c rest h h' ih =>
    simp only [List.length_cons]
    omega

theorem quoted_length {text : Text} {r : Text × Text} (h : quoted text = some r) :
    r.1.length + r.2.length + 1 ≤ text.length := by
  fun_induction quoted text generalizing r with
  | case1 => simp at h
  | case2 => simp at h
  | case3 x rest ih =>
    obtain ⟨r', hr', rfl⟩ := Option.map_eq_some_iff.mp h
    have := ih hr'
    simp only [List.length_cons]
    omega
  | case4 rest h' =>
    obtain rfl := Option.some.inj h
    simp
  | case5 c rest h' h'' ih =>
    obtain ⟨r', hr', rfl⟩ := Option.map_eq_some_iff.mp h
    have := ih hr'
    simp only [List.length_cons]
    omega

/-- The setting that a text starts with, and what is left. -/
def setting (text : Text) : Option (Setting × Text) :=
  let name := text.takeWhile fun c => c ≠ '=' && !space c
  match (text.drop name.length).dropWhile space with
  | '=' :: after => (value space (after.dropWhile space)).map fun r => ((name, r.1), r.2)
  | _ => none

/-! ### What a setting takes -/

theorem value_length {text : Text} {r : Text × Text} (h : value space text = some r) :
    r.1.length + r.2.length ≤ text.length := by
  unfold value at h
  split at h
  · have := quoted_length h
    simp only [List.length_cons]
    omega
  · obtain rfl := Option.some.inj h
    exact unquoted_length space text

theorem setting_eq_some {text : Text} {r : Setting × Text} (h : setting space text = some r) :
    ∃ after, (text.drop r.1.1.length).dropWhile space = '=' :: after ∧
      r.1.1 = (text.takeWhile fun c => c ≠ '=' && !space c) ∧
      value space (after.dropWhile space) = some (r.1.2, r.2) := by
  unfold setting at h
  dsimp only at h
  split at h
  · rename_i after hafter
    obtain ⟨r', hr', rfl⟩ := Option.map_eq_some_iff.mp h
    exact ⟨after, hafter, rfl, hr'⟩
  · simp at h

theorem after_length {text after : Text} {n : Nat} (hn : n ≤ text.length)
    (h : (text.drop n).dropWhile space = '=' :: after) : n + 1 + after.length ≤ text.length := by
  have := (List.dropWhile_sublist space (l := text.drop n)).length_le
  rw [h, List.length_cons, List.length_drop] at this
  omega

theorem setting_length {text : Text} {r : Setting × Text} (h : setting space text = some r) :
    r.1.1.length + r.1.2.length + 1 + r.2.length ≤ text.length := by
  obtain ⟨after, hafter, hname, hvalue⟩ := setting_eq_some space h
  have hle : r.1.1.length ≤ text.length := by
    rw [hname]
    exact (List.takeWhile_prefix _).length_le
  have h1 := after_length space hle hafter
  have h2 := (List.dropWhile_sublist space (l := after)).length_le
  have h3 := value_length space hvalue
  dsimp only at h3
  omega

/-- The settings of a string, in order; `none` where the string is malformed. -/
def decode (text : Text) : Option (List Setting) :=
  if text.dropWhile space = [] then some []
  else
    match _hset : setting space (text.dropWhile space) with
    | none => none
    | some r => (decode r.2).map (r.1 :: ·)
termination_by text.length
decreasing_by
  have h1 := setting_length space _hset
  have h2 := (List.dropWhile_sublist space (l := text)).length_le
  omega

theorem decode_of_setting {text : Text} {r : Setting × Text}
    (h : setting space (text.dropWhile space) = some r) :
    decode space text = (decode space r.2).map (r.1 :: ·) := by
  have hne : text.dropWhile space ≠ [] := by
    intro hnil
    have := setting_length space h
    rw [hnil, List.length_nil] at this
    omega
  rw [decode, if_neg hne]
  split
  · rename_i h'
    rw [h] at h'
    simp at h'
  · rename_i r' h'
    rw [h] at h'
    obtain rfl := Option.some.inj h'
    rfl

theorem decode_eq_some {text : Text} {ps : List Setting} (h : decode space text = some ps) :
    (text.dropWhile space = [] ∧ ps = []) ∨
      ∃ r ps', setting space (text.dropWhile space) = some r ∧ decode space r.2 = some ps' ∧
        ps = r.1 :: ps' := by
  rw [decode] at h
  split at h
  · rename_i hnil
    exact Or.inl ⟨hnil, (Option.some.inj h).symm⟩
  · split at h
    · simp at h
    · rename_i r hr
      obtain ⟨ps', hps', rfl⟩ := Option.map_eq_some_iff.mp h
      exact Or.inr ⟨r, ps', hr, hps', rfl⟩

/-- What settings take of a string, and the white space after each of them. -/
def weight (ps : List Setting) : Nat := (ps.map fun p => p.1.length + p.2.length + 2).sum

@[simp] theorem weight_nil : weight [] = 0 := rfl

@[simp] theorem weight_cons (p : Setting) (ps : List Setting) :
    weight (p :: ps) = p.1.length + p.2.length + 2 + weight ps := by
  simp [weight]

theorem weight_append (ps qs : List Setting) : weight (ps ++ qs) = weight ps + weight qs := by
  simp [weight]

theorem weight_perm {ps qs : List Setting} (h : ps.Perm qs) : weight ps = weight qs :=
  (h.map _).sum_eq

theorem unquoted_tight {text : Text} (h : (unquoted space text).2 ≠ []) :
    (unquoted space text).1.length + 1 + (unquoted space text).2.length ≤ text.length ∧
      (text.length ≤ (unquoted space text).1.length + 1 + (unquoted space text).2.length →
        ∃ s, space s = true ∧ text = (unquoted space text).1 ++ s :: (unquoted space text).2 ∧
          ∀ c ∈ (unquoted space text).1, space c = false ∧ c ≠ '\\') := by
  fun_induction unquoted space text with
  | case1 => simp at h
  | case2 c rest hc => exact ⟨by simp [Nat.add_comm], fun _ => ⟨c, hc, rfl, by simp⟩⟩
  | case3 => simp at h
  | case4 x rest hc ih =>
    obtain ⟨hle, -⟩ := ih h
    simp only [List.length_cons] at hle ⊢
    exact ⟨by omega, fun hge => by omega⟩
  | case5 c rest hc hslash ih =>
    obtain ⟨hle, htight⟩ := ih h
    simp only [List.length_cons] at hle ⊢
    refine ⟨by omega, fun hge => ?_⟩
    obtain ⟨s, hs, htext, hplain⟩ := htight (by omega)
    refine ⟨s, hs, by rw [List.cons_append, ← htext], fun x hx => ?_⟩
    rcases List.mem_cons.mp hx with rfl | hx
    · exact ⟨by simpa using hc, hslash⟩
    · exact hplain x hx

theorem value_tight {text : Text} {r : Text × Text} (h : value space text = some r)
    (hr : r.2 ≠ []) :
    r.1.length + 1 + r.2.length ≤ text.length ∧
      (text.length ≤ r.1.length + 1 + r.2.length →
        ∃ s, space s = true ∧ text = r.1 ++ s :: r.2 ∧ text.head? ≠ some '\'' ∧
          ∀ c ∈ r.1, space c = false ∧ c ≠ '\\') := by
  unfold value at h
  split at h
  · have := quoted_length h
    simp only [List.length_cons]
    exact ⟨by omega, fun hge => by omega⟩
  · rename_i hquote
    obtain rfl := Option.some.inj h
    obtain ⟨hle, htight⟩ := unquoted_tight space hr
    refine ⟨hle, fun hge => ?_⟩
    obtain ⟨s, hs, htext, hplain⟩ := htight hge
    refine ⟨s, hs, htext, ?_, hplain⟩
    cases text with
    | nil => simp
    | cons c rest =>
      intro hc
      obtain rfl : c = '\'' := by simpa using hc
      exact hquote rest rfl

theorem setting_tight {text : Text} {r : Setting × Text} (h : setting space text = some r)
    (hr : r.2 ≠ []) : r.1.1.length + r.1.2.length + 2 + r.2.length ≤ text.length := by
  obtain ⟨after, hafter, hname, hvalue⟩ := setting_eq_some space h
  have hle : r.1.1.length ≤ text.length := by
    rw [hname]
    exact (List.takeWhile_prefix _).length_le
  have h1 := after_length space hle hafter
  have h2 := (List.dropWhile_sublist space (l := after)).length_le
  have h3 := (value_tight space hvalue hr).1
  dsimp only at h3
  omega

/-- **A string has room for the settings it decodes to**, but for the last separator. -/
theorem weight_le {text : Text} {ps : List Setting} (h : decode space text = some ps) :
    weight ps ≤ text.length + 1 := by
  induction hn : text.length using Nat.strongRecOn generalizing text ps with
  | _ n ih =>
    subst hn
    have hdrop := (List.dropWhile_sublist space (l := text)).length_le
    rcases decode_eq_some space h with ⟨-, rfl⟩ | ⟨r, ps', hset, hps', rfl⟩
    · simp
    · have hlen := setting_length space hset
      have ih := ih r.2.length (by omega) hps' rfl
      rw [weight_cons]
      by_cases hr : r.2 = []
      · rw [hr, decode] at hps'
        obtain rfl : ps' = [] := by simpa using hps'.symm
        rw [weight_nil]
        omega
      · have := setting_tight space hset hr
        omega

/-! ### Encoding without quotes -/

/-- Settings written as they are, a blank between two of them. -/
def encode : List Setting → Text
  | [] => []
  | [p] => p.1 ++ '=' :: p.2
  | p :: q :: ps => p.1 ++ '=' :: (p.2 ++ ' ' :: encode (q :: ps))

theorem weight_encode {ps : List Setting} (h : ps ≠ []) : weight ps = (encode ps).length + 1 := by
  induction ps with
  | nil => exact absurd rfl h
  | cons p ps ih =>
    cases ps with
    | nil =>
      simp [encode]
      omega
    | cons q qs =>
      rw [weight_cons, ih (by simp), encode]
      simp only [List.length_append, List.length_cons]
      omega

theorem mem_encode_of_mem {ps : List Setting} {p : Setting} (hp : p ∈ ps) {c : Char} (hc : c ∈ p.2) :
    c ∈ encode ps := by
  fun_induction encode ps with
  | case1 => simp at hp
  | case2 q =>
    rw [List.mem_singleton] at hp
    subst hp
    simp [hc]
  | case3 q r qs ih =>
    rcases List.mem_cons.mp hp with rfl | hp
    · simp [hc]
    · simp [ih hp]

theorem mem_encode {ps : List Setting} {c : Char} (h : c ∈ encode ps) :
    c = '=' ∨ c = ' ' ∨ ∃ p ∈ ps, c ∈ p.1 ∨ c ∈ p.2 := by
  fun_induction encode ps with
  | case1 => simp at h
  | case2 q =>
    simp only [List.mem_append, List.mem_cons] at h
    rcases h with h | rfl | h
    · exact Or.inr (Or.inr ⟨q, by simp, Or.inl h⟩)
    · exact Or.inl rfl
    · exact Or.inr (Or.inr ⟨q, by simp, Or.inr h⟩)
  | case3 q r qs ih =>
    simp only [List.mem_append, List.mem_cons] at h
    rcases h with h | rfl | h | rfl | h
    · exact Or.inr (Or.inr ⟨q, by simp, Or.inl h⟩)
    · exact Or.inl rfl
    · exact Or.inr (Or.inr ⟨q, by simp, Or.inr h⟩)
    · exact Or.inr (Or.inl rfl)
    · rcases ih h with h | h | ⟨p, hp, h⟩
      · exact Or.inl h
      · exact Or.inr (Or.inl h)
      · exact Or.inr (Or.inr ⟨p, by simp [hp], h⟩)

/-- What a keyword must be for the grammar to find it. -/
def IsKeyword (name : Text) : Prop := name ≠ [] ∧ ∀ c ∈ name, c ≠ '=' ∧ space c = false

/-- A value that stands for itself: it is not empty, has no white space and no backslash, and does
not start with a quote. -/
def Plain (v : Text) : Prop :=
  v ≠ [] ∧ v.head? ≠ some '\'' ∧ ∀ c ∈ v, space c = false ∧ c ≠ '\\'

section encode
variable {space}

theorem unquoted_space {c : Char} (hc : space c = true) (rest : Text) :
    unquoted space (c :: rest) = ([], rest) := by
  rw [unquoted.eq_def]
  simp [hc]

theorem unquoted_cons {c : Char} (hc : space c = false) (hslash : c ≠ '\\') (rest : Text) :
    unquoted space (c :: rest) = (c :: (unquoted space rest).1, (unquoted space rest).2) := by
  rw [unquoted.eq_def]
  simp [hc, hslash]

theorem unquoted_plain {v : Text} (h : ∀ c ∈ v, space c = false ∧ c ≠ '\\') :
    unquoted space v = (v, []) ∧
      ∀ {c : Char} (rest : Text), space c = true → unquoted space (v ++ c :: rest) = (v, rest) := by
  induction v with
  | nil => exact ⟨rfl, fun rest hc => unquoted_space hc rest⟩
  | cons x v ih =>
    obtain ⟨hx, hslash⟩ := h x (by simp)
    obtain ⟨hend, hmore⟩ := ih fun c hc => h c (by simp [hc])
    refine ⟨by rw [unquoted_cons hx hslash, hend], fun rest hc => ?_⟩
    rw [List.cons_append, unquoted_cons hx hslash, hmore rest hc]

theorem value_of_head {text : Text} (h : text.head? ≠ some '\'') :
    value space text = some (unquoted space text) := by
  unfold value
  split
  · simp at h
  · rfl

theorem dropWhile_of_head {text : Text} (h : ∀ c ∈ text.head?, space c = false) :
    text.dropWhile space = text := by
  cases text with
  | nil => rfl
  | cons c text => exact List.dropWhile_cons_of_neg (by simpa using h c (by simp))

theorem setting_keyword {name : Text} (heq : space '=' = false) (hname : IsKeyword space name)
    (after : Text) :
    (name ++ '=' :: after).dropWhile space = name ++ '=' :: after ∧
      setting space (name ++ '=' :: after) =
        (value space (after.dropWhile space)).map fun r => ((name, r.1), r.2) := by
  have htake : (name ++ '=' :: after).takeWhile (fun c => c ≠ '=' && !space c) = name := by
    rw [List.takeWhile_append_of_pos fun c hc => by simpa using hname.2 c hc]
    simp
  refine ⟨dropWhile_of_head fun c hc => ?_, ?_⟩
  · obtain ⟨x, name, rfl⟩ := List.exists_cons_of_ne_nil hname.1
    obtain rfl : x = c := by simpa using hc
    exact (hname.2 x (by simp)).2
  · rw [setting]
    simp only [htake, List.drop_left]
    rw [List.dropWhile_cons_of_neg (by simp [heq])]
    rfl

/-- The last value given for a keyword. -/
def valueOf (ps : List Setting) (name : Text) : Option Text := ps.reverse.lookup name

theorem mem_of_valueOf {ps : List Setting} {name v : Text} (h : valueOf ps name = some v) :
    (name, v) ∈ ps := by
  obtain ⟨l, r, hps, -⟩ := List.lookup_eq_some_iff.mp h
  rw [← List.mem_reverse, hps]
  simp

theorem valueOf_of_mem {ps : List Setting} (hnodup : (ps.map Prod.fst).Nodup) {p : Setting}
    (hp : p ∈ ps) : valueOf ps p.1 = some p.2 := by
  obtain ⟨l, r, rfl⟩ := List.append_of_mem hp
  refine List.lookup_eq_some_iff.mpr ⟨r.reverse, l.reverse, by simp, fun q hq => ?_⟩
  rw [List.map_append, List.map_cons, List.nodup_append] at hnodup
  have hnot := (List.nodup_cons.mp hnodup.2.1).1
  rw [bne_iff_ne]
  exact fun heq => hnot (List.mem_map.mpr ⟨q, List.mem_reverse.mp hq, heq.symm⟩)

/-- **Plain values survive.** -/
theorem decode_encode (hblank : space ' ' = true) (heq : space '=' = false) {ps : List Setting}
    (hkeys : ∀ p ∈ ps, IsKeyword space p.1) (hplain : ∀ p ∈ ps, Plain space p.2) :
    decode space (encode ps) = some ps := by
  induction ps with
  | nil =>
    rw [encode, decode]
    rfl
  | cons p ps ih =>
    obtain ⟨hne, hquote, hv⟩ := hplain p (by simp)
    have hkey := hkeys p (by simp)
    have ih := ih (fun q hq => hkeys q (by simp [hq])) fun q hq => hplain q (by simp [hq])
    obtain ⟨x, v, hxv⟩ := List.exists_cons_of_ne_nil hne
    have hhead : ∀ t : Text, (p.2 ++ t).dropWhile space = p.2 ++ t ∧ (p.2 ++ t).head? ≠ some '\'' := by
      intro t
      rw [hxv] at hquote ⊢
      exact ⟨dropWhile_of_head (by simpa using (hv x (by simp [hxv])).1), by simpa using hquote⟩
    cases ps with
    | nil =>
      have hset : setting space ((encode [p]).dropWhile space) = some (p, []) := by
        obtain ⟨hdrop, hset⟩ := setting_keyword heq hkey p.2
        rw [encode, hdrop, hset]
        have hp := hhead []
        rw [List.append_nil] at hp
        rw [hp.1, value_of_head hp.2, (unquoted_plain hv).1]
        rfl
      rw [decode_of_setting space hset, decode]
      rfl
    | cons q qs =>
      have hset : setting space ((encode (p :: q :: qs)).dropWhile space) =
          some (p, encode (q :: qs)) := by
        obtain ⟨hdrop, hset⟩ := setting_keyword heq hkey (p.2 ++ ' ' :: encode (q :: qs))
        have hp := hhead (' ' :: encode (q :: qs))
        rw [encode, hdrop, hset, hp.1, value_of_head hp.2, (unquoted_plain hv).2 _ hblank]
        rfl
      rw [decode_of_setting space hset]
      simp only [ih]
      rfl

theorem plain_of_value (hblank : space ' ' = true) {v rest left : Text}
    (hw : value space ((v ++ ' ' :: rest).dropWhile space) = some (v, left)) (hleft : left ≠ [])
    (hroom : rest.length ≤ left.length) : Plain space v ∧ left = rest := by
  obtain ⟨hle, htight⟩ := value_tight space hw hleft
  have hsub := List.dropWhile_sublist space (l := v ++ ' ' :: rest)
  have hlen : (v ++ ' ' :: rest).length = v.length + 1 + rest.length := by
    simp only [List.length_append, List.length_cons]
    omega
  have hsubLen := hsub.length_le
  have hfull := hsub.eq_of_length (by dsimp only at hle; omega)
  rw [hfull] at htight hle
  obtain ⟨c, hc, htext, hquote, hplain⟩ := htight (by dsimp only; omega)
  have hne : v ≠ [] := by
    intro hnil
    rw [hnil, List.nil_append, List.dropWhile_cons_of_pos hblank] at hfull
    have := (List.dropWhile_sublist space (l := rest)).length_le
    rw [hfull, List.length_cons] at this
    omega
  rw [List.head?_append_of_ne_nil _ hne] at hquote
  exact ⟨⟨hne, hquote, hplain⟩, (List.cons.inj (List.append_cancel_left htext)).2.symm⟩

theorem first_of_decode (hblank : space ' ' = true) (heq : space '=' = false) {e q : Setting}
    {qs ps : List Setting} (hkey : IsKeyword space e.1)
    (hnodup : e.1 ∉ (q :: qs).map Prod.fst)
    (hdecode : decode space (encode (e :: q :: qs)) = some ps) (hperm : ps.Perm (e :: q :: qs)) :
    Plain space e.2 ∧
      ∃ ps', decode space (encode (q :: qs)) = some ps' ∧ ps'.Perm (q :: qs) := by
  obtain ⟨hdrop, hset⟩ := setting_keyword heq hkey (e.2 ++ ' ' :: encode (q :: qs))
  rcases decode_eq_some space hdecode with ⟨hnil, -⟩ | ⟨r, ps', hr, hps', rfl⟩
  · rw [encode, hdrop] at hnil
    simp at hnil
  rw [encode, hdrop, hset] at hr
  obtain ⟨⟨v, left⟩, hw, rfl⟩ := Option.map_eq_some_iff.mp hr
  dsimp only at hperm hps'
  -- the keyword decides which setting the first one is
  have hval : v = e.2 := by
    rcases List.mem_cons.mp (hperm.subset (List.mem_cons_self)) with h | h
    · exact congrArg Prod.snd h
    · exact absurd (List.mem_map.mpr ⟨_, h, rfl⟩) hnodup
  subst hval
  have hperm' : ps'.Perm (q :: qs) := (List.perm_cons e).mp hperm
  -- what is left must hold the other settings, so the first one has no more than its room
  have hroom := weight_le space hps'
  have hweight := weight_encode (show q :: qs ≠ [] by simp)
  rw [weight_perm hperm', hweight] at hroom
  have hleft : left ≠ [] := by
    rintro rfl
    rw [weight_cons] at hweight
    rw [List.length_nil] at hroom
    omega
  obtain ⟨hplain, rfl⟩ := plain_of_value hblank hw hleft (by omega)
  exact ⟨hplain, ps', hps', hperm'⟩

/-- **Only plain values survive**: where the settings are decoded in any order, every value but the
last is plain. -/
theorem plain_of_decode (hblank : space ' ' = true) (heq : space '=' = false) {es ps : List Setting}
    (hkeys : ∀ e ∈ es, IsKeyword space e.1) (hnodup : (es.map Prod.fst).Nodup)
    (hdecode : decode space (encode es) = some ps) (hperm : ps.Perm es) :
    ∀ e ∈ es.dropLast, Plain space e.2 := by
  induction es generalizing ps with
  | nil => simp
  | cons e es ih =>
    rcases es with _ | ⟨q, qs⟩
    · simp
    · obtain ⟨hfst, hrest⟩ := List.nodup_cons.mp hnodup
      obtain ⟨hplain, ps', hps', hperm'⟩ :=
        first_of_decode hblank heq (hkeys e (by simp)) hfst hdecode hperm
      intro x hx
      rw [List.dropLast_cons_cons] at hx
      rcases List.mem_cons.mp hx with rfl | hx
      · exact hplain
      · exact ih (fun e' he' => hkeys e' (by simp [he'])) hrest hps' hperm' x hx

/-- Decoded settings that include those that were written are exactly these, where there is room
for no more. -/
theorem perm_of_subset {es ps : List Setting} (hnodup : (es.map Prod.fst).Nodup)
    (hsub : ∀ e ∈ es, e ∈ ps) (hweight : weight ps ≤ weight es) : ps.Perm es := by
  have hperm := List.subperm_append_diff_self_of_count_le
    (List.subperm_ext_iff.mp (List.subperm_of_subset (List.Nodup.of_map _ hnodup) hsub))
  have hw := weight_perm hperm
  rw [weight_append] at hw
  cases hdiff : ps.diff es with
  | nil =>
    rw [hdiff, List.append_nil] at hperm
    exact hperm.symm
  | cons p rest =>
    rw [hdiff, weight_cons] at hw
    omega

end encode

end KeywordValue

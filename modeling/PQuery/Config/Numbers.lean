import PQuery.Config.Options

/-!
# Numbers in the configuration

A number is written as decimal digits behind an optional sign, and a letter behind them for a power
of 1024. The integer options of an accepted section have exactly the numbers that are written
(`exact_numbers`). Other texts are rejected, except those in which the scanner does not get to the
end (`malformed_numbers`).
-/

namespace PQuery.Config

open ListScan

/-! ### How numbers are written -/

structure Digits (text : Str) : Prop where
  ne : text ≠ []
  digit : ∀ c ∈ text, isdigit c = true

/-- Decimal integers with an optional sign, of any length. -/
inductive Decimal : Str → Int → Prop
  | unsigned {digits : Str} (h : Digits digits) : Decimal digits (digitsValue digits)
  | plus {digits : Str} (h : Digits digits) : Decimal ('+' :: digits) (digitsValue digits)
  | minus {digits : Str} (h : Digits digits) : Decimal ('-' :: digits) (-digitsValue digits)

def sizeExponent (c : Char) : Option Nat :=
  if c ∈ ['k', 'K'] then some 1
  else if c ∈ ['m', 'M'] then some 2
  else if c ∈ ['g', 'G'] then some 3
  else if c ∈ ['t', 'T'] then some 4
  else none

/-- What may stand behind the digits, and the power of 1024 that it stands for. -/
inductive Suffix : Str → Nat → Prop
  | none : Suffix [] 0
  | letter {c : Char} {e : Nat} (h : sizeExponent c = some e) : Suffix [c] e

/-- The range of an option, and the bits of its field. -/
structure IntField where
  min : Int
  max : Int
  bits : Nat

def intField : DocumentedOption → Option IntField
  | .port => some ⟨1, 65535, 16⟩
  | .threads => some ⟨1, 65535, 16⟩
  | .queries_per_thread => some ⟨0, int64Max, 64⟩
  | .query_list_maxsize => some ⟨0, int64Max, 64⟩
  | .timeout => some ⟨0, uint32Max, 32⟩
  | .connect_timeout => some ⟨0, uint32Max, 32⟩
  | _ => none

/-! ### Reading them -/

theorem multiplier_eq (c : Char) : multiplier c = (sizeExponent c).map (1024 ^ ·) := by
  unfold multiplier sizeExponent
  simp only [List.mem_cons, List.not_mem_nil, or_false]
  split_ifs <;> rfl

theorem isspace_of_isdigit {c : Char} (h : isdigit c = true) : isspace c = false := by
  simp only [isdigit, Bool.and_eq_true, decide_eq_true_eq] at h
  by_contra hspace
  simp only [isspace, Bool.or_eq_true, beq_iff_eq, Bool.not_eq_false] at hspace
  rcases hspace with ((((rfl | rfl) | rfl) | rfl) | rfl) | rfl
  all_goals exact absurd h.1 (by decide)

theorem Digits.head {digits : Str} (h : Digits digits) (rest : Str) :
    ∃ c, (digits ++ rest).head? = some c ∧ isdigit c = true := by
  obtain ⟨c, digits, rfl⟩ := List.exists_cons_of_ne_nil h.ne
  exact ⟨c, rfl, h.digit c (by simp)⟩

theorem Decimal.head {i : Str} {m : Int} (h : Decimal i m) (rest : Str) :
    ∀ c ∈ (i ++ rest).head?, isspace c = false := by
  cases h with
  | unsigned h =>
    obtain ⟨c, hc, hdigit⟩ := h.head rest
    intro d hd
    obtain rfl : c = d := Option.some.inj (hc.symm.trans hd)
    exact isspace_of_isdigit hdigit
  | plus h => simp [isspace]
  | minus h => simp [isspace]

theorem Digits.read {digits rest : Str} (h : Digits digits)
    (hrest : ∀ c ∈ rest.head?, isdigit c = false) :
    (digits ++ rest).takeWhile isdigit = digits ∧ (digits ++ rest).dropWhile isdigit = rest :=
  takeWhile_dropWhile_append h.digit hrest

instance (n : Int) : Decidable (FitsInt64 n) := inferInstanceAs (Decidable (_ ∧ _))

theorem readInt64_decimal {i rest : Str} {m : Int} (hi : Decimal i m)
    (hrest : ∀ c ∈ rest.head?, isdigit c = false) :
    readInt64 (i ++ rest) = if FitsInt64 m then some (m, rest) else none := by
  have hskip : (i ++ rest).dropWhile isspace = i ++ rest :=
    @dropWhile_blank [] _ (by simp [Blank]) (hi.head rest)
  have hout : ∀ n : Int, (n < int64Min ∨ int64Max < n) ↔ ¬ FitsInt64 n := by
    intro n
    rw [FitsInt64]
    omega
  rw [readInt64, hskip]
  cases hi with
  | unsigned h =>
    obtain ⟨hread, hbehind⟩ := h.read hrest
    obtain ⟨c, hc, hdigit⟩ := h.head rest
    have hminus : c ≠ '-' := by
      rintro rfl
      cases hdigit
    have hplus : c ≠ '+' := by
      rintro rfl
      cases hdigit
    simp [hc, hminus, hplus, hread, hbehind, h.ne, hout]
  | plus h =>
    obtain ⟨hread, hbehind⟩ := h.read hrest
    simp [hread, hbehind, h.ne, hout]
  | minus h =>
    obtain ⟨hread, hbehind⟩ := h.read hrest
    simp [hread, hbehind, h.ne, hout]

theorem isspace_sizeExponent {c : Char} {e : Nat} (h : sizeExponent c = some e) :
    isspace c = false ∧ isdigit c = false ∧ c ≠ '\x00' := by
  simp only [sizeExponent, List.mem_cons, List.not_mem_nil, or_false] at h
  split_ifs at h with hk hm hg ht
  · rcases hk with rfl | rfl <;> decide
  · rcases hm with rfl | rfl <;> decide
  · rcases hg with rfl | rfl <;> decide
  · rcases ht with rfl | rfl <;> decide

theorem Suffix.head {s : Str} {e : Nat} (h : Suffix s e) :
    ∀ c ∈ s.head?, isspace c = false ∧ isdigit c = false := by
  cases h with
  | none => simp
  | letter h => simpa using ⟨(isspace_sizeExponent h).1, (isspace_sizeExponent h).2.1⟩

theorem Suffix.size {s : Str} {e : Nat} (h : Suffix s e) : sizeSuffix s = some (1024 ^ e) := by
  cases h with
  | none => rfl
  | letter h => rw [sizeSuffix, if_neg (isspace_sizeExponent h).2.2, multiplier_eq, h, Option.map_some]

theorem numberOf_decimal {i rest : Str} {m : Int} (hi : Decimal i m)
    (hrest : ∀ c ∈ rest.head?, isdigit c = false) :
    numberOf (i ++ rest) =
      if FitsInt64 m then (sizeSuffix (rest.dropWhile isspace)).map (m * ·) else none := by
  rw [numberOf, readInt64_decimal hi hrest]
  split_ifs <;> rfl

theorem fits_of_mul {m f : Int} (hf : 0 < f) (h : FitsInt64 (m * f)) : FitsInt64 m := by
  obtain ⟨hmin, hmax⟩ := h
  have hone : 1 ≤ f := hf
  rcases le_total 0 m with hm | hm
  · have hle : m ≤ m * f := le_mul_of_one_le_right hm hone
    exact ⟨le_trans (by decide) hm, hle.trans hmax⟩
  · have hle : m * f ≤ m := mul_le_of_one_le_right hm hone
    exact ⟨hmin.trans hle, hm.trans (by decide)⟩

theorem numberOf_sized {i s : Str} {m n : Int} {e : Nat} (hi : Decimal i m) (hs : Suffix s e) :
    numberOf (i ++ s) = some n ∧ FitsInt64 n ↔ n = m * 1024 ^ e ∧ FitsInt64 n := by
  have hskip : s.dropWhile isspace = s :=
    @dropWhile_blank [] s (by simp [Blank]) fun c hc => (hs.head c hc).1
  rw [numberOf_decimal hi fun c hc => (hs.head c hc).2, hskip, hs.size]
  refine and_congr_left fun hfits => ?_
  by_cases hm : FitsInt64 m
  · rw [if_pos hm, Option.map_some, Option.some.injEq, eq_comm]
  · rw [if_neg hm]
    refine ⟨fun h => absurd h (by simp), ?_⟩
    rintro rfl
    exact absurd (fits_of_mul (Int.pow_pos (by decide)) hfits) hm

/-! ### The fields of an accepted section -/

theorem intField_fits {o : DocumentedOption} {f : IntField} (h : intField o = some f) :
    0 ≤ f.min ∧ f.max ≤ int64Max ∧ f.max < 2 ^ f.bits := by
  cases o with
  | port | threads | queries_per_thread | query_list_maxsize | timeout | connect_timeout =>
    obtain rfl := Option.some.inj h
    decide
  | _ => cases h

theorem field_range {build : Build} {reader : INIReader} {secName : Str} {value : Str → Option Str}
    (h : Serves reader secName value) {p : workerParams}
    (hsetup : setupWorkerParams build reader secName = .ok p) {o : DocumentedOption} {f : IntField}
    (hfield : intField o = some f) :
    ∃ k : Nat, p.field o = .number k ∧ f.min ≤ k ∧ (k : Int) ≤ f.max := by
  have hchecked := checked_of_setup hsetup
  cases o with
  | port =>
    obtain rfl := Option.some.inj hfield
    exact ⟨p.port, rfl, (readPort_range h (dbtype_of_check hchecked.dbtype) hchecked.port).2⟩
  | threads =>
    obtain rfl := Option.some.inj hfield
    exact ⟨p.threads, rfl, (integerOption_range h (by decide) (by decide) hchecked.threads).2⟩
  | queries_per_thread =>
    obtain rfl := Option.some.inj hfield
    exact ⟨p.queries_per_thread, rfl,
      (integerOption_range h (by decide) (by decide) hchecked.queries_per_thread).2⟩
  | query_list_maxsize =>
    obtain rfl := Option.some.inj hfield
    exact ⟨p.query_list_maxsize, rfl,
      (integerOption_range h (by decide) (by decide) hchecked.query_list_maxsize).2⟩
  | timeout =>
    obtain rfl := Option.some.inj hfield
    exact ⟨p.timeout_secs, rfl, (integerOption_range h (by decide) (by decide) hchecked.timeout).2⟩
  | connect_timeout =>
    obtain rfl := Option.some.inj hfield
    exact ⟨p.connect_timeout_secs, rfl,
      (integerOption_range h (by decide) (by decide) hchecked.connect_timeout).2⟩
  | _ => cases hfield

theorem numberOf_of_field {value : Str → Option Str} {o : DocumentedOption} {f : IntField}
    {text : Str} {k : Int} (hfield : intField o = some f) (htext : value o.name = some text)
    (hdenoted : denoted value o = some (.number k)) : numberOf text = some k := by
  have hnumber : ∀ default_value,
      ((value o.name).elim (some default_value) numberOf).map Denoted.number = some (.number k) →
      numberOf text = some k := by
    intro default_value h
    rw [htext, Option.elim_some, Option.map_eq_some_iff] at h
    obtain ⟨k', hk', heq⟩ := h
    rwa [Denoted.number.inj heq] at hk'
  cases o with
  | port =>
    obtain ⟨dbtype, -, hport⟩ := Option.bind_eq_some_iff.mp hdenoted
    exact hnumber _ hport
  | threads | queries_per_thread | query_list_maxsize | timeout | connect_timeout =>
    exact hnumber _ hdenoted
  | _ => cases hfield

theorem field_of_setup {build : Build} {reader : INIReader} {secName : Str} {value : Str → Option Str}
    (h : Serves reader secName value) {p : workerParams}
    (hsetup : setupWorkerParams build reader secName = .ok p) {o : DocumentedOption} {f : IntField}
    (hfield : intField o = some f) {text : Str} (htext : value o.name = some text) :
    ∃ k : Nat, p.field o = .number k ∧ numberOf text = some (k : Int) ∧ FitsInt64 k ∧
      f.min ≤ k ∧ (k : Int) ≤ f.max := by
  obtain ⟨k, hk, hmin, hmax⟩ := field_range h hsetup hfield
  have hlogged : o ≠ .log_succeeded_queries := by
    rintro rfl
    cases hfield
  have hdenoted := (accepted_of_setup h hsetup).documented o hlogged
  rw [hk] at hdenoted
  have hfits : FitsInt64 k :=
    ⟨le_trans (by decide) (Int.natCast_nonneg k), hmax.trans (intField_fits hfield).2.1⟩
  exact ⟨k, hk, numberOf_of_field hfield htext hdenoted, hfits, hmin, hmax⟩

/-- **Exact numbers.** A number in the text of an integer option is read exactly if it fits into 64
bits, and is not read otherwise: the guard lets a product be computed only where it fits. An accepted
section has the number in the field of the option, and there it is in the range of the option and
below the bound of the field. -/
theorem exact_numbers {build : Build} {file secName i s : Str} {o : DocumentedOption} {f : IntField}
    {m : Int} {e : Nat} (hsec : secName ∈ (INIReader.open (some file)).sections)
    (hfield : intField o = some f) (hvalue : valueIn file secName o.name = some (i ++ s))
    (hi : Decimal i m) (hs : Suffix s e) :
    (∀ default_value n,
      (INIReader.open (some file)).GetInteger secName o.name default_value = .ok n ↔
        n = m * 1024 ^ e ∧ FitsInt64 n) ∧
    (∀ c factor, multiplier c = some factor →
      (¬ (m ≠ 0 ∧ (int64Max.tdiv factor < m ∨ m < int64Min.tdiv factor)) ↔ FitsInt64 (m * factor))) ∧
    ∀ p, setupWorkerParams build (INIReader.open (some file)) secName = .ok p →
      p.field o = .number (m * 1024 ^ e) ∧ f.min ≤ m * 1024 ^ e ∧ m * 1024 ^ e ≤ f.max ∧
        0 ≤ m * 1024 ^ e ∧ m * 1024 ^ e < 2 ^ f.bits := by
  have hserves := serves_open hsec
  refine ⟨fun default_value n => ?_, fun c factor hc => guard_iff m (multiplier_pos hc), ?_⟩
  · have hget : (INIReader.open (some file)).Get secName o.name [] = i ++ s := by
      rw [hserves.get, hvalue, Option.getD_some]
    rw [getInteger_ok_iff hget (hserves.ne _ _ hvalue), numberOf_sized hi hs]
  · intro p hsetup
    obtain ⟨k, hk, hnumber, hfits, hmin, hmax⟩ := field_of_setup hserves hsetup hfield hvalue
    obtain ⟨heq, -⟩ := (numberOf_sized hi hs).mp ⟨hnumber, hfits⟩
    obtain ⟨hpos, -, hbits⟩ := intField_fits hfield
    rw [← heq]
    exact ⟨hk, hmin, hmax, hpos.trans hmin, hmax.trans_lt hbits⟩

/-- The largest product that fits. -/
theorem exact_numbers_largest : ∃ p,
    setupWorkerParams ⟨true, true⟩ (INIReader.open (some
      "[w]\nqueries-per-thread = +9007199254740991K\n".toList)) "w".toList = .ok p ∧
    p.field .queries_per_thread = .number (9007199254740991 * 1024 ^ 1) := by
  obtain ⟨p, hp⟩ := exists_of_isOk (x := setupWorkerParams ⟨true, true⟩ (INIReader.open (some
    "[w]\nqueries-per-thread = +9007199254740991K\n".toList)) "w".toList) (by decide +kernel)
  have hdigits : Digits "9007199254740991".toList := ⟨by decide, forall_mem_of_all (by decide)⟩
  have hexact := @exact_numbers ⟨true, true⟩ "[w]\nqueries-per-thread = +9007199254740991K\n".toList
    "w".toList "+9007199254740991".toList "K".toList .queries_per_thread _ _ 1 (by decide +kernel) rfl
    (by decide +kernel) (.plus hdigits) (.letter rfl)
  exact ⟨p, hp, (hexact.2.2 p hp).1⟩

example : (INIReader.open (some "[w]\nn = -8388608t\n".toList)).GetInteger "w".toList "n".toList 0 =
    .ok int64Min := by decide +kernel

/-! ### Malformed numbers -/

/-- The whole text is a number, with at most one blank before the suffix. -/
def WellFormed (text : Str) : Prop :=
  ∃ i b s m e, text = i ++ (b ++ s) ∧ Decimal i m ∧ Blank b ∧ b.length ≤ 1 ∧ Suffix s e

/-- A text that is malformed is not read, and a section that has it for an integer option is
rejected. -/
def MalformedRejected (file secName name text : Str) : Prop :=
  ¬ WellFormed text →
    (∀ default_value,
      ∃ error, (INIReader.open (some file)).GetInteger secName name default_value = .error error) ∧
    ∀ o f, intField o = some f → o.name = name → ∀ build,
      ∃ error, setupWorkerParams build (INIReader.open (some file)) secName = .error error

/-- More stands in the text than the scanner looks at: the character behind the number is 0, as it is
where nothing is read, or it is a suffix and not the last one. -/
inductive Overlooked : Str → Prop
  | nul {i b rest : Str} {m : Int} (hi : Decimal i m) (hb : Blank b) (hlen : b.length ≤ 1)
      (hfits : FitsInt64 m) : Overlooked (i ++ (b ++ '\x00' :: rest))
  | suffix {i b rest : Str} {m : Int} {c : Char} {e : Nat} (hi : Decimal i m) (hb : Blank b)
      (hlen : b.length ≤ 1) (hc : sizeExponent c = some e) (hrest : rest ≠ [])
      (hfits : FitsInt64 (m * 1024 ^ e)) : Overlooked (i ++ (b ++ c :: rest))

theorem Word.isChain {w : Str} (h : Word w) :
    List.IsChain (fun a b => isspace a = true → isspace b = false) w := by
  refine List.Pairwise.isChain (List.pairwise_of_forall_mem_list ?_)
  exact fun _ _ d hd _ => h.2 d hd

theorem Value.isChain {text : Str} (h : Value text) :
    List.IsChain (fun a b => isspace a = true → isspace b = false) text := by
  have hjoin : ∀ {w u : Str}, Word w → List.IsChain (fun a b => isspace a = true → isspace b = false) u →
      List.IsChain (fun a b => isspace a = true → isspace b = false) (w ++ u) := by
    intro w u hw hu
    refine List.isChain_append.mpr ⟨hw.isChain, hu, fun a ha d _ hspace => ?_⟩
    rw [hw.2 a (List.mem_of_mem_getLast? ha)] at hspace
    cases hspace
  obtain ⟨w, u, rfl, hw, hu⟩ := h
  refine hjoin hw ?_
  clear hw
  induction hu with
  | nil => exact .nil
  | cons hc hw' hu ih =>
    refine List.isChain_cons.mpr ⟨fun d hd _ => hw'.head _ d hd, hjoin hw' ih⟩

theorem Value.blank_length {u b v : Str} (h : Value (u ++ (b ++ v))) (hb : Blank b) : b.length ≤ 1 := by
  have hchain := (List.isChain_append.mp (List.isChain_append.mp h.isChain).2.1).1
  rcases b with _ | ⟨c, _ | ⟨d, b⟩⟩
  · simp
  · simp
  · have hnot := (List.isChain_cons_cons.mp hchain).1 (hb c (by simp))
    rw [hb d (by simp)] at hnot
    cases hnot

/-- What a number that is read consists of. -/
theorem exists_of_readInt64 {text rest : Str} {m : Int} (h : readInt64 text = some (m, rest)) :
    ∃ ws i, text = ws ++ (i ++ rest) ∧ Blank ws ∧ Decimal i m ∧ ∀ c ∈ rest.head?, isdigit c = false := by
  obtain ⟨htext, hws⟩ := blank_append_rest text
  unfold readInt64 at h
  generalize text.dropWhile isspace = body at h htext
  simp only [Option.ite_none_left_eq_some, Option.some.injEq, Prod.mk.injEq] at h
  obtain ⟨hne, -, hm, hrest⟩ := h
  -- the digits stand behind the sign, and `rest` behind them
  have hread : ∀ {sign u : Str}, body = sign ++ u → u.takeWhile isdigit ≠ [] →
      u.dropWhile isdigit = rest →
      (Digits (u.takeWhile isdigit) → Decimal (sign ++ u.takeWhile isdigit) m) →
      ∃ ws i, text = ws ++ (i ++ rest) ∧ Blank ws ∧ Decimal i m ∧ ∀ c ∈ rest.head?, isdigit c = false := by
    rintro sign u rfl hne rfl hi
    refine ⟨_, sign ++ u.takeWhile isdigit, ?_, hws, hi ⟨hne, fun c => List.mem_takeWhile_imp⟩, ?_⟩
    · rw [List.append_assoc, List.takeWhile_append_dropWhile]
      exact htext
    · intro c hc
      have hnot := List.head?_dropWhile_not isdigit u
      rw [Option.mem_def.mp hc] at hnot
      exact hnot
  rcases body with _ | ⟨c, u⟩
  · simp at hne
  by_cases hminus : c = '-'
  · subst hminus
    simp only [List.head?_cons, BEq.rfl, true_or, if_true, List.drop_one, List.tail_cons] at hne hm hrest
    exact @hread ['-'] u rfl hne hrest fun hdigits => hm ▸ .minus hdigits
  by_cases hplus : c = '+'
  · subst hplus
    simp only [List.head?_cons, or_true, if_true, List.drop_one, List.tail_cons] at hne hm hrest
    exact @hread ['+'] u rfl hne hrest fun hdigits => hm ▸ .plus hdigits
  · simp only [List.head?_cons, Option.some.injEq, hplus, beq_iff_eq, hminus, or_self, if_false] at hne hm hrest
    exact @hread [] (c :: u) rfl hne hrest fun hdigits => hm ▸ .unsigned hdigits

theorem head_not_digit {b s : Str} (hb : Blank b) (hs : ∀ c ∈ s.head?, isdigit c = false) :
    ∀ c ∈ (b ++ s).head?, isdigit c = false := by
  cases b with
  | nil => exact hs
  | cons d b =>
    have hd : isdigit d = false := by
      by_contra hdigit
      have hspace := hb d (by simp)
      rw [isspace_of_isdigit (by simpa using hdigit)] at hspace
      cases hspace
    simpa using hd

theorem WellFormed.suffix {text rest : Str} {m : Int} (h : WellFormed text)
    (hread : readInt64 text = some (m, rest)) : ∃ e, Suffix (rest.dropWhile isspace) e := by
  obtain ⟨i, b, s, m', e, rfl, hi, hb, -, hs⟩ := h
  rw [readInt64_decimal hi (head_not_digit hb fun c hc => (hs.head c hc).2),
    Option.ite_none_right_eq_some] at hread
  obtain ⟨-, hread⟩ := hread
  obtain rfl := (Prod.mk.inj (Option.some.inj hread)).2
  refine ⟨e, ?_⟩
  rwa [dropWhile_blank hb fun c hc => (hs.head c hc).1]

theorem Overlooked.read {text : Str} (h : Overlooked text) :
    ∃ m rest f, readInt64 text = some (m, rest) ∧ sizeSuffix (rest.dropWhile isspace) = some f ∧
      FitsInt64 (m * f) ∧ ∀ e, ¬ Suffix (rest.dropWhile isspace) e := by
  cases h with
  | @nul i b rest m hi hb hlen hfits =>
    have hread := readInt64_decimal hi (head_not_digit hb (s := '\x00' :: rest) (by simp [isdigit]))
    have hskip : (b ++ '\x00' :: rest).dropWhile isspace = '\x00' :: rest :=
      dropWhile_blank hb (by simp [isspace])
    rw [if_pos hfits] at hread
    refine ⟨m, _, 1, hread, ?_⟩
    rw [hskip, Int.mul_one]
    refine ⟨rfl, hfits, ?_⟩
    rintro e (_ | hc)
    exact (isspace_sizeExponent hc).2.2 rfl
  | @suffix i b rest m c e hi hb hlen hc hrest hfits =>
    obtain ⟨hspace, hdigit, hnul⟩ := isspace_sizeExponent hc
    have hread := readInt64_decimal hi (head_not_digit hb (s := c :: rest) (by simpa using hdigit))
    have hskip : (b ++ c :: rest).dropWhile isspace = c :: rest :=
      dropWhile_blank hb (by simpa using hspace)
    rw [if_pos (fits_of_mul (Int.pow_pos (by decide)) hfits)] at hread
    refine ⟨m, _, 1024 ^ e, hread, ?_⟩
    rw [hskip, sizeSuffix, if_neg hnul, multiplier_eq, hc]
    refine ⟨rfl, hfits, ?_⟩
    rintro e' (_ | _)
    exact hrest rfl

theorem Overlooked.malformed {text : Str} (h : Overlooked text) : ¬ WellFormed text := by
  intro hwell
  obtain ⟨m, rest, f, hread, -, -, hnot⟩ := h.read
  obtain ⟨e, hsuffix⟩ := hwell.suffix hread
  exact hnot e hsuffix

theorem Overlooked.accepted {text : Str} (h : Overlooked text) :
    ∃ n, numberOf text = some n ∧ FitsInt64 n := by
  obtain ⟨m, rest, f, hread, hsize, hfits, -⟩ := h.read
  refine ⟨m * f, ?_, hfits⟩
  rw [numberOf, hread, Option.bind_some, hsize, Option.map_some]

/-- A value that is read is a number, or there is more in it. -/
theorem overlooked_of_read {text : Str} {n : Int} (h : Value text) (hn : numberOf text = some n)
    (hfits : FitsInt64 n) (hmalformed : ¬ WellFormed text) : Overlooked text := by
  obtain ⟨⟨m, rest⟩, hread, hn⟩ := Option.bind_eq_some_iff.mp hn
  obtain ⟨f, hsize, hn⟩ := Option.map_eq_some_iff.mp hn
  have hm := readInt64_fits hread
  obtain ⟨ws, i, rfl, hws, hi, hhead⟩ := exists_of_readInt64 hread
  obtain rfl : ws = [] := by
    cases ws with
    | nil => rfl
    | cons c ws =>
      have hnot := (h.head []).2 c (by simp)
      rw [hws c (by simp)] at hnot
      cases hnot
  obtain ⟨hrest, hb⟩ := blank_append_rest rest
  rw [List.nil_append] at h hmalformed ⊢
  generalize rest.takeWhile isspace = b at hrest hb
  generalize rest.dropWhile isspace = behind at hrest hsize
  subst hrest
  have hlen := h.blank_length hb
  cases behind with
  | nil => exact absurd ⟨i, b, [], m, 0, rfl, hi, hb, hlen, .none⟩ hmalformed
  | cons c behind =>
    by_cases hc : c = '\x00'
    · subst hc
      exact .nul hi hb hlen hm
    rw [sizeSuffix, if_neg hc, multiplier_eq, Option.map_eq_some_iff] at hsize
    obtain ⟨e, he, rfl⟩ := hsize
    rw [← hn] at hfits
    refine .suffix hi hb hlen he ?_ hfits
    rintro rfl
    exact hmalformed ⟨i, b, [c], m, e, rfl, hi, hb, hlen, .letter he⟩

/-- **Malformed numbers.** A malformed text is not read and its section is rejected if and only if it
is not one of those that the scanner does not look through: a number that fits and the character 0
behind it, or a number that fits with its suffix and more text behind it. -/
theorem malformed_numbers {file secName name text : Str}
    (hsec : secName ∈ (INIReader.open (some file)).sections)
    (hvalue : valueIn file secName name = some text) :
    MalformedRejected file secName name text ↔ ¬ Overlooked text := by
  have hserves := serves_open hsec
  have hget : (INIReader.open (some file)).Get secName name [] = text := by
    rw [hserves.get, hvalue, Option.getD_some]
  have hne := hserves.ne _ _ hvalue
  constructor
  · intro hrejected hoverlooked
    obtain ⟨n, hn⟩ := hoverlooked.accepted
    obtain ⟨error, herror⟩ := (hrejected hoverlooked.malformed).1 0
    rw [(getInteger_ok_iff hget hne).mpr hn] at herror
    cases herror
  · intro hlooked hmalformed
    have hnot : ∀ n, numberOf text = some n → ¬ FitsInt64 n := fun n hn hfits =>
      hlooked (overlooked_of_read (lastValue_value hvalue) hn hfits hmalformed)
    refine ⟨fun default_value => ?_, ?_⟩
    · cases hread : (INIReader.open (some file)).GetInteger secName name default_value with
      | error error => exact ⟨error, rfl⟩
      | ok n =>
        obtain ⟨hn, hfits⟩ := (getInteger_ok_iff hget hne).mp hread
        exact absurd hfits (hnot n hn)
    · rintro o f hfield rfl build
      cases hsetup : setupWorkerParams build (INIReader.open (some file)) secName with
      | error error => exact ⟨error, rfl⟩
      | ok p =>
        obtain ⟨k, -, hk, hfits, -⟩ := field_of_setup hserves hsetup hfield hvalue
        exact absurd hfits (hnot k hk)

/-- A letter that is no suffix. -/
theorem malformed_numbers_letter :
    MalformedRejected "[w]\nthreads = 10X\n".toList "w".toList "threads".toList "10X".toList := by
  refine (malformed_numbers (by decide +kernel) (by decide +kernel)).mpr fun hoverlooked => ?_
  obtain ⟨n, hn, -⟩ := hoverlooked.accepted
  have hnone : numberOf "10X".toList = none := by decide
  rw [hnone] at hn
  cases hn

/-- Nothing behind the suffix is looked at: the section runs with 4096 threads. -/
theorem malformed_numbers_trailing :
    ¬ WellFormed "4kB".toList ∧
    ¬ MalformedRejected "[w]\nthreads = 4kB\n".toList "w".toList "threads".toList "4kB".toList ∧
    ∃ p, setupWorkerParams ⟨true, true⟩ (INIReader.open (some "[w]\nthreads = 4kB\n".toList))
      "w".toList = .ok p ∧ p.threads = 4096 := by
  have hoverlooked : Overlooked "4kB".toList :=
    .suffix (i := ['4']) (b := []) (.unsigned ⟨by decide, forall_mem_of_all (by decide)⟩) (by simp [Blank])
      (by decide) (c := 'k') rfl (by decide) (by decide)
  have hthreads : (setupWorkerParams ⟨true, true⟩ (INIReader.open (some "[w]\nthreads = 4kB\n".toList))
      "w".toList).map workerParams.threads = .ok 4096 := by decide +kernel
  obtain ⟨p, hp, hthreads⟩ := map_eq_ok.mp hthreads
  refine ⟨hoverlooked.malformed, fun hrejected => ?_, p, hp, hthreads⟩
  obtain ⟨error, herror⟩ := (hrejected hoverlooked.malformed).2 .threads _ rfl rfl ⟨true, true⟩
  rw [hp] at herror
  cases herror

end PQuery.Config

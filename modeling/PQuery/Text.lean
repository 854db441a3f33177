import PQuery.Library.ListScan

/-!
# Byte strings

A `std::string` is the list of its bytes, each written as the character of that code; nothing
depends on a code being below 256, so every result holds for all byte strings. The character
classes are those of the "C" locale, which the program never leaves.
-/

namespace PQuery

/-- A `std::string`. -/
abbrev Str := List Char

/-- `text[pos]`; one past the end it is the terminating NUL. -/
def charAt (text : Str) (pos : Nat) : Char := text.getD pos '\x00'

/-- `text.compare(pos, pattern.size(), pattern) == 0`. -/
def compareAt (text : Str) (pos : Nat) (pattern : Str) : Bool :=
  (text.drop pos).take pattern.length == pattern

/-- What a callee sees of `text.c_str()`. -/
def cString (text : Str) : Str := text.takeWhile (· ≠ '\x00')

/-- `std::to_string`, and what a stream writes of a number. -/
def to_string (n : Int) : Str :=
  if n < 0 then '-' :: Nat.toDigits 10 n.natAbs else Nat.toDigits 10 n.natAbs

def isspace (c : Char) : Bool :=
  c == ' ' || c == '\t' || c == '\n' || c == '\x0b' || c == '\x0c' || c == '\r'

def isdigit (c : Char) : Bool := '0' ≤ c && c ≤ '9'

def isalpha (c : Char) : Bool := ('A' ≤ c && c ≤ 'Z') || ('a' ≤ c && c ≤ 'z')

def isalnum (c : Char) : Bool := isalpha c || isdigit c

def tolower (c : Char) : Char := if 'A' ≤ c && c ≤ 'Z' then Char.ofNat (c.toNat + 32) else c

/-- What holds of the characters of a text can be decided over the text; the quantifier alone would
be decided over all characters. -/
theorem forall_mem_of_all {P : Char → Prop} [DecidablePred P] {text : Str}
    (h : text.all (fun c => decide (P c)) = true) : ∀ c ∈ text, P c :=
  fun c hc => of_decide_eq_true (List.all_eq_true.mp h c hc)

theorem to_string_natCast (n : Nat) : to_string n = Nat.toDigits 10 n := by
  rw [to_string, if_neg (by omega), Int.natAbs_natCast]

theorem to_string_digits (n : Nat) : to_string n ≠ [] ∧ ∀ c ∈ to_string n, c.isDigit := by
  rw [to_string_natCast]
  exact ⟨Nat.toDigits_ne_nil, fun c => Nat.isDigit_of_mem_toDigits (by decide) (by decide)⟩

theorem to_string_inj {m n : Nat} : to_string m = to_string n ↔ m = n := by
  rw [to_string_natCast, to_string_natCast]
  refine ⟨fun h => ?_, fun h => congrArg _ h⟩
  have := congrArg (fun text => Nat.ofDigitChars 10 text 0) h
  simpa [Nat.ofDigitChars_toDigits] using this

@[simp] theorem charAt_drop (text : Str) (pos k : Nat) :
    charAt (text.drop pos) k = charAt text (pos + k) := by
  simp [charAt]

theorem compareAt_iff {text : Str} {pos : Nat} {pattern : Str} :
    compareAt text pos pattern = true ↔ pattern <+: text.drop pos := by
  rw [compareAt, beq_iff_eq, List.prefix_iff_eq_take, eq_comm]

theorem compareAt_drop (text : Str) (pos k : Nat) (pattern : Str) :
    compareAt (text.drop pos) k pattern = compareAt text (pos + k) pattern := by
  simp [compareAt, List.drop_drop]

end PQuery

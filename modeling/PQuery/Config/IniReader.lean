import Mathlib.Algebra.Order.Ring.Int
import PQuery.Text

/-!
# The INI reader

`INIReader`: the file is read line by line into a list of section names, a map from section and key
to value, and the number of the first malformed line. Values are looked up as strings, booleans,
64-bit integers with a size suffix, and the two enumerations.
-/

namespace PQuery.Config

open ListScan

inductive eDBTYPE
  | eNONE
  | eMYSQL
  | ePGSQL
deriving DecidableEq, Repr

inductive eINFILETYPE
  | eSQL
  | eGENLOG
  | eBINLOG
  | eUNKNOWN
deriving DecidableEq, Repr

/-! ### Lines -/

/-- The first position from `pos` on without white space. -/
def skipWs (line : Str) (pos : Nat) : Nat := pos + ((line.drop pos).takeWhile isspace).length

/-- The first position from `pos` on with white space. -/
def skipWord (line : Str) (pos : Nat) : Nat :=
  pos + ((line.drop pos).takeWhile fun c => !isspace c).length

def isBlank (line : Str) : Bool := skipWs line 0 == line.length

def isComment (line : Str) : Bool :=
  let i := skipWs line 0
  if i ≥ line.length then false
  else if charAt line i == ';' || charAt line i == '#' then true
  else i + 1 < line.length && charAt line i == '-' && charAt line (i + 1) == '-'

/-- The name of the section that the line starts. -/
def tryParseSection (line : Str) : Option Str :=
  let i := skipWs line 0
  if i ≥ line.length ∨ charAt line i ≠ '[' then none
  else
    let name := (line.drop (i + 1)).takeWhile (· ≠ ']')
    let close := i + 1 + name.length
    if close ≥ line.length ∨ close = i + 1 ∨ close + 1 ≠ line.length then none else some name

/-- The end of the value whose first words end at `i`: words are joined by single white space. -/
def valueEnd (line : Str) (i : Nat) : Option Nat :=
  if i < line.length then
    if skipWs line i = line.length then some i
    else if _hone : skipWs line i - i ≠ 1 then none
    else valueEnd line (skipWord line (skipWs line i))
  else some i
termination_by line.length - i
decreasing_by
  have h : skipWs line i ≤ skipWord line (skipWs line i) := Nat.le_add_right _ _
  omega

/-- The key and the value of an assignment. -/
def tryParseKeyValue (line : Str) : Option (Str × Str) :=
  let n := line.length
  let kb := skipWs line 0
  if kb = n then none
  else
    -- the first character of the key may be anything, even '='
    let i := kb + 1 +
      ((line.drop (kb + 1)).takeWhile fun c => c != ' ' && c != '\t' && c != '=').length
    let key := (line.drop kb).take (i - kb)
    let i := skipWs line i
    if i = n ∨ charAt line i ≠ '=' then none
    else
      let vb := skipWs line (i + 1)
      if vb = n then none
      else (valueEnd line (skipWord line vb)).map fun ve => (key, (line.drop vb).take (ve - vb))

/-! ### The file -/

structure INIReader where
  sections : List Str
  /-- Assignments, the last one first. -/
  map : List ((Str × Str) × Str)
  error : Int
deriving DecidableEq

/-- The reader and the section that the next assignment goes to. `line_no`, an `int`, counts up to 2^31 - 1
lines; a longer file is left out. -/
def readLine (current_section : Str) (line_no : Nat) (reader : INIReader) (line : Str) :
    INIReader × Str :=
  if isBlank line || isComment line then (reader, current_section)
  else match tryParseSection line with
  | some sectionName => ({ reader with sections := reader.sections ++ [sectionName] }, sectionName)
  | none =>
    match tryParseKeyValue line with
    | some (key, value) =>
      ({ reader with map := ((current_section, key), value) :: reader.map }, current_section)
    | none =>
      if reader.error = 0 then ({ reader with error := line_no }, current_section)
      else (reader, current_section)

/-- The `getline` loop, `line_no` lines being read. -/
def readLines (current_section : Str) (line_no : Nat) (reader : INIReader) : List Str → INIReader
  | [] => reader
  | line :: rest =>
    let r := readLine current_section (line_no + 1) reader line
    readLines r.2 (line_no + 1) r.1 rest

/-- The constructor, on the content of the file if it can be opened. -/
def INIReader.open (file : Option Str) : INIReader :=
  match file with
  | none => { sections := [], map := [], error := -1 }
  | some content => readLines [] 0 { sections := [], map := [], error := 0 } (lines '\n' content)

/-! ### Lookups -/

namespace INIReader
variable (reader : INIReader) (sec name : Str)

def Get (default_value : Str) : Str :=
  match reader.map.lookup (sec, name) with
  | none => default_value
  | some value => if value ≠ [] then value else default_value

def getInfileType (default_value : eINFILETYPE) : eINFILETYPE :=
  let valstr := (reader.Get sec name []).map tolower
  if valstr = [] then default_value
  else if valstr = "sql".toList then .eSQL
  else if valstr = "genlog".toList then .eGENLOG
  else if valstr = "binlog".toList then .eBINLOG
  else .eUNKNOWN

def getDbType (default_value : eDBTYPE) : eDBTYPE :=
  let valstr := (reader.Get sec name []).map tolower
  if valstr = [] then default_value
  else if valstr = "mysql".toList ∨ valstr = "mariadb".toList then .eMYSQL
  else if valstr = "pgsql".toList ∨ valstr = "postgres".toList ∨ valstr = "postgresql".toList then
    .ePGSQL
  else .eNONE

def GetBoolean (default_value : Bool) : Bool :=
  let valstr := (reader.Get sec name []).map tolower
  if valstr ∈ ["true".toList, "yes".toList, "on".toList, "1".toList] then true
  else if valstr ∈ ["false".toList, "no".toList, "off".toList, "0".toList] then false
  else default_value

end INIReader

def int64Min : Int := -2 ^ 63
def int64Max : Int := 2 ^ 63 - 1

/-- The value of decimal digits. -/
def digitsValue (digits : Str) : Int :=
  digits.foldl (fun n c => 10 * n + (c.toNat - '0'.toNat : Nat)) 0

/-- `vss >> ipart` on a stream with this content: the number and what is left, or failure. -/
def readInt64 (text : Str) : Option (Int × Str) :=
  let text := text.dropWhile isspace
  let negative := text.head? == some '-'
  let digits := if negative ∨ text.head? = some '+' then text.drop 1 else text
  let ipart := digitsValue (digits.takeWhile isdigit)
  let ipart := if negative then -ipart else ipart
  if digits.takeWhile isdigit = [] then none
  else if ipart < int64Min ∨ int64Max < ipart then none
  else some (ipart, digits.dropWhile isdigit)

/-- The multiplier of a size suffix. -/
def multiplier (cpart : Char) : Option Int :=
  if cpart = 'k' ∨ cpart = 'K' then some 1024
  else if cpart = 'm' ∨ cpart = 'M' then some (1024 * 1024)
  else if cpart = 'g' ∨ cpart = 'G' then some (1024 * 1024 * 1024)
  else if cpart = 't' ∨ cpart = 'T' then some (1024 * 1024 * 1024 * 1024)
  else none

/-- An error is the text of the exception. -/
def INIReader.GetInteger (reader : INIReader) (sec name : Str) (default_value : Int) :
    Except Str Int :=
  let valstr := reader.Get sec name []
  let invalid := "Invalid value for ".toList ++ name ++ ": ".toList ++ valstr
  if valstr = [] then .ok default_value
  else match readInt64 valstr with
  | none => .error invalid
  | some (ipart, rest) =>
    -- nothing is read at the end of the stream, and `cpart` stays 0
    let cpart := (rest.dropWhile isspace).headD '\x00'
    if cpart = '\x00' then .ok ipart
    else match multiplier cpart with
    | none => .error invalid
    | some multiplier =>
      if ipart ≠ 0 ∧ (int64Max.tdiv multiplier < ipart ∨ ipart < int64Min.tdiv multiplier) then
        .error ("Value out of range for ".toList ++ name ++ ": ".toList ++ valstr)
      else .ok (ipart * multiplier)

example : (INIReader.open (some "[a]\nn = 4 G x\nn = 4G\n".toList)).GetInteger "a".toList "n".toList 1 =
    .ok 4294967296 := by decide +kernel

end PQuery.Config

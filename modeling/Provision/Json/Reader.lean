import Provision.Json.Quoted
import Provision.Json.Reading

/-!
# Reading JSON

Reads what a text says.  The whole text has to keep to the grammar; what a part
stands for is another question, and a part that stands for nothing is illegible.
Of a number only as many digits are kept as fit into 64 bits; it is then scaled
by a power of ten in floating-point arithmetic.
-/

namespace Provision.Json

/-- The blanks between the parts of a document. -/
def isSpace (c : Char) : Bool :=
  c == ' ' || c == '\n' || c == '\t' || c == '\r'

/-- A text without the blanks at its start. -/
def skipSpace (text : List Char) : List Char :=
  text.dropWhile isSpace

/-- Appends digits to a number while it stays below 2 ^ 64.  Answers the number and how many digits
did not fit. -/
def keepDigits : Nat → List Char → Nat × Nat
  | n, [] => (n, 0)
  | n, c :: rest =>
    let next := n * 10 + (c.toNat - '0'.toNat)
    if next < 2 ^ 64 then keepDigits next rest else (n, rest.length + 1)

/-- A power of ten as a number. -/
def powerOfTen (n : Nat) : Float :=
  Decimal.ofDecimal false 1 n

/-- `x · 10 ^ exponent` in steps of at most 308 places; nothing when that is too large. -/
def scaled? : Nat → Float → Int → Option Float
  | 0, _, _ => none
  | n + 1, x, exponent =>
    if exponent.natAbs ≤ 308 then
      if 0 ≤ exponent then
        let y := x * powerOfTen exponent.toNat
        if y.isInf then none else some y
      else some (x / powerOfTen exponent.natAbs)
    else if x == 0.0 then some x
    else if 0 ≤ exponent then none
    else scaled? n (x / powerOfTen 308) (exponent + 308)

/-- The parts of a number: digits before and behind the point, and the exponent if it has one. -/
structure NumberText where
  negative : Bool
  whole : List Char
  fraction : List Char
  exponent : Option Int

/-- The exponent that follows the letter, and the text behind it. -/
def readExponent (text : List Char) : Option (Int × List Char) :=
  let (negative, body) :=
    match text with
    | '-' :: rest => (true, rest)
    | '+' :: rest => (false, rest)
    | rest => (false, rest)
  let digits := body.takeWhile Char.isDigit
  if digits.isEmpty then none
  else
    let e : Int := Decimal.natOfDigits digits
    some (if negative then -e else e, body.dropWhile Char.isDigit)

/-- Splits a number off a text. -/
def splitNumber (text : List Char) : Option (NumberText × List Char) := do
  let negative := text.head? == some '-'
  let body := if negative then text.tail else text
  let whole := body.takeWhile Char.isDigit
  let rest := body.dropWhile Char.isDigit
  if whole.isEmpty || (whole.head? == some '0' && whole.length != 1) then none
  else
    let (fraction, rest) ←
      match rest with
      | '.' :: behind =>
        let digits := behind.takeWhile Char.isDigit
        if digits.isEmpty then none else some (digits, behind.dropWhile Char.isDigit)
      | _ => some ([], rest)
    match rest with
    | 'e' :: behind | 'E' :: behind => do
      let (e, rest) ← readExponent behind
      some (⟨negative, whole, fraction, some e⟩, rest)
    | _ => some (⟨negative, whole, fraction, none⟩, rest)

/-- The number that a text stands for; one that is too large is illegible. -/
def numberOf (parts : NumberText) : Reading :=
  let (kept, dropped) := keepDigits 0 parts.whole
  if parts.fraction.isEmpty && parts.exponent.isNone && dropped = 0 then
    if parts.negative then .number (-(Float.ofNat kept)) else .natural kept
  else
    let (significand, lost) := keepDigits kept parts.fraction
    let places : Int := (parts.fraction.length : Int) - lost
    let exponent := (dropped : Int) - places + parts.exponent.getD 0
    match scaled? (exponent.natAbs + 1) (Float.ofNat significand) exponent with
    | some x => .number (if parts.negative then -x else x)
    | none => .illegible

/-- The string that marks stand for. -/
def stringOf (marks : List Mark) : Reading :=
  match textOf? marks with
  | some s => .string s
  | none => .illegible

/-- An array or object at some remaining depth; one that lies too deep is illegible. -/
def within (depth : Nat) (reading : Reading) : Reading :=
  if depth = 0 then .illegible else reading

mutual

/-- What stands at the start of a text at some remaining depth, and the text behind it. -/
def readValue : Nat → (depth : Nat) → List Char → Option (Reading × List Char)
  | 0, _, _ => none
  | n + 1, depth, text =>
    match skipSpace text with
    | 'n' :: 'u' :: 'l' :: 'l' :: rest => some (.null, rest)
    | 't' :: 'r' :: 'u' :: 'e' :: rest => some (.bool true, rest)
    | 'f' :: 'a' :: 'l' :: 's' :: 'e' :: rest => some (.bool false, rest)
    | '"' :: rest => do
      let (marks, rest) ← readMarks (rest.length + 1) rest
      some (stringOf marks, rest)
    | '[' :: rest =>
      match skipSpace rest with
      | ']' :: rest => some (within depth (.array []), rest)
      | rest => do
        let (items, rest) ← readItems n (depth - 1) rest
        some (within depth (.array items), rest)
    | '\x7b' :: rest =>
      match skipSpace rest with
      | '\x7d' :: rest => some (within depth (.object []), rest)
      | rest => do
        let (members, rest) ← readMembers n (depth - 1) rest
        some (within depth (.object members), rest)
    | rest => do
      let (parts, rest) ← splitNumber rest
      some (numberOf parts, rest)

/-- The items of an array up to its closing bracket; there is at least one. -/
def readItems : Nat → (depth : Nat) → List Char → Option (List Reading × List Char)
  | 0, _, _ => none
  | n + 1, depth, text => do
    let (item, rest) ← readValue n depth text
    match skipSpace rest with
    | ',' :: rest => do
      let (items, rest) ← readItems n depth rest
      some (item :: items, rest)
    | ']' :: rest => some ([item], rest)
    | _ => none

/-- The members of an object up to its closing brace; there is at least one. -/
def readMembers : Nat → (depth : Nat) → List Char →
    Option (List (Option String × Reading) × List Char)
  | 0, _, _ => none
  | n + 1, depth, text =>
    match skipSpace text with
    | '"' :: rest => do
      let (name, rest) ← readMarks (rest.length + 1) rest
      match skipSpace rest with
      | ':' :: rest => do
        let (item, rest) ← readValue n depth rest
        match skipSpace rest with
        | ',' :: rest => do
          let (members, rest) ← readMembers n depth rest
          some ((textOf? name, item) :: members, rest)
        | '\x7d' :: rest => some ([(textOf? name, item)], rest)
        | _ => none
      | _ => none
    | _ => none

end

/-- How many arrays and objects may stand inside one another. -/
def maxDepth : Nat := 127

/-- What a whole text says, if it keeps to the grammar. -/
def read? (text : String) : Option Reading := do
  let chars := text.toList
  let (reading, rest) ← readValue (2 * chars.length + 2) maxDepth chars
  if (skipSpace rest).isEmpty then some reading else none

end Provision.Json

import Provision.Json

/-!
# Quoted strings

The grammar of a quoted string is kept apart from the characters that it stands
for.  By the grammar four hexadecimal digits are an escape whatever their
number; but a character beyond the first 65536 takes two escapes, and one of its
halves alone stands for nothing.
-/

namespace Provision.Json

/-- The value of a hexadecimal digit. -/
def hexValue? (c : Char) : Option Nat :=
  if c.isDigit then some (c.toNat - '0'.toNat)
  else if 'a' ≤ c ∧ c ≤ 'f' then some (c.toNat - 'a'.toNat + 10)
  else if 'A' ≤ c ∧ c ≤ 'F' then some (c.toNat - 'A'.toNat + 10)
  else none

/-- The number that four hexadecimal digits stand for, and the text behind them. -/
def hexQuad? : List Char → Option (Nat × List Char)
  | a :: b :: c :: d :: rest => do
    let a ← hexValue? a
    let b ← hexValue? b
    let c ← hexValue? c
    let d ← hexValue? d
    some (((a * 16 + b) * 16 + c) * 16 + d, rest)
  | _ => none

/-- The character of an escape of one letter. -/
def simpleEscape? (c : Char) : Option Char :=
  if c = '"' ∨ c = '\\' ∨ c = '/' then some c
  else if c = 'b' then some (Char.ofNat 8)
  else if c = 'f' then some (Char.ofNat 12)
  else if c = 'n' then some '\n'
  else if c = 'r' then some '\r'
  else if c = 't' then some '\t'
  else none

/-- A part of a quoted string: a character, or the number of an escape with digits. -/
inductive Mark where
  | char (c : Char)
  | escape (n : Nat)
deriving DecidableEq, Repr

/-- The parts of a string behind its opening quote, and the text behind the closing one. -/
def readMarks : Nat → List Char → Option (List Mark × List Char)
  | 0, _ => none
  | n + 1, text =>
    match text with
    | [] => none
    | '"' :: rest => some ([], rest)
    | '\\' :: 'u' :: rest => do
      let (code, rest) ← hexQuad? rest
      let (marks, rest) ← readMarks n rest
      some (.escape code :: marks, rest)
    | '\\' :: c :: rest => do
      let c ← simpleEscape? c
      let (marks, rest) ← readMarks n rest
      some (.char c :: marks, rest)
    | c :: rest =>
      if c = '\\' ∨ c.toNat < 32 then none
      else do
        let (marks, rest) ← readMarks n rest
        some (.char c :: marks, rest)

/-- Whether a number is the first half of a character. -/
def isFirstHalf (n : Nat) : Bool :=
  0xD800 ≤ n && n ≤ 0xDBFF

/-- Whether a number is the second half of a character. -/
def isSecondHalf (n : Nat) : Bool :=
  0xDC00 ≤ n && n ≤ 0xDFFF

/-- The character that two halves make. -/
def ofHalves (first second : Nat) : Char :=
  Char.ofNat (0x10000 + (first - 0xD800) * 0x400 + (second - 0xDC00))

/-- The characters that marks stand for; nothing when a half stands alone. -/
def characters? : List Mark → Option (List Char)
  | [] => some []
  | .char c :: rest => (characters? rest).map (c :: ·)
  | .escape n :: .escape second :: rest =>
    if isFirstHalf n then
      if isSecondHalf second then (characters? rest).map (ofHalves n second :: ·) else none
    else if isSecondHalf n then none
    else (characters? (.escape second :: rest)).map (Char.ofNat n :: ·)
  | .escape n :: rest =>
    if isFirstHalf n || isSecondHalf n then none
    else (characters? rest).map (Char.ofNat n :: ·)

/-- The text that marks stand for. -/
def textOf? (marks : List Mark) : Option String :=
  (characters? marks).map String.ofList

end Provision.Json

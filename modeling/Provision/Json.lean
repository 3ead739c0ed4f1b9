import Provision.Decimal
import Provision.Text

/-!
# JSON

Documents as trees and as text.  Natural numbers are kept apart from other
numbers, which always show that they are fractions or powers.
-/

namespace Provision

/-- A document.  Members keep their order, and a name may occur again. -/
inductive Json where
  | null
  | bool (b : Bool)
  | natural (n : Nat)
  | number (x : Float)
  | string (s : String)
  | array (items : List Json)
  | object (members : List (String × Json))
deriving Inhabited

/-- How numbers are written in documents: with a point or an exponent, and as null when they are
not finite. -/
def Decimal.document : Decimal.Layout where
  tie := .even
  positional := fun e => -5 ≤ e && e < 16
  pointZero := true
  plusSign := true
  infinity := "null"
  minusInfinity := "null"
  notANumber := "null"

namespace Json

/-- A character inside quotes. -/
def escapedChar (c : Char) : List Char :=
  if c = '"' then ['\\', '"']
  else if c = '\\' then ['\\', '\\']
  else if c = '\n' then ['\\', 'n']
  else if c = '\r' then ['\\', 'r']
  else if c = '\t' then ['\\', 't']
  else if c.toNat = 8 then ['\\', 'b']
  else if c.toNat = 12 then ['\\', 'f']
  else if c.toNat < 32 then ['\\', 'u', '0', '0', hexDigit (c.toNat / 16), hexDigit (c.toNat % 16)]
  else [c]

/-- A string in quotes. -/
def quoted (s : List Char) : List Char :=
  '"' :: (s.flatMap escapedChar ++ ['"'])

/-- A line break and the blanks before an item at some depth. -/
def newline (depth : Nat) : List Char :=
  '\n' :: List.replicate (2 * depth) ' '

/-- Items between brackets, on one line. -/
def onLine (opening closing : Char) (items : List (List Char)) : List Char :=
  opening :: (Text.join [','] items ++ [closing])

/-- Items between brackets, each on a line of its own; nothing between them when there are none. -/
def onLines (opening closing : Char) (depth : Nat) (items : List (List Char)) : List Char :=
  if items.isEmpty then [opening, closing]
  else opening :: (newline (depth + 1) ++ Text.join (',' :: newline (depth + 1)) items ++
    newline depth ++ [closing])

mutual

/-- A document on one line without blanks. -/
def compact : Json → List Char
  | null => ['n', 'u', 'l', 'l']
  | bool true => ['t', 'r', 'u', 'e']
  | bool false => ['f', 'a', 'l', 's', 'e']
  | natural n => Decimal.natDigits n
  | number x => Decimal.write Decimal.document x
  | string s => quoted s.toList
  | array items => onLine '[' ']' (compactItems items)
  | object members => onLine '\x7b' '\x7d' (compactMembers members)

/-- The items of an array, compact. -/
def compactItems : List Json → List (List Char)
  | [] => []
  | item :: rest => item.compact :: compactItems rest

/-- The members of an object, compact. -/
def compactMembers : List (String × Json) → List (List Char)
  | [] => []
  | (name, item) :: rest => (quoted name.toList ++ ':' :: item.compact) :: compactMembers rest

end

mutual

/-- A document on several lines, with two blanks for each level. -/
def pretty (depth : Nat) : Json → List Char
  | null => ['n', 'u', 'l', 'l']
  | bool true => ['t', 'r', 'u', 'e']
  | bool false => ['f', 'a', 'l', 's', 'e']
  | natural n => Decimal.natDigits n
  | number x => Decimal.write Decimal.document x
  | string s => quoted s.toList
  | array items => onLines '[' ']' depth (prettyItems (depth + 1) items)
  | object members => onLines '\x7b' '\x7d' depth (prettyMembers (depth + 1) members)

/-- The items of an array at some depth. -/
def prettyItems (depth : Nat) : List Json → List (List Char)
  | [] => []
  | item :: rest => item.pretty depth :: prettyItems depth rest

/-- The members of an object at some depth. -/
def prettyMembers (depth : Nat) : List (String × Json) → List (List Char)
  | [] => []
  | (name, item) :: rest =>
    (quoted name.toList ++ ':' :: ' ' :: item.pretty depth) :: prettyMembers depth rest

end

/-- The text of a document on one line. -/
def compactText (document : Json) : String :=
  String.ofList document.compact

/-- The text of a document on several lines. -/
def prettyText (document : Json) : String :=
  String.ofList (document.pretty 0)

end Json

end Provision

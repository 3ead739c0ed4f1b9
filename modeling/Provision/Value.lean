import Provision.Decimal
import Provision.Key
import Provision.Table

/-!
# Values

What a field of a resource or a variable can hold, with its text forms.  Maps
keep the order in which their keys were first set; equality of maps ignores it.
-/

namespace Provision

/-- A value of a field or variable. -/
inductive Value where
  | null
  | bool (b : Bool)
  | number (x : Float)
  | text (s : String)
  | list (items : List Value)
  | map (entries : List (String × Value))
  | resource (key : Key)
deriving Inhabited

/-- How numbers are written in configuration: never with an exponent. -/
def Decimal.plain : Decimal.Layout where
  tie := .up
  positional := fun _ => true
  pointZero := false
  plusSign := false
  infinity := "inf"
  minusInfinity := "-inf"
  notANumber := "NaN"

/-- A number as configuration files spell it. -/
def numberText (x : Float) : String :=
  String.ofList (Decimal.write Decimal.plain x)

namespace Value

/-- The word for the kind of a value. -/
def label : Value → String
  | null => "null"
  | bool _ => "boolean"
  | number _ => "number"
  | text _ => "string"
  | list _ => "list"
  | map _ => "map"
  | resource _ => "resource"

/-- Whether a value counts as true in a condition. -/
def isTruthy : Value → Bool
  | null => false
  | bool b => b
  | number x => x != 0.0
  | text s => !s.isEmpty
  | list items => !items.isEmpty
  | map entries => !entries.isEmpty
  | resource _ => true

/-- Whether a value is null. -/
def isNull : Value → Bool
  | null => true
  | _ => false

/-- The characters of a value that is a text. -/
def asText? : Value → Option String
  | text s => some s
  | _ => none

/-- A text in single quotes; backslashes and quotes are escaped. -/
def quoted : List Char → List Char
  | [] => []
  | c :: rest => if c = '\\' ∨ c = '\'' then '\\' :: c :: quoted rest else c :: quoted rest

mutual

/-- The value in configuration syntax. -/
def display : Value → String
  | null => "null"
  | bool b => if b then "true" else "false"
  | number x => numberText x
  | text s => "'" ++ String.ofList (quoted s.toList) ++ "'"
  | list items => "[" ++ joinTexts ", " (displayItems items) ++ "]"
  | map [] => "\x7b\x7d"
  | map (entry :: rest) => "\x7b " ++ joinTexts ", " (displayEntries (entry :: rest)) ++ " \x7d"
  | resource key => "$(" ++ key.text ++ ")"

/-- The items of a list in configuration syntax. -/
def displayItems : List Value → List String
  | [] => []
  | item :: rest => item.display :: displayItems rest

/-- The entries of a map in configuration syntax. -/
def displayEntries : List (String × Value) → List String
  | [] => []
  | (key, item) :: rest => (key ++ ": " ++ item.display) :: displayEntries rest

end

theorem displayItems_eq_map (items : List Value) :
    displayItems items = items.map display := by
  induction items with
  | nil => rfl
  | cons item rest ih => rw [displayItems, ih, List.map_cons]

theorem displayEntries_eq_map (entries : List (String × Value)) :
    displayEntries entries = entries.map fun entry => entry.1 ++ ": " ++ entry.2.display := by
  induction entries with
  | nil => rfl
  | cons entry rest ih => rw [displayEntries, ih, List.map_cons]

/-- The text that a value contributes to a string: nothing for null, no quotes around texts, the
name of a resource. -/
def plainText : Value → String
  | null => ""
  | text s => s
  | number x => numberText x
  | resource key => key.name
  | other => other.display

mutual

/-- The resources that occur in a value, in reading order. -/
def handles : Value → List Key
  | resource key => [key]
  | list items => handlesOfItems items
  | map entries => handlesOfEntries entries
  | _ => []

/-- The resources that occur in the items of a list. -/
def handlesOfItems : List Value → List Key
  | [] => []
  | item :: rest => item.handles ++ handlesOfItems rest

/-- The resources that occur in the entries of a map. -/
def handlesOfEntries : List (String × Value) → List Key
  | [] => []
  | (_, item) :: rest => item.handles ++ handlesOfEntries rest

end

mutual

/-- Equality of values: numbers compare as numbers, maps compare key by key in any order. -/
def same : Value → Value → Bool
  | null, null => true
  | bool a, bool b => a == b
  | number x, number y => x == y
  | text s, text t => s == t
  | list xs, list ys => sameItems xs ys
  | map es, map fs => es.length == fs.length && sameEntries es fs
  | resource k, resource l => k == l
  | _, _ => false

/-- Equality of lists, item by item. -/
def sameItems : List Value → List Value → Bool
  | [], [] => true
  | x :: xs, y :: ys => same x y && sameItems xs ys
  | _, _ => false

/-- Whether every entry of the first has an equal one in the second. -/
def sameEntries : List (String × Value) → List (String × Value) → Bool
  | [], _ => true
  | (key, item) :: rest, others =>
    (match Table.get? others key with
      | some other => same item other
      | none => false) && sameEntries rest others

end

mutual

/-- Deep merge: lists concatenate, maps merge key by key, and otherwise a value that is already
there wins unless it is null. -/
def merge : Value → Value → Value
  | list old, list new => list (old ++ new)
  | map old, map new => map (mergeEntries old new)
  | null, new => new
  | old, _ => old

/-- Merges the entries of the second map into the first, one after another. -/
def mergeEntries (old : List (String × Value)) : List (String × Value) → List (String × Value)
  | [] => old
  | (key, item) :: rest =>
    match Table.get? old key with
    | some current => mergeEntries (Table.set old key (merge current item)) rest
    | none => mergeEntries (Table.set old key item) rest

end

end Value

/-- An ordered table of values by name. -/
abbrev Bindings := Table String Value

end Provision

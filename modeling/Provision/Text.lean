/-!
# Text

Blank characters, trimming, splitting and joining.  Everything is stated on
lists of characters, with thin wrappers for `String`, so that later proofs
follow the data.
-/

namespace Provision

/-- The characters that Unicode calls white space. -/
def isBlank (c : Char) : Bool :=
  let n := c.toNat
  (9 ≤ n && n ≤ 13) || n == 32 || n == 0x85 || n == 0xA0 || n == 0x1680 ||
    (0x2000 ≤ n && n ≤ 0x200A) || n == 0x2028 || n == 0x2029 || n == 0x202F ||
    n == 0x205F || n == 0x3000

namespace Text

/-- Drops the blank characters at the front. -/
def trimStart (text : List Char) : List Char :=
  text.dropWhile isBlank

/-- Drops the blank characters at the back. -/
def trimEnd (text : List Char) : List Char :=
  (text.reverse.dropWhile isBlank).reverse

/-- Drops the blank characters at both ends. -/
def trim (text : List Char) : List Char :=
  trimEnd (trimStart text)

/-- The text before the first `mark` and the text after it. -/
def splitFirst (mark : Char) : List Char → Option (List Char × List Char)
  | [] => none
  | c :: rest =>
    if c = mark then some ([], rest)
    else (splitFirst mark rest).map fun parts => (c :: parts.1, parts.2)

/-- The text before the first `::` and the text after it. -/
def splitDoubleColon : List Char → Option (List Char × List Char)
  | [] => none
  | c :: rest =>
    if c = ':' ∧ rest.head? = some ':' then some ([], rest.tail)
    else (splitDoubleColon rest).map fun parts => (c :: parts.1, parts.2)

/-- The pieces between the occurrences of `mark`; there is always at least one. -/
def split (mark : Char) : List Char → List (List Char)
  | [] => [[]]
  | c :: rest =>
    if c = mark then [] :: split mark rest
    else
      match split mark rest with
      | [] => [[c]]
      | piece :: pieces => (c :: piece) :: pieces

/-- The pieces in order with `mark` between neighbours. -/
def join (mark : List Char) : List (List Char) → List Char
  | [] => []
  | [piece] => piece
  | piece :: next :: rest => piece ++ mark ++ join mark (next :: rest)

/-- `text` without `ending`, when it ends so. -/
def dropEnding? (ending text : List Char) : Option (List Char) :=
  if ending.isSuffixOf text then some (text.take (text.length - ending.length)) else none

end Text

/-- Whether a text is empty or holds blank characters only. -/
def isBlankText (text : String) : Bool :=
  text.toList.all isBlank

/-- A text without the blank characters at its ends. -/
def trimText (text : String) : String :=
  String.ofList (Text.trim text.toList)

/-- The texts in order with `mark` between neighbours. -/
def joinTexts (mark : String) : List String → String
  | [] => ""
  | [piece] => piece
  | piece :: next :: rest => piece ++ mark ++ joinTexts mark (next :: rest)

/-- The pieces of a text between the occurrences of `mark`. -/
def splitText (mark : Char) (text : String) : List String :=
  (Text.split mark text.toList).map String.ofList

/-- The hexadecimal digit, in lower case, of a number below sixteen. -/
def hexDigit (n : Nat) : Char :=
  if n < 10 then Char.ofNat ('0'.toNat + n) else Char.ofNat ('a'.toNat + (n - 10))

/-- Whether the characters of `front` open `text`. -/
def opensWith (front text : String) : Bool :=
  front.toList.isPrefixOf text.toList

end Provision

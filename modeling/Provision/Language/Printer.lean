import Provision.Value
import Provision.Language.Node

/-!
# Printing

The canonical text of a tree: four blanks for each level of nesting, words
without quotes where they read back as themselves, and parentheses only where
the operators need them.
-/

namespace Provision.Language

/-- The words that are not read as strings. -/
def keywords : List (List Char) :=
  [['t', 'r', 'u', 'e'], ['f', 'a', 'l', 's', 'e'], ['n', 'u', 'l', 'l'], ['a', 'n', 'd'],
    ['o', 'r'], ['e', 'n', 'd'], ['i', 'n']]

/-- Whether a string can be written as a word. -/
def isBareWord : List Char → Bool
  | [] => false
  | c :: rest =>
    (c.isAlpha || c == '_') &&
      rest.all (fun c => c.isAlphanum || c == '_' || c == '-' || c == '.' || c == '/' || c == '*') &&
      !(keywords.contains (c :: rest))

/-- The characters of a string between single quotes. -/
def escaped : List Char → List Char
  | [] => []
  | c :: rest =>
    if c = '\'' ∨ c = '\\' then '\\' :: c :: escaped rest
    else if c = '\n' then '\\' :: 'n' :: escaped rest
    else if c = '\t' then '\\' :: 't' :: escaped rest
    else c :: escaped rest

/-- The characters of a literal part between double quotes. -/
def escapedPart : List Char → List Char
  | [] => []
  | c :: rest =>
    if c = '"' ∨ c = '\\' ∨ c = '$' then '\\' :: c :: escapedPart rest
    else if c = '\n' then '\\' :: 'n' :: escapedPart rest
    else if c = '\t' then '\\' :: 't' :: escapedPart rest
    else c :: escapedPart rest

/-- A string in single quotes. -/
def quotedText (s : List Char) : List Char :=
  '\'' :: (escaped s ++ ['\''])

/-- The key of a pair or map entry. -/
def keyText (key : String) : List Char :=
  if isBareWord key.toList then key.toList else quotedText key.toList

/-- The blanks in front of a statement. -/
def indent (depth : Nat) : List Char :=
  List.replicate (4 * depth) ' '

/-- The names of a path with dots between them. -/
def pathText (path : List String) : List Char :=
  Text.join ['.'] (path.map String.toList)

/-- A name or argument: a word where the string reads back from it, else the given text. -/
def wordOr (node : Node) (written : List Char) : List Char :=
  match node with
  | .text s => if isBareWord s.toList then s.toList else written
  | _ => written

/-- Whether an operand of `op` needs parentheses; a right operand also when it binds equally. -/
def needsParens (op : Operator) (right : Bool) : Node → Bool
  | .binary own _ _ =>
    own.precedence < op.precedence || (right && own.precedence == op.precedence)
  | _ => false

/-- An operand, in parentheses where it needs them. -/
def operandText (op : Operator) (right : Bool) (node : Node) (written : List Char) : List Char :=
  if needsParens op right node then '(' :: (written ++ [')']) else written

/-- Arguments behind a name: a blank before the first, commas between them. -/
def argumentsText : List (List Char) → List Char
  | [] => []
  | first :: rest => ' ' :: Text.join [',', ' '] (first :: rest)

/-- A resource block with the given name and body text. -/
def resourceText (depth : Nat) (type : String) (name body : List Char) : List Char :=
  indent depth ++ type.toList ++ ' ' :: (name ++ '\n' :: (body ++ indent depth ++ ['e', 'n', 'd', '\n']))

/-- A named block with the given body text. -/
def blockText (depth : Nat) (key : String) (body : List Char) : List Char :=
  indent depth ++ key.toList ++ '\n' :: (body ++ indent depth ++ ['e', 'n', 'd', '\n'])

/-- A directive with the given head, body and branches. -/
def directiveText (depth : Nat) (name : String) (bodyless : Bool)
    (head body branches : List Char) : List Char :=
  indent depth ++ '@' :: (name.toList ++ (if bodyless then [':'] else []) ++ head ++ '\n' ::
    (if bodyless then [] else body ++ branches ++ indent depth ++ ['@', 'e', 'n', 'd', '\n']))

/-- A branch with the given guard and body text. -/
def branchText (depth : Nat) (name : String) (guarded : Bool) (head body : List Char) : List Char :=
  indent depth ++ '@' :: (name.toList ++ (if guarded then [' ', 'i', 'f'] ++ head else []) ++
    '\n' :: body)

/-- A truth value. -/
def boolText : Bool → List Char
  | true => ['t', 'r', 'u', 'e']
  | false => ['f', 'a', 'l', 's', 'e']

/-- A double-quoted string with the given inside. -/
def interpolatedText (inside : List Char) : List Char :=
  '"' :: (inside ++ ['"'])

/-- A list with the given items. -/
def listText (items : List (List Char)) : List Char :=
  '[' :: (Text.join [',', ' '] items ++ [']'])

/-- A map with the given entries. -/
def mapText : List (List Char) → List Char
  | [] => ['\x7b', '\x7d']
  | entries => '\x7b' :: ' ' :: (Text.join [',', ' '] entries ++ [' ', '\x7d'])

/-- A reference to a variable. -/
def varText (path : List String) : List Char :=
  '$' :: '(' :: (pathText path ++ [')'])

/-- A reference to resources; the name carries the blank before it. -/
def refText (type : String) (name : List Char) (path : List String) : List Char :=
  '$' :: '(' :: (type.toList ++ name ++
    (if path.isEmpty then [] else ' ' :: '|' :: ' ' :: pathText path) ++ [')'])

/-- Two operands around an operator. -/
def binaryText (op : Operator) (left right : List Char) : List Char :=
  left ++ ' ' :: (op.symbol.toList ++ ' ' :: right)

/-- `key: value`. -/
def pairText (key : String) (value : List Char) : List Char :=
  keyText key ++ ':' :: ' ' :: value

mutual

/-- A tree on one line, as a value. -/
def Node.inline : Node → List Char
  | .null => ['n', 'u', 'l', 'l']
  | .bool b => boolText b
  | .number x => Decimal.write Decimal.plain x
  | .text s => quotedText s.toList
  | .interpolated parts => interpolatedText (partsText parts)
  | .list items => listText (inlines items)
  | .map entries => mapText (entriesText entries)
  | .var path _ => varText path
  | .ref type name path _ => refText type (nameText name) path
  | .binary op left right =>
    binaryText op (operandText op false left left.inline) (operandText op true right right.inline)
  | .pair ⟨key, value, _⟩ => pairText key value.inline
  | .resource type name body _ => resourceText 0 type (wordOr name name.inline) (statements 1 body)
  | .block key body _ => blockText 0 key (statements 1 body)
  | .directive d => d.lines 0

/-- Trees on one line each. -/
def inlines : List Node → List (List Char)
  | [] => []
  | node :: rest => node.inline :: inlines rest

/-- Trees as arguments: words where they read back. -/
def words : List Node → List (List Char)
  | [] => []
  | node :: rest => wordOr node node.inline :: words rest

/-- The inside of a double-quoted string. -/
def partsText : List Node → List Char
  | [] => []
  | .text s :: rest => escapedPart s.toList ++ partsText rest
  | node :: rest => node.inline ++ partsText rest

/-- The name in a reference, with the blank before it. -/
def nameText : Option Node → List Char
  | none => []
  | some name => ' ' :: wordOr name name.inline

/-- The entries of a map. -/
def entriesText : List Entry → List (List Char)
  | [] => []
  | ⟨key, value, _⟩ :: rest => pairText key value.inline :: entriesText rest

/-- The options of a directive. -/
def clausesText : List Clause → List Char
  | [] => []
  | ⟨name, arguments⟩ :: rest =>
    ' ' :: '-' :: (name.toList ++ argumentsText (words arguments) ++ clausesText rest)

/-- A directive on lines of its own. -/
def Directive.lines (depth : Nat) : Directive → List Char
  | ⟨name, arguments, clauses, bodyless, body, branches, _⟩ =>
    directiveText depth name bodyless (argumentsText (words arguments) ++ clausesText clauses)
      (statements (depth + 1) body) (branchesText depth branches)

/-- The branches of a directive. -/
def branchesText (depth : Nat) : List Branch → List Char
  | [] => []
  | ⟨name, arguments, body, _⟩ :: rest =>
    branchText depth name (!arguments.isEmpty) (argumentsText (words arguments))
      (statements (depth + 1) body) ++ branchesText depth rest

/-- A tree as a statement at some depth.  A statement ends its line; a mere value does not. -/
def Node.lines (depth : Nat) : Node → List Char
  | .pair ⟨key, value, _⟩ => indent depth ++ pairText key value.inline ++ ['\n']
  | .resource type name body _ =>
    resourceText depth type (wordOr name name.inline) (statements (depth + 1) body)
  | .block key body _ => blockText depth key (statements (depth + 1) body)
  | .directive d => d.lines depth
  | .null => indent depth ++ ['n', 'u', 'l', 'l']
  | .bool b => indent depth ++ boolText b
  | .number x => indent depth ++ Decimal.write Decimal.plain x
  | .text s => indent depth ++ quotedText s.toList
  | .interpolated parts => indent depth ++ interpolatedText (partsText parts)
  | .list items => indent depth ++ listText (inlines items)
  | .map entries => indent depth ++ mapText (entriesText entries)
  | .var path _ => indent depth ++ varText path
  | .ref type name path _ => indent depth ++ refText type (nameText name) path
  | .binary op left right =>
    indent depth ++
      binaryText op (operandText op false left left.inline) (operandText op true right right.inline)

/-- Statements one after another. -/
def statements (depth : Nat) : List Node → List Char
  | [] => []
  | node :: rest => node.lines depth ++ statements depth rest

end

namespace Node

/-- The canonical text of a tree. -/
def print (node : Node) : String :=
  String.ofList (node.lines 0)

end Node

/-- The canonical text of a file. -/
def SourceFile.print (file : SourceFile) : String :=
  String.ofList (statements 0 file.body)

end Provision.Language

import Provision.Decimal
import Provision.Language.Cursor

/-!
# Parsing

A recursive-descent parser.  Every function takes a number of steps it may
still nest; `parse` starts it with a number that the text cannot exhaust, as
each nested call either reads a character or moves down a fixed chain of rules.
-/

namespace Provision.Language

/-- The first place at which a text breaks the grammar, and how. -/
structure ParseError where
  span : Span
  message : String
deriving DecidableEq, Repr

/-- The wording of a parse error. -/
def ParseError.text (e : ParseError) : String :=
  e.span.text ++ ": " ++ e.message

namespace Cursor

/-- An error at a cursor. -/
def fail {α : Type} (file : String) (c : Cursor) (message : String) : Except ParseError α :=
  .error ⟨c.span file, message⟩

/-- The error of a cursor at which something else was expected. -/
def unexpected {α : Type} (file : String) (c : Cursor) (expected : String) : Except ParseError α :=
  match c.peek with
  | some '\n' => c.fail file ("expected " ++ expected ++ ", found end of line")
  | some ch => c.fail file ("expected " ++ expected ++ ", found `" ++ ch.toString ++ "`")
  | none => c.fail file ("expected " ++ expected ++ ", found end of file")

/-- Reads the given character. -/
def expect (file : String) (c : Cursor) (ch : Char) : Except ParseError Cursor :=
  if c.sees ch then .ok c.step else c.unexpected file ("`" ++ ch.toString ++ "`")

/-- Reads a word. -/
def expectWord (file : String) (c : Cursor) (what : String) : Except ParseError (List Char × Cursor) :=
  if c.word.isEmpty then c.unexpected file what else .ok (c.word, c.advance c.word.length)

/-- Reads to the end of the line and over it. -/
def expectLineEnd (file : String) (c : Cursor) : Except ParseError Cursor :=
  let c := c.skipInline
  if c.atLineEnd then .ok c.step else c.unexpected file "end of line"

end Cursor

/-! ## Lexical rules -/

/-- A failure inside a string: how many characters were read before it, and what it is. -/
abbrev Fault := Nat × String

/-- The character that an escape stands for; `quotes` may be escaped besides the fixed ones. -/
def escape? (quotes : List Char) (c : Char) : Option Char :=
  if c = 'n' then some '\n'
  else if c = 't' then some '\t'
  else if c = '\\' then some '\\'
  else if c ∈ quotes then some c
  else none

/-- The message for an escape that stands for nothing. -/
def unknownEscape (c : Char) : String :=
  "unknown escape `\\" ++ c.toString ++ "`"

/-- Reads a single-quoted string behind its opening quote: the characters it stands for and how
many were read. -/
def singleQuoted : List Char → Except Fault (List Char × Nat)
  | [] => .error (0, "unterminated string")
  | '\n' :: _ => .error (0, "unterminated string")
  | '\'' :: _ => .ok ([], 1)
  | '\\' :: [] => .error (1, "unterminated escape")
  | '\\' :: c :: rest =>
    match escape? ['\''] c with
    | none => .error (2, unknownEscape c)
    | some ch =>
      match singleQuoted rest with
      | .ok (text, n) => .ok (ch :: text, n + 2)
      | .error (n, message) => .error (n + 2, message)
  | c :: rest =>
    match singleQuoted rest with
    | .ok (text, n) => .ok (c :: text, n + 1)
    | .error (n, message) => .error (n + 1, message)

/-- Reads the literal part of a double-quoted string up to the closing quote or to `$(`. -/
def literalPart : List Char → Except Fault (List Char × Nat)
  | [] => .error (0, "unterminated string")
  | '\n' :: _ => .error (0, "unterminated string")
  | '"' :: _ => .ok ([], 0)
  | '$' :: '(' :: _ => .ok ([], 0)
  | '\\' :: [] => .error (1, "unterminated escape")
  | '\\' :: c :: rest =>
    match escape? ['"', '$'] c with
    | none => .error (2, unknownEscape c)
    | some ch =>
      match literalPart rest with
      | .ok (text, n) => .ok (ch :: text, n + 2)
      | .error (n, message) => .error (n + 2, message)
  | c :: rest =>
    match literalPart rest with
    | .ok (text, n) => .ok (c :: text, n + 1)
    | .error (n, message) => .error (n + 1, message)

/-- The value of a lexical rule applied at a cursor, or its failure at the place it occurs. -/
def lexeme {α : Type} (file : String) (c : Cursor) : Except Fault (α × Nat) → Except ParseError (α × Cursor)
  | .ok (value, n) => .ok (value, c.advance n)
  | .error (n, message) => (c.advance n).fail file message

/-- The digits that open a text. -/
def digitRun (text : List Char) : List Char :=
  text.takeWhile Char.isDigit

/-- Whether a text starts with a number: a digit, or a minus sign and a digit. -/
def startsNumber : List Char → Bool
  | '-' :: c :: _ => c.isDigit
  | c :: _ => c.isDigit
  | [] => false

/-- Reads a number: sign, digits, and digits behind a point. -/
def number (text : List Char) : Float × Nat :=
  let negative := text.head? == some '-'
  let body := if negative then text.tail else text
  let whole := digitRun body
  let afterWhole := body.drop whole.length
  let fraction :=
    match afterWhole with
    | '.' :: rest => digitRun rest
    | _ => []
  let sign := if negative then 1 else 0
  let behind := if fraction.isEmpty then 0 else fraction.length + 1
  (Decimal.ofDigits negative whole fraction 0, sign + whole.length + behind)

/-- What a bare word stands for. -/
def wordNode (word : List Char) : Node :=
  if word = ['t', 'r', 'u', 'e'] then .bool true
  else if word = ['f', 'a', 'l', 's', 'e'] then .bool false
  else if word = ['n', 'u', 'l', 'l'] then .null
  else .text (String.ofList word)

/-- The operator that opens a text and its length.  A minus sign before a letter opens an option. -/
def operator? (text : List Char) : Option (Operator × Nat) :=
  match text with
  | '=' :: '=' :: _ => some (.eq, 2)
  | '!' :: '=' :: _ => some (.ne, 2)
  | '<' :: '=' :: _ => some (.le, 2)
  | '>' :: '=' :: _ => some (.ge, 2)
  | '<' :: _ => some (.lt, 1)
  | '>' :: _ => some (.gt, 1)
  | '+' :: _ => some (.add, 1)
  | '*' :: _ => some (.mul, 1)
  | '/' :: _ => some (.div, 1)
  | '-' :: c :: _ => if c.isAlpha then none else some (.sub, 1)
  | ['-'] => some (.sub, 1)
  | _ =>
    if startsWithKeyword ['a', 'n', 'd'] text then some (.and, 3)
    else if startsWithKeyword ['o', 'r'] text then some (.or, 2)
    else none

/-- Whether an option such as `-in` opens a text. -/
def startsOption : List Char → Bool
  | '-' :: c :: _ => c.isAlpha
  | _ => false

/-- The segments of a word between its dots. -/
def segments (word : List Char) : List String :=
  (Text.split '.' word).map String.ofList

/-- How the statements of a body end. -/
inductive Ending where
  | eof
  | closed
  | orElse
deriving DecidableEq, Repr

/-- The node of a double-quoted string with the given parts. -/
def interpolation : List Node → Node
  | [] => .text ""
  | [.text s] => .text s
  | parts => .interpolated parts

/-! ## Grammar -/

/-- The error of a parse that nests more deeply than it was allowed to. -/
def tooDeep {α : Type} (file : String) (c : Cursor) : Except ParseError α :=
  c.fail file "nested too deeply"

section Grammar

variable (file : String)

mutual

/-- An expression whose operators bind at least as strongly as `least`. -/
def binary : Nat → Nat → Cursor → Except ParseError (Node × Cursor)
  | 0, _, c => tooDeep file c
  | n + 1, least, c => do
    let (left, c) ← primary n c
    operators n least left c

/-- The operators and right operands that follow a left operand. -/
def operators : Nat → Nat → Node → Cursor → Except ParseError (Node × Cursor)
  | 0, _, _, c => tooDeep file c
  | n + 1, least, left, c =>
    match operator? c.skipInline.rest with
    | none => .ok (left, c)
    | some (op, length) =>
      if op.precedence < least then .ok (left, c)
      else do
        let (right, c) ← binary n (op.precedence + 1) (c.skipInline.advance length).skipBlank
        operators n least (.binary op left right) c

/-- An expression without operators around it. -/
def primary : Nat → Cursor → Except ParseError (Node × Cursor)
  | 0, c => tooDeep file c
  | n + 1, c =>
    match c.rest with
    | '\'' :: rest => do
      let (s, c) ← lexeme file c.step (singleQuoted rest)
      .ok (.text (String.ofList s), c)
    | '"' :: _ => do
      let (parts, c) ← stringParts n c.step
      .ok (interpolation parts, c)
    | '[' :: _ => do
      let (items, c) ← listItems n c.step
      .ok (.list items, c)
    | '\x7b' :: _ => do
      let (entries, c) ← mapEntries n c.step
      .ok (.map entries, c)
    | '(' :: _ => do
      let (inner, c) ← binary n 1 c.step.skipBlank
      let c ← c.skipBlank.expect file ')'
      .ok (inner, c)
    | text =>
      if ['$', '('].isPrefixOf text then reference n c
      else if startsNumber text then
        let (x, length) := number text
        .ok (.number x, c.advance length)
      else do
        let (word, c) ← c.expectWord file "a value"
        .ok (wordNode word, c)

/-- The parts of a double-quoted string behind its opening quote. -/
def stringParts : Nat → Cursor → Except ParseError (List Node × Cursor)
  | 0, c => tooDeep file c
  | n + 1, c => do
    let (s, c) ← lexeme file c (literalPart c.rest)
    let lead := if s.isEmpty then [] else [Node.text (String.ofList s)]
    if c.sees '"' then .ok (lead, c.step)
    else do
      let (part, c) ← reference n c
      let (parts, c) ← stringParts n c
      .ok (lead ++ part :: parts, c)

/-- The items of a list behind its opening bracket. -/
def listItems : Nat → Cursor → Except ParseError (List Node × Cursor)
  | 0, c => tooDeep file c
  | n + 1, c =>
    let c := c.skipBlank
    if c.sees ']' then .ok ([], c.step)
    else do
      let (item, c) ← binary n 1 c
      let c := c.skipBlank
      if c.sees ',' || c.sees ']' then do
        let (items, c) ← listItems n (c.pass ',')
        .ok (item :: items, c)
      else c.unexpected file "`,` or `]`"

/-- The entries of a map behind its opening brace. -/
def mapEntries : Nat → Cursor → Except ParseError (List Entry × Cursor)
  | 0, c => tooDeep file c
  | n + 1, c =>
    let c := c.skipBlank
    if c.sees '\x7d' then .ok ([], c.step)
    else do
      let span := c.span file
      let (key, c) ←
        if c.sees '\'' || c.sees '"' then stringKey n c
        else do
          let (word, c) ← c.expectWord file "a map key"
          .ok (String.ofList word, c)
      let c ← c.skipInline.expect file ':'
      let (value, c) ← binary n 1 c.skipBlank
      let c := c.skipBlank
      if c.sees ',' || c.sees '\x7d' then do
        let (entries, c) ← mapEntries n (c.pass ',')
        .ok (⟨key, value, span⟩ :: entries, c)
      else c.unexpected file "`,` or `\x7d`"

/-- A key in quotes. -/
def stringKey : Nat → Cursor → Except ParseError (String × Cursor)
  | 0, c => tooDeep file c
  | n + 1, c => do
    let (node, c) ← primary n c
    match node with
    | .text s => .ok (s, c)
    | _ => c.fail file "keys cannot be interpolated"

/-- A reference, from its dollar sign on. -/
def reference : Nat → Cursor → Except ParseError (Node × Cursor)
  | 0, c => tooDeep file c
  | n + 1, start => do
    let span := start.span file
    let (head, c) ← (start.advance 2).skipInline.expectWord file "a reference"
    if [':', ':'].isPrefixOf c.rest then do
      let (kind, c) ← (c.advance 2).expectWord file "a resource kind"
      let c := c.skipInline
      let (name, c) ←
        if c.sees ')' || c.sees '|' then .ok (none, c)
        else do
          let (name, c) ← primary n c
          .ok (some name, c)
      let c := c.skipInline
      let (path, c) ←
        if c.sees '|' then do
          let (word, c) ← c.step.skipInline.expectWord file "an attribute name"
          .ok (segments word, c)
        else .ok ([], c)
      let c ← c.skipInline.expect file ')'
      .ok (.ref (String.ofList (head ++ [':', ':'] ++ kind)) name path span, c)
    else do
      let c ← c.skipInline.expect file ')'
      .ok (.var (segments head) span, c)

end

/-- The arguments and options of a directive, up to the end of the line. -/
def clauses : Nat → Cursor → Except ParseError ((List Node × List Clause) × Cursor)
  | 0, c => tooDeep file c
  | n + 1, c =>
    let c := c.skipInline
    if c.atLineEnd then .ok (([], []), c)
    else if startsOption c.rest then do
      let (name, c) ← c.step.expectWord file "an option name"
      let ((arguments, options), c) ← clauses n c
      .ok (([], ⟨String.ofList name, arguments⟩ :: options), c)
    else if c.atKeyword ['i', 'n'] then do
      let ((arguments, options), c) ← clauses n (c.advance 2)
      .ok (([], ⟨"in", arguments⟩ :: options), c)
    else do
      let (value, c) ← binary file n 1 c
      let ((arguments, options), c) ← clauses n (c.skipInline.pass ',')
      .ok ((value :: arguments, options), c)

/-- The value of a pair behind its colon. -/
def pairValue (n : Nat) (key : String) (span : Span) (c : Cursor) : Except ParseError (Node × Cursor) := do
  let (value, c) ← binary file n 1 c.skipInline
  let c ← c.expectLineEnd file
  .ok (.pair ⟨key, value, span⟩, c)

/-- The guard of an `@else` branch: the arguments behind `if`, or none. -/
def guardOf (n : Nat) (c : Cursor) : Except ParseError (List Node × Cursor) :=
  if c.atKeyword ['i', 'f'] then do
    let ((arguments, _), c) ← clauses file n (c.advance 2)
    .ok (arguments, c)
  else .ok ([], c)

mutual

/-- Statements up to an end marker or the end of the text. -/
def body : Nat → Bool → Cursor → Except ParseError ((List Node × Ending) × Cursor)
  | 0, _, c => tooDeep file c
  | n + 1, allowElse, c =>
    let c := c.skipBlank
    if c.peek == none then .ok (([], .eof), c)
    else if c.atKeyword ['@', 'e', 'n', 'd'] then do
      let c ← (c.advance 4).expectLineEnd file
      .ok (([], .closed), c)
    else if c.atKeyword ['e', 'n', 'd'] then do
      let c ← (c.advance 3).expectLineEnd file
      .ok (([], .closed), c)
    else if c.atKeyword ['@', 'e', 'l', 's', 'e'] then
      if allowElse then .ok (([], .orElse), c.advance 5)
      else c.fail file "`@else` outside of an `@if` block"
    else do
      let (node, c) ← statement n c
      let ((nodes, ending), c) ← body n allowElse c
      .ok ((node :: nodes, ending), c)

/-- A body that has to be closed. -/
def blockBody : Nat → String → Cursor → Except ParseError (List Node × Cursor)
  | 0, _, c => tooDeep file c
  | n + 1, what, c => do
    let ((nodes, ending), c) ← body n false c
    if ending = .closed then .ok (nodes, c) else c.fail file ("unterminated " ++ what)

/-- One statement. -/
def statement : Nat → Cursor → Except ParseError (Node × Cursor)
  | 0, c => tooDeep file c
  | n + 1, c =>
    let span := c.span file
    if c.sees '@' then directive n span c.step
    else if c.sees '\'' || c.sees '"' then do
      let (key, c) ← stringKey file n c
      let c ← c.skipInline.expect file ':'
      pairValue file n key span c
    else if (c.peek.any fun ch => ch.isAlpha || ch == '_') then do
      let (head, c) ← c.expectWord file "a key or resource type"
      if [':', ':'].isPrefixOf c.rest then do
        let (kind, c) ← (c.advance 2).expectWord file "a resource kind"
        resource n (String.ofList (head ++ [':', ':'] ++ kind)) span c
      else
        let c := c.skipInline
        if c.sees ':' then pairValue file n (String.ofList head) span c.step
        else do
          let c ← c.expectLineEnd file
          let (nodes, c) ← blockBody n ("block `" ++ String.ofList head ++ "`") c
          .ok (.block (String.ofList head) nodes span, c)
    else c.unexpected file "a statement"

/-- A resource block behind its type. -/
def resource : Nat → String → Span → Cursor → Except ParseError (Node × Cursor)
  | 0, _, _, c => tooDeep file c
  | n + 1, type, span, c =>
    let c := c.skipInline
    if c.atLineEnd then c.fail file ("resource `" ++ type ++ "` needs a name")
    else do
      let (name, c) ← primary file n c
      let c ← c.expectLineEnd file
      let (nodes, c) ← blockBody n ("resource `" ++ type ++ "`") c
      .ok (.resource type name nodes span, c)

/-- A directive behind its at sign. -/
def directive : Nat → Span → Cursor → Except ParseError (Node × Cursor)
  | 0, _, c => tooDeep file c
  | n + 1, span, c => do
    let (word, c) ← c.expectWord file "a directive name"
    let name := String.ofList word
    let bodyless := c.sees ':'
    let ((arguments, options), c) ← clauses file n (c.pass ':')
    let c ← c.expectLineEnd file
    if bodyless then .ok (.directive ⟨name, arguments, options, true, [], [], span⟩, c)
    else do
      let ((nodes, ending), c) ← body n (name == "if") c
      let (branches, c) ← elseBranches n name ending c
      .ok (.directive ⟨name, arguments, options, false, nodes, branches, span⟩, c)

/-- The `@else` branches of a directive whose body, or last branch, ended so. -/
def elseBranches : Nat → String → Ending → Cursor → Except ParseError (List Branch × Cursor)
  | 0, _, _, c => tooDeep file c
  | n + 1, name, ending, c =>
    match ending with
    | .closed => .ok ([], c)
    | .eof => c.fail file ("unterminated directive `@" ++ name ++ "`")
    | .orElse => do
      let span := c.span file
      let (arguments, c) ← guardOf file n c.skipInline
      let c ← c.expectLineEnd file
      let ((nodes, next), c) ← body n true c
      let (branches, c) ← elseBranches n name next c
      .ok (⟨"else", arguments, nodes, span⟩ :: branches, c)

end

end Grammar

/-- How deeply the parse of a text can nest. -/
def nestingBound (text : List Char) : Nat :=
  12 * (text.length + 1)

/-- Parses the text of a file. -/
def parseChars (file : String) (text : List Char) : Except ParseError (List Node) := do
  let ((nodes, ending), c) ← body file (nestingBound text) false (Cursor.start text)
  if ending = .eof then .ok nodes else c.fail file "`end` without a matching block"

/-- Parses a configuration or state file. -/
def parse (path source : String) : Except ParseError SourceFile := do
  .ok ⟨path, ← parseChars path source.toList⟩

end Provision.Language

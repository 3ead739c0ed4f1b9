import Provision.Language.Node

/-!
# Reading positions

A cursor is the rest of a text together with the line and column of its first
character.  The lexical rules of the language are functions on lists of
characters that say how much of the text they take; the cursor only moves.
-/

namespace Provision.Language

/-- The characters that make up words. -/
def isWordChar (c : Char) : Bool :=
  c.isAlphanum || c == '_' || c == '-' || c == '.' || c == '/' || c == '*'

/-- A blank that does not end a line. -/
def isInlineBlank (c : Char) : Bool :=
  c == ' ' || c == '\t' || c == '\r'

/-- How many characters of blanks and comments open a text.  A line break is passed over only when
`acrossLines` is set; a comment runs up to the line break. -/
def skipLength (acrossLines : Bool) : (inComment : Bool) → List Char → Nat
  | _, [] => 0
  | true, c :: rest =>
    if c = '\n' then if acrossLines then skipLength acrossLines false rest + 1 else 0
    else skipLength acrossLines true rest + 1
  | false, c :: rest =>
    if isInlineBlank c then skipLength acrossLines false rest + 1
    else if c = '\n' then if acrossLines then skipLength acrossLines false rest + 1 else 0
    else if c = '#' then skipLength acrossLines true rest + 1
    else 0

/-- Whether a text starts with `keyword` and no word or colon goes on behind it. -/
def startsWithKeyword (keyword text : List Char) : Bool :=
  keyword.isPrefixOf text &&
    match (text.drop keyword.length).head? with
    | some c => !(isWordChar c || c == ':')
    | none => true

/-- The rest of a text and the place where it starts. -/
structure Cursor where
  rest : List Char
  line : Nat
  column : Nat
deriving Repr

namespace Cursor

/-- The cursor at the start of a text. -/
def start (text : List Char) : Cursor := ⟨text, 1, 1⟩

/-- Moves over one character; a line break starts a new line. -/
def step (c : Cursor) : Cursor :=
  match c.rest with
  | [] => c
  | '\n' :: rest => ⟨rest, c.line + 1, 1⟩
  | _ :: rest => ⟨rest, c.line, c.column + 1⟩

/-- Moves over several characters. -/
def advance : Nat → Cursor → Cursor
  | 0, c => c
  | n + 1, c => advance n c.step

/-- The next character. -/
def peek (c : Cursor) : Option Char :=
  c.rest.head?

/-- The character after the next one. -/
def peekSecond (c : Cursor) : Option Char :=
  c.rest.tail.head?

/-- Whether the given character comes next. -/
def sees (c : Cursor) (ch : Char) : Bool :=
  c.peek == some ch

/-- Moves over the given character when it comes next. -/
def pass (c : Cursor) (ch : Char) : Cursor :=
  if c.sees ch then c.step else c

/-- Whether the given keyword comes next. -/
def atKeyword (c : Cursor) (keyword : List Char) : Bool :=
  startsWithKeyword keyword c.rest

/-- Moves over blanks and comments on this line. -/
def skipInline (c : Cursor) : Cursor :=
  c.advance (skipLength false false c.rest)

/-- Moves over blanks, comments and line breaks. -/
def skipBlank (c : Cursor) : Cursor :=
  c.advance (skipLength true false c.rest)

/-- Whether the line, or the text, ends here. -/
def atLineEnd (c : Cursor) : Bool :=
  c.peek == none || c.peek == some '\n'

/-- The word that comes next; it may be empty. -/
def word (c : Cursor) : List Char :=
  c.rest.takeWhile isWordChar

/-- The place of a cursor in a file. -/
def span (file : String) (c : Cursor) : Span := ⟨file, c.line, c.column⟩

@[simp] theorem advance_zero (c : Cursor) : c.advance 0 = c := rfl

@[simp] theorem advance_succ (n : Nat) (c : Cursor) : c.advance (n + 1) = c.step.advance n := rfl

@[simp] theorem rest_step (c : Cursor) : c.step.rest = c.rest.tail := by
  unfold step
  split <;> simp_all

@[simp] theorem rest_advance (n : Nat) (c : Cursor) : (c.advance n).rest = c.rest.drop n := by
  induction n generalizing c with
  | zero => simp
  | succ n ih => simp [ih]

theorem advance_add (m n : Nat) (c : Cursor) : c.advance (m + n) = (c.advance m).advance n := by
  induction m generalizing c with
  | zero => simp
  | succ m ih => rw [Nat.succ_add, advance_succ, ih, advance_succ]

end Cursor

end Provision.Language

import Provision.Text

/-!
# Paths

A path keeps the text it was given.  What it means is its list of components:
empty segments and single dots are dropped, except a dot at the very start of a
relative path.  Two paths are the same when their components are.
-/

namespace Provision

/-- A path as it was written. -/
structure Path where
  text : String
deriving DecidableEq, Repr, Inhabited

namespace Path

/-- A step of a path. -/
inductive Component where
  | root
  | here
  | up
  | name (segment : List Char)
deriving DecidableEq, Repr

/-- The component that a segment stands for, behind the first one. -/
def component? (segment : List Char) : Option Component :=
  if segment = [] ∨ segment = ['.'] then none
  else if segment = ['.', '.'] then some .up
  else some (.name segment)

/-- The components of a list of segments of a relative path. -/
def ofSegments : List (List Char) → List Component
  | ['.'] :: rest => .here :: rest.filterMap component?
  | segments => segments.filterMap component?

/-- The components of a text. -/
def componentsOf : List Char → List Component
  | '/' :: rest => .root :: (Text.split '/' rest).filterMap component?
  | text => ofSegments (Text.split '/' text)

/-- The components of a path. -/
def components (path : Path) : List Component :=
  componentsOf path.text.toList

/-- Whether two paths have the same components. -/
def same (a b : Path) : Bool :=
  a.components = b.components

/-- Whether a path starts at the root. -/
def isAbsolute (path : Path) : Bool :=
  path.text.toList.head? == some '/'

/-- The text of a component other than the root. -/
def Component.text : Component → List Char
  | root => []
  | here => ['.']
  | up => ['.', '.']
  | name segment => segment

/-- The text of a list of components. -/
def textOf : List Component → List Char
  | .root :: rest => '/' :: Text.join ['/'] (rest.map Component.text)
  | parts => Text.join ['/'] (parts.map Component.text)

/-- The path with the given components. -/
def ofComponents (parts : List Component) : Path :=
  ⟨String.ofList (textOf parts)⟩

/-- The path without its last component; the root and the empty path have none. -/
def parent? (path : Path) : Option Path :=
  match path.components.reverse with
  | [] => none
  | .root :: _ => none
  | _ :: front => some (ofComponents front.reverse)

/-- Drops slashes and single dots at the end of a text that is read backwards. -/
def dropSlashes : List Char → List Char
  | ['/'] => ['/']
  | '/' :: rest => dropSlashes rest
  | '.' :: '/' :: rest => dropSlashes ('/' :: rest)
  | text => text

/-- The path without its last component, spelled as it was; the root and the empty path have none. -/
def above? (path : Path) : Option Path :=
  let text := dropSlashes path.text.toList.reverse
  if text = [] ∨ text = ['/'] then none
  else some ⟨String.ofList (dropSlashes (text.dropWhile (· ≠ '/'))).reverse⟩

/-- The directory of a path, empty when it has none. -/
def directory (path : Path) : Path :=
  path.parent?.getD ⟨""⟩

/-- The last component, when it is a name. -/
def fileName? (path : Path) : Option (List Char) :=
  match path.components.getLast? with
  | some (.name segment) => some segment
  | _ => none

/-- `path` as seen from the directory `base`; an absolute path stays as it is. -/
def joined (base path : Path) : Path :=
  if path.isAbsolute then path
  else
    let front := base.text.toList
    if front = [] ∨ front.getLast? = some '/' then ⟨String.ofList (front ++ path.text.toList)⟩
    else ⟨String.ofList (front ++ '/' :: path.text.toList)⟩

/-- Takes components one by one: a name goes on top, `..` takes the top name away, a dot does
nothing, and the root starts anew. -/
def resolve (stack : List Component) : Component → List Component
  | .root => [.root]
  | .here => stack
  | .name segment => stack ++ [.name segment]
  | .up =>
    match stack.getLast? with
    | none => stack
    | some .root => stack
    | some _ => stack.dropLast

/-- The components left when dots are resolved without a look at any file. -/
def normalComponents (parts : List Component) : List Component :=
  parts.foldl resolve []

/-- The path with dots resolved; `..` never climbs above the start. -/
def normalize (path : Path) : Path :=
  ofComponents (normalComponents path.components)

/-- How many leading components two lists share. -/
def sharedLength : List Component → List Component → Nat
  | a :: as, b :: bs => if a = b then sharedLength as bs + 1 else 0
  | _, _ => 0

/-- `target` as seen from the directory `base`; unchanged when they have no start in common. -/
def relativeTo (base target : Path) : Path :=
  let start := base.components
  let goal := target.components
  let shared := sharedLength start goal
  if shared = 0 ∧ start.head? ≠ goal.head? then target
  else ofComponents (List.replicate (start.length - shared) Component.up ++ goal.drop shared)

/-- Whether a list holds a path with the same components. -/
def isIn (path : Path) (paths : List Path) : Bool :=
  paths.any (same path)

end Path

end Provision

import Provision.Json

/-!
# What a text says

A text may keep to the grammar of documents in every part and yet not stand for
a document as a whole: a number may be too large, a string may hold half of a
character, an array may lie too deep.  Such parts are illegible.  They matter
only to a reader who needs them; the others pass them over.
-/

namespace Provision.Json

/-- What a text says.  The names of members may be illegible as well. -/
inductive Reading where
  | null
  | bool (b : Bool)
  | natural (n : Nat)
  | number (x : Float)
  | string (s : String)
  | array (items : List Reading)
  | object (members : List (Option String × Reading))
  | illegible
deriving Inhabited

namespace Reading

mutual

/-- The document that was read, if all of it is legible. -/
def document? : Reading → Option Json
  | null => some .null
  | bool b => some (.bool b)
  | natural n => some (.natural n)
  | number x => some (.number x)
  | string s => some (.string s)
  | array items => (itemDocuments? items).map .array
  | object members => (memberDocuments? members).map .object
  | illegible => none

/-- The items of an array, if they are all legible. -/
def itemDocuments? : List Reading → Option (List Json)
  | [] => some []
  | item :: rest => do
    let item ← item.document?
    let items ← itemDocuments? rest
    some (item :: items)

/-- The members of an object, if they are all legible. -/
def memberDocuments? : List (Option String × Reading) → Option (List (String × Json))
  | [] => some []
  | (name, item) :: rest => do
    let name ← name
    let item ← item.document?
    let members ← memberDocuments? rest
    some ((name, item) :: members)

end

end Reading

end Provision.Json

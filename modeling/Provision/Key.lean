import Provision.Text
import Provision.Sorted

/-!
# Names of types and resources

A type name is `namespace::kind`; a key is a type name with a resource name.
Both have a text form that can be read back.
-/

namespace Provision

/-- Why a text names no type or no resource. -/
inductive NameError where
  | invalidTypeName (text : String)
  | emptyResourceName
deriving DecidableEq, Repr

/-- The wording of a naming error. -/
def NameError.message : NameError → String
  | .invalidTypeName text => "resource type must look like namespace::kind, got \"" ++ text ++ "\""
  | .emptyResourceName => "resource name must not be empty"

/-- A character of either half of a type name. -/
def isTypeNameChar (c : Char) : Bool :=
  c.isAlphanum || c == '-' || c == '_'

/-- Whether a text can be one half of a type name. -/
def isTypeSegment (segment : List Char) : Bool :=
  !segment.isEmpty && segment.all isTypeNameChar

/-- Whether the first `::` of a text separates two type segments. -/
def isTypeName (text : String) : Bool :=
  match Text.splitDoubleColon text.toList with
  | some (space, kind) => isTypeSegment space && isTypeSegment kind
  | none => false

/-- A resource type, written `namespace::kind`. -/
structure TypeName where
  text : String
  wellFormed : isTypeName text = true
deriving DecidableEq, Repr

namespace TypeName

/-- The type that a text names. -/
def ofText (text : String) : Except NameError TypeName :=
  if h : isTypeName text = true then .ok ⟨text, h⟩ else .error (.invalidTypeName text)

/-- The half before the `::`. -/
def space (name : TypeName) : String :=
  match Text.splitDoubleColon name.text.toList with
  | some (space, _) => String.ofList space
  | none => ""

/-- The half after the `::`. -/
def kind (name : TypeName) : String :=
  match Text.splitDoubleColon name.text.toList with
  | some (_, kind) => String.ofList kind
  | none => ""

end TypeName

instance : Ranked TypeName where
  before a b := decide (a.text < b.text)

/-- What identifies a resource: its type and its name. -/
structure Key where
  type : TypeName
  name : String
deriving DecidableEq, Repr

namespace Key

/-- The key of a resource whose name is not blank. -/
def make (type : TypeName) (name : String) : Except NameError Key :=
  if isBlankText name then .error .emptyResourceName else .ok ⟨type, name⟩

/-- The text form: type, space, name. -/
def text (key : Key) : String :=
  key.type.text ++ " " ++ key.name

/-- Reads the text form.  Blanks at either end of the text and of the name are dropped. -/
def ofText (text : String) : Except NameError Key :=
  match Text.splitFirst ' ' (Text.trim text.toList) with
  | none => .error .emptyResourceName
  | some (type, name) => do
    make (← TypeName.ofText (String.ofList type)) (String.ofList (Text.trim name))

end Key

instance : Ranked Key where
  before a b := decide (a.type.text < b.type.text) || (decide (a.type = b.type) && decide (a.name < b.name))

end Provision

import Provision.Key
import Provision.Table

/-!
# Resource types

What the engine knows about a type of resource: its fields and which operations
its provider offers.
-/

namespace Provision

/-- What is known about one field of a resource. -/
structure FieldSpec where
  name : String
  /-- Changes apply in place; otherwise a change forces replacement. -/
  updatable : Bool := false
  nullable : Bool := true
  /-- Part of what identifies the resource to its provider. -/
  id : Bool := false
  /-- Computed by the provider, never set in configuration. -/
  output : Bool := false
deriving DecidableEq, Repr

namespace FieldSpec

/-- The field with in-place changes. -/
def asUpdatable (spec : FieldSpec) : FieldSpec := { spec with updatable := true }

/-- The field as one that has to be set. -/
def asRequired (spec : FieldSpec) : FieldSpec := { spec with nullable := false }

/-- The field as part of the identity, which has to be set. -/
def asId (spec : FieldSpec) : FieldSpec := { spec with id := true, nullable := false }

/-- The field as one that the provider computes. -/
def asOutput (spec : FieldSpec) : FieldSpec := { spec with output := true }

end FieldSpec

/-- The fields of a type, in order. -/
abbrev Schema := List FieldSpec

/-- The field with a name. -/
def Schema.field? (schema : Schema) (name : String) : Option FieldSpec :=
  schema.find? fun spec => spec.name = name

/-- The operations that the provider of a type offers. -/
structure Capabilities where
  refresh : Bool := true
  create : Bool := true
  update : Bool := true
  delete : Bool := true
deriving DecidableEq, Repr

/-- A type of resource. -/
structure ResourceType where
  name : TypeName
  schema : Schema
  capabilities : Capabilities := {}
deriving DecidableEq, Repr

end Provision

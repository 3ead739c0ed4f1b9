import Provision.Language.Node
import Provision.Schema
import Provision.Value

/-!
# Resources

A resource with its fields, what it depends on and where it was declared.
-/

namespace Provision

/-- The credentials of a resource that names none. -/
def defaultCredentials : String := "default"

/-- The declaration that a resource was evaluated from, kept so that its body can be evaluated
again right before the change runs. -/
structure Declaration where
  body : List Language.Node
  /-- Every name that was visible outside the body. -/
  bindings : Bindings
  /-- The instance that the declaration was expanded in. -/
  qualifier : Option String
  /-- Dependencies that every resource of the instance has. -/
  inherited : List Key

/-- A resource of an inventory. -/
structure Resource where
  key : Key
  type : ResourceType
  /-- Field values in schema order. -/
  fields : Bindings := []
  /-- The names of the fields set in configuration, sorted. -/
  configured : List String := []
  credentials : String := defaultCredentials
  /-- The keys of the resources it depends on, sorted. -/
  dependsOn : List Key := []
  origin : Span
  declaration : Option Declaration := none

namespace Resource

/-- The value of a field. -/
def field? (resource : Resource) (name : String) : Option Value :=
  Table.get? resource.fields name

/-- Whether a field was set in configuration. -/
def isConfigured (resource : Resource) (name : String) : Bool :=
  resource.configured.contains name

end Resource

end Provision

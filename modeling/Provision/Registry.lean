import Provision.Schema
import Provision.Workflow

/-!
# Registries

The resource types and default workflows known to a run.
-/

namespace Provision

/-- Types in registration order, the namespaces they came with, and default workflows. -/
structure Registry where
  types : Table TypeName ResourceType := []
  namespaces : List String := []
  workflows : List Workflow := []

namespace Registry

/-- Adds a namespace. -/
def addNamespace (registry : Registry) (space : String) : Registry :=
  { registry with namespaces := Sorted.insert space registry.namespaces }

/-- Adds a type, or replaces the type of that name. -/
def addType (registry : Registry) (type : ResourceType) : Registry :=
  { registry.addNamespace type.name.space with types := Table.set registry.types type.name type }

/-- Adds a workflow behind the others. -/
def addWorkflow (registry : Registry) (workflow : Workflow) : Registry :=
  { registry with workflows := registry.workflows ++ [workflow] }

/-- The type with a name. -/
def type? (registry : Registry) (name : TypeName) : Option ResourceType :=
  Table.get? registry.types name

/-- Whether some type or provider brought a namespace. -/
def hasNamespace (registry : Registry) (space : String) : Bool :=
  registry.namespaces.contains space

/-- The first workflow for a type. -/
def workflowFor? (registry : Registry) (type : TypeName) : Option Workflow :=
  registry.workflows.find? fun workflow => workflow.forType = type

end Registry

end Provision

import Provision.Key

/-!
# Workflows

The ordered stages that replace a resource which cannot change in place.
-/

namespace Provision

/-- What a stage does. -/
inductive StageAction where
  | create
  | delete
deriving DecidableEq, Repr

/-- The word for a stage action. -/
def StageAction.text : StageAction → String
  | create => "create"
  | delete => "delete"

/-- One stage of a replacement. -/
structure Stage where
  name : String
  action : StageAction
  description : Option String := none
deriving DecidableEq, Repr

/-- How resources of a type are replaced. -/
structure Workflow where
  name : String
  forType : TypeName
  stages : List Stage
deriving DecidableEq, Repr

end Provision

import Provision.Path
import Provision.Value

/-!
# Plans and reports

The changes that lead from the recorded inventory to the pending one, and what
became of each when they were applied.
-/

namespace Provision

/-- What a change does to its resource. -/
inductive ChangeKind where
  | create
  | update
  | replace
  | delete
deriving DecidableEq, Repr

/-- Changes are confirmed and executed one group at a time. -/
inductive ChangeGroup where
  | createOrUpdate
  | replace
  | delete
deriving DecidableEq, Repr

namespace ChangeKind

/-- The group that a change belongs to. -/
def group : ChangeKind → ChangeGroup
  | create | update => .createOrUpdate
  | replace => .replace
  | delete => .delete

/-- The word for a kind of change. -/
def text : ChangeKind → String
  | create => "create"
  | update => "update"
  | replace => "replace"
  | delete => "delete"

end ChangeKind

namespace ChangeGroup

/-- The groups in the order in which they run. -/
def all : List ChangeGroup := [createOrUpdate, replace, delete]

/-- How a group is called. -/
def text : ChangeGroup → String
  | createOrUpdate => "create/update"
  | replace => "replace"
  | delete => "delete"

end ChangeGroup

/-- A field that differs between the two sides. -/
structure FieldChange where
  field : String
  current : Value
  pending : Value
  updatable : Bool

/-- One change of a plan. -/
structure PlannedChange where
  id : Nat
  kind : ChangeKind
  key : Key
  file : Path
  fields : List FieldChange
  workflow : Option String
  hint : Option String

/-- The changes of a run, in the order in which they are to be executed. -/
structure Plan where
  files : List Path := []
  changes : List PlannedChange := []
  unchanged : Nat := 0
  warnings : List String := []
  errors : List String := []

namespace Plan

/-- Whether the plan carries errors. -/
def hasErrors (plan : Plan) : Bool :=
  !plan.errors.isEmpty

/-- Whether there is anything to do. -/
def hasChanges (plan : Plan) : Bool :=
  !plan.changes.isEmpty

/-- The changes of a group, in plan order. -/
def changesIn (plan : Plan) (group : ChangeGroup) : List PlannedChange :=
  plan.changes.filter fun change => change.kind.group = group

end Plan

/-- What became of a change. -/
inductive ChangeStatus where
  | applied
  | failed
  | skipped
  | declined
deriving DecidableEq, Repr

/-- The word for a status. -/
def ChangeStatus.text : ChangeStatus → String
  | applied => "applied"
  | failed => "failed"
  | skipped => "skipped"
  | declined => "declined"

/-- The account of one change after a run. -/
structure ChangeResult where
  changeId : Nat
  kind : ChangeKind
  key : Key
  status : ChangeStatus
  /-- The workflow stages that were completed. -/
  stages : List String
  error : Option String

/-- The account of a run. -/
structure ApplyReport where
  plan : Plan
  results : List ChangeResult
  errors : List String

/-- Whether something failed. -/
def ApplyReport.hasFailures (report : ApplyReport) : Bool :=
  !report.errors.isEmpty || report.results.any fun result => result.status = .failed

end Provision

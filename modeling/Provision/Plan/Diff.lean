import Provision.Graph.Order
import Provision.Inventory
import Provision.Plan

/-!
# Comparing inventories

The plan that leads from the recorded inventory to the pending one: creates and
updates first, then replacements, then deletions.  Within each part a change
comes after those it depends on; deletions run the other way round.
-/

namespace Provision

/-- The resources whose refresh failed, in key order, with the provider's message. -/
abbrev RefreshFailures := Table Key String

/-- Notes a failure at its place in key order. -/
def RefreshFailures.note (key : Key) (message : String) : RefreshFailures → RefreshFailures
  | [] => [(key, message)]
  | (k, m) :: rest =>
    if key = k then (key, message) :: rest
    else if Ranked.before key k then (key, message) :: (k, m) :: rest
    else (k, m) :: note key message rest

/-- The change of one field, when it is compared and its values differ.  Outputs and fields that
neither side configures are not compared. -/
def fieldChange? (pending current : Resource) (spec : FieldSpec) : Option FieldChange :=
  if spec.output || !(pending.isConfigured spec.name || current.isConfigured spec.name) then none
  else
    let wanted := (pending.field? spec.name).getD .null
    let recorded := (current.field? spec.name).getD .null
    if wanted.same recorded then none else some ⟨spec.name, recorded, wanted, spec.updatable⟩

/-- The differences between the two sides of a resource, in schema order. -/
def changedFields (pending current : Resource) : List FieldChange :=
  pending.type.schema.filterMap (fieldChange? pending current)

/-- An update when every changed field can change in place, a replacement otherwise. -/
def classify (fields : List FieldChange) : Option ChangeKind :=
  if fields.isEmpty then none
  else if fields.all FieldChange.updatable then some .update
  else some .replace

/-- A change that has no number yet, with what it depends on. -/
structure Candidate where
  kind : ChangeKind
  key : Key
  file : Path
  fields : List FieldChange
  workflow : Option String
  hint : Option String
  dependsOn : List Key

/-- The field lines of a creation: every value that is set and not an output. -/
def createdFields (resource : Resource) : List FieldChange :=
  resource.fields.filterMap fun entry =>
    match resource.type.schema.field? entry.1 with
    | none => none
    | some spec =>
      if spec.output || entry.2.isNull then none
      else some ⟨entry.1, .null, entry.2, spec.updatable⟩

/-- The hint of a change: a failed refresh, and a missing workflow where one is needed. -/
def hintFor (failure : Option String) (note : Option String) : Option String :=
  let unknown := failure.map fun message => "state unknown, refresh failed: " ++ message
  match unknown, note with
  | some hint, some note => some (hint ++ "; " ++ note)
  | some hint, none => some hint
  | none, note => note

/-- The change that a pending resource needs, if any. -/
def candidate? (pending current : Inventory) (failures : RefreshFailures) (resource : Resource) :
    Option Candidate :=
  let file := (pending.fileOf? resource.key).getD ⟨""⟩
  match current.resource? resource.key with
  | none =>
    some ⟨.create, resource.key, file, createdFields resource, none, none, resource.dependsOn⟩
  | some existing =>
    let fields := changedFields resource existing
    let failure := failures.get? resource.key
    let kind := if failure.isSome then some .replace else classify fields
    kind.map fun kind =>
      if kind = .replace then
        match pending.workflowFor? resource.key.type with
        | some workflow =>
          ⟨kind, resource.key, file, fields, some workflow.name, hintFor failure none,
            resource.dependsOn⟩
        | none =>
          let note := "no workflow replaces `" ++ resource.key.type.text ++ "`; skipped"
          ⟨kind, resource.key, file, fields, none, hintFor failure (some note), resource.dependsOn⟩
      else ⟨kind, resource.key, file, fields, none, hintFor failure none, resource.dependsOn⟩

/-- The deletion of a recorded resource that is no longer pending. -/
def deletion (current : Inventory) (resource : Resource) : Candidate :=
  ⟨.delete, resource.key, (current.fileOf? resource.key).getD ⟨""⟩, [], none, none,
    resource.dependsOn⟩

/-- Candidates in dependency order. -/
def inDependencyOrder (candidates : List Candidate) :
    Except (Graph.OrderError Key) (List Candidate) := do
  let positions ← Graph.order (candidates.map fun c => ⟨c.key, c.dependsOn⟩)
  .ok (positions.filterMap fun position => candidates[position]?)

/-- Gives candidates their numbers. -/
def numberChanges (candidates : List Candidate) : List PlannedChange :=
  candidates.zipIdx.map fun entry =>
    let c := entry.1
    ⟨entry.2 + 1, c.kind, c.key, c.file, c.fields, c.workflow, c.hint⟩

/-- The plan that leads from `current` to `pending`. -/
def diff (pending current : Inventory) (failures : RefreshFailures) :
    Except (Graph.OrderError Key) Plan := do
  let candidates := pending.resources.map (candidate? pending current failures)
  let needed := candidates.filterMap id
  let gone := current.resources.filter fun resource => !pending.has resource.key
  let forward ← inDependencyOrder (needed.filter fun c => c.kind ≠ .replace)
  let replaces ← inDependencyOrder (needed.filter fun c => c.kind = .replace)
  let deletes ← inDependencyOrder (gone.map (deletion current))
  .ok {
    files := pending.files.map FileScope.path
    changes := numberChanges (forward ++ replaces ++ deletes.reverse)
    unchanged := (candidates.filter Option.isNone).length
    warnings := failures.map fun entry => "could not refresh " ++ entry.1.text ++ ": " ++ entry.2
    errors := [] }

end Provision

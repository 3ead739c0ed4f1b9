import Provision.Json.Reader
import Provision.Plan

/-!
# Reports as documents

Plans and apply reports as JSON, and back.  A value is written without a mark of
its kind, so an object in its place always reads as a map.  Members that a report
does not have are passed over, even where they are illegible.
-/

namespace Provision

open Provision.Json (Reading)

namespace Key

/-- A key as an object. -/
def toJson (key : Key) : Json :=
  .object [("type", .string key.type.text), ("name", .string key.name)]

end Key

mutual

/-- A value as a document; numbers that are not finite are written as null. -/
def Value.toJson : Value → Json
  | .null => .null
  | .bool b => .bool b
  | .number x => .number x
  | .text s => .string s
  | .list items => .array (valuesToJson items)
  | .map entries => .object (entriesToJson entries)
  | .resource key => key.toJson

/-- Values as documents. -/
def valuesToJson : List Value → List Json
  | [] => []
  | item :: rest => item.toJson :: valuesToJson rest

/-- Entries as members. -/
def entriesToJson : List (String × Value) → List (String × Json)
  | [] => []
  | (key, item) :: rest => (key, item.toJson) :: entriesToJson rest

end

namespace Report

/-- A text that may be missing. -/
def optional : Option String → Json
  | some s => .string s
  | none => .null

/-- A list of texts. -/
def texts (items : List String) : Json :=
  .array (items.map Json.string)

/-- A change of a field as an object. -/
def fieldChange (change : FieldChange) : Json :=
  .object [("field", .string change.field), ("current", change.current.toJson),
    ("pending", change.pending.toJson), ("updatable", .bool change.updatable)]

/-- A planned change as an object. -/
def plannedChange (change : PlannedChange) : Json :=
  .object [("id", .natural change.id), ("kind", .string change.kind.text), ("key", change.key.toJson),
    ("file", .string change.file.text), ("fields", .array (change.fields.map fieldChange)),
    ("workflow", optional change.workflow), ("hint", optional change.hint)]

/-- A plan as an object. -/
def plan (plan : Plan) : Json :=
  .object [("files", texts (plan.files.map Path.text)),
    ("changes", .array (plan.changes.map plannedChange)), ("unchanged", .natural plan.unchanged),
    ("warnings", texts plan.warnings), ("errors", texts plan.errors)]

/-- The account of a change as an object. -/
def changeResult (result : ChangeResult) : Json :=
  .object [("change_id", .natural result.changeId), ("kind", .string result.kind.text),
    ("key", result.key.toJson), ("status", .string result.status.text),
    ("stages", texts result.stages), ("error", optional result.error)]

/-- The account of a run as an object. -/
def applied (report : ApplyReport) : Json :=
  .object [("plan", plan report.plan), ("results", .array (report.results.map changeResult)),
    ("errors", texts report.errors)]

/-! ## Reading -/

/-- The members of an object under some names, each name at most once; other members are passed
over.  An array stands for an object that lists exactly these members in order. -/
def members? (names : List String) : Reading → Option (Table String Reading)
  | .object members => do
    let named ← members.mapM fun member => member.1.map fun name => (name, member.2)
    let known := named.filter fun member => names.contains member.1
    if (known.map Prod.fst).Nodup then some known else none
  | .array items => if items.length = names.length then some (names.zip items) else none
  | _ => none

/-- A string. -/
def string? : Reading → Option String
  | .string s => some s
  | _ => none

/-- A truth value. -/
def bool? : Reading → Option Bool
  | .bool b => some b
  | _ => none

/-- A natural number. -/
def natural? : Reading → Option Nat
  | .natural n => some n
  | _ => none

/-- An array whose items can all be read. -/
def array? {α : Type} (read : Reading → Option α) : Reading → Option (List α)
  | .array items => items.mapM read
  | _ => none

/-- A string that may be missing or null. -/
def optional? : Option Reading → Option (Option String)
  | none => some none
  | some .null => some none
  | some (.string s) => some (some s)
  | some _ => none

/-- A word, or an object whose only member is that word with null. -/
def word? : Reading → Option String
  | .string s => some s
  | .object [(some s, .null)] => some s
  | _ => none

mutual

/-- A value; every object is a map. -/
def value : Json → Value
  | .null => .null
  | .bool b => .bool b
  | .natural n => .number (Float.ofNat n)
  | .number x => .number x
  | .string s => .text s
  | .array items => .list (values items)
  | .object members => .map (Table.ofPairs (entries members))

/-- The values of the items of an array. -/
def values : List Json → List Value
  | [] => []
  | item :: rest => value item :: values rest

/-- The entries that the members of an object stand for. -/
def entries : List (String × Json) → List (String × Value)
  | [] => []
  | (key, item) :: rest => (key, value item) :: entries rest

end

/-- A value that is legible throughout. -/
def value? (reading : Reading) : Option Value :=
  reading.document?.map value

/-- A key. -/
def key? (reading : Reading) : Option Key := do
  let members ← members? ["type", "name"] reading
  let type ← (TypeName.ofText (← string? (← members.get? "type"))).toOption
  some ⟨type, ← string? (← members.get? "name")⟩

/-- A kind of change. -/
def kind? (reading : Reading) : Option ChangeKind := do
  let word ← word? reading
  [ChangeKind.create, .update, .replace, .delete].find? fun kind => kind.text = word

/-- What became of a change. -/
def status? (reading : Reading) : Option ChangeStatus := do
  let word ← word? reading
  [ChangeStatus.applied, .failed, .skipped, .declined].find? fun status => status.text = word

/-- A change of a field. -/
def fieldChange? (reading : Reading) : Option FieldChange := do
  let members ← members? ["field", "current", "pending", "updatable"] reading
  some ⟨← string? (← members.get? "field"), ← value? (← members.get? "current"),
    ← value? (← members.get? "pending"), ← bool? (← members.get? "updatable")⟩

/-- A planned change. -/
def plannedChange? (reading : Reading) : Option PlannedChange := do
  let members ← members? ["id", "kind", "key", "file", "fields", "workflow", "hint"] reading
  some ⟨← natural? (← members.get? "id"), ← kind? (← members.get? "kind"),
    ← key? (← members.get? "key"), ⟨← string? (← members.get? "file")⟩,
    ← array? fieldChange? (← members.get? "fields"), ← optional? (members.get? "workflow"),
    ← optional? (members.get? "hint")⟩

/-- A plan. -/
def plan? (reading : Reading) : Option Plan := do
  let members ← members? ["files", "changes", "unchanged", "warnings", "errors"] reading
  some ⟨(← array? string? (← members.get? "files")).map Path.mk,
    ← array? plannedChange? (← members.get? "changes"), ← natural? (← members.get? "unchanged"),
    ← array? string? (← members.get? "warnings"), ← array? string? (← members.get? "errors")⟩

/-- The account of a change. -/
def changeResult? (reading : Reading) : Option ChangeResult := do
  let members ← members? ["change_id", "kind", "key", "status", "stages", "error"] reading
  some ⟨← natural? (← members.get? "change_id"), ← kind? (← members.get? "kind"),
    ← key? (← members.get? "key"), ← status? (← members.get? "status"),
    ← array? string? (← members.get? "stages"), ← optional? (members.get? "error")⟩

/-- The account of a run. -/
def applied? (reading : Reading) : Option ApplyReport := do
  let members ← members? ["plan", "results", "errors"] reading
  some ⟨← plan? (← members.get? "plan"), ← array? changeResult? (← members.get? "results"),
    ← array? string? (← members.get? "errors")⟩

/-- The plan that a text holds. -/
def planOfText? (text : String) : Option Plan := do
  plan? (← Json.read? text)

/-- The account of a run that a text holds. -/
def appliedOfText? (text : String) : Option ApplyReport := do
  applied? (← Json.read? text)

end Report

end Provision

import Provision.Apply

/-!
# Resources in memory

A world that keeps the fields of live resources, fills in outputs with texts
that are never used twice, fails where it is told to, and keeps a record of
every call and every save.
-/

namespace Provision

/-- An operation of a provider. -/
inductive Operation where
  | refresh
  | create
  | update
  | delete
deriving DecidableEq, Repr

/-- The word for an operation. -/
def Operation.text : Operation → String
  | refresh => "refresh"
  | create => "create"
  | update => "update"
  | delete => "delete"

/-- The record of a call. -/
structure CallRecord where
  operation : Operation
  key : Key
  credentials : String
  fields : Bindings
  /-- Of an update: the fields before it and the names of those that change. -/
  change : Option (Bindings × List String) := none

/-- Live resources, injected failures and what happened so far. -/
structure Memory where
  live : Table Key Bindings := []
  /-- How many times a resource was stored. -/
  serial : Nat := 0
  failures : Table (Key × Operation) String := []
  calls : List CallRecord := []
  /-- The numbers of the saves that fail, counting from one. -/
  failingSaves : List Nat := []
  /-- The texts of each save, or nothing for one that failed. -/
  saves : List (Option (List (Path × String))) := []

namespace Memory

/-- Takes down a call.  Answers the failure that was injected for it. -/
def record (memory : Memory) (call : CallRecord) : Option String × Memory :=
  (memory.failures.get? (call.key, call.operation), { memory with calls := memory.calls ++ [call] })

/-- The fields with every output set for the given serial number. -/
def withOutputs (call : Call) (serial : Nat) (fields : Bindings) : Bindings :=
  (call.type.schema.filter FieldSpec.output).foldl (fun fields spec =>
    fields.set spec.name
      (.text (call.key.name ++ ":" ++ spec.name ++ ":" ++ toString serial))) fields

/-- Makes a resource live with the given fields and new outputs. -/
def store (memory : Memory) (call : Call) (fields : Bindings) :
    (Except String Unit × Bindings) × Memory :=
  let serial := memory.serial + 1
  let stored := withOutputs call serial fields
  ((.ok (), stored), { memory with serial := serial, live := memory.live.set call.key stored })

/-- Reloads the fields of a resource. -/
def refresh (call : Call) (fields : Bindings) (memory : Memory) :
    (Except String Bool × Bindings) × Memory :=
  match memory.record ⟨.refresh, call.key, call.credentials, fields, none⟩ with
  | (some message, memory) => ((.error message, fields), memory)
  | (none, memory) =>
    match memory.live.get? call.key with
    | none => ((.ok false, fields), memory)
    | some live => ((.ok true, fields.setAll live), memory)

/-- Makes a resource live that is not live yet. -/
def create (call : Call) (fields : Bindings) (memory : Memory) :
    (Except String Unit × Bindings) × Memory :=
  match memory.record ⟨.create, call.key, call.credentials, fields, none⟩ with
  | (some message, memory) => ((.error message, fields), memory)
  | (none, memory) =>
    if memory.live.has call.key then
      ((.error (call.key.text ++ " already exists"), fields), memory)
    else memory.store call fields

/-- Gives a resource new fields. -/
def update (call : Call) (current pending : Bindings) (changed : List String) (memory : Memory) :
    (Except String Unit × Bindings) × Memory :=
  match memory.record ⟨.update, call.key, call.credentials, pending, some (current, changed)⟩ with
  | (some message, memory) => ((.error message, pending), memory)
  | (none, memory) => memory.store call pending

/-- Ends a resource. -/
def delete (call : Call) (fields : Bindings) (memory : Memory) : Except String Unit × Memory :=
  match memory.record ⟨.delete, call.key, call.credentials, fields, none⟩ with
  | (some message, memory) => (.error message, memory)
  | (none, memory) => (.ok (), { memory with live := memory.live.erase call.key })

/-- The provider of resources in memory. -/
def provider : Provider Memory where
  refresh := refresh
  create := create
  update := update
  delete := delete

/-- Saves an inventory by taking down its texts. -/
def save (inventory : Inventory) (memory : Memory) : Except StateError Unit × Memory :=
  if memory.failingSaves.contains (memory.saves.length + 1) then
    (.error (.write ⟨"memory"⟩), { memory with saves := memory.saves ++ [none] })
  else (.ok (), { memory with saves := memory.saves ++ [some (stateTexts inventory)] })

/-- What a run acts through whose resources of some types are in memory, as its saves are, and
whose other resources belong to another provider. -/
def backing {β : Type} (types : List TypeName) (other : Provider β) : Backing (Memory × β) where
  provider := Provider.divided types.contains provider other
  save := fun inventory => onFirst (save inventory)

end Memory

end Provision

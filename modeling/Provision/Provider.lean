import Provision.Resource

/-!
# Providers

What carries out operations on real resources.  A provider acts on a world of
any type, so that files on a disk, resources in memory and arbitrary test worlds
are all treated alike.
-/

namespace Provision

/-- What an operation is told besides the field values. -/
structure Call where
  type : ResourceType
  key : Key
  credentials : String

/-- The call for a resource. -/
def Resource.call (resource : Resource) : Call :=
  ⟨resource.type, resource.key, resource.credentials⟩

/-- The operations on resources.  Each may change the fields it is given, also when it fails; a
failure is described by a text. -/
structure Provider (ω : Type) where
  /-- Reloads the fields; the answer is whether the resource still exists. -/
  refresh : Call → Bindings → ω → (Except String Bool × Bindings) × ω
  /-- Creates the resource; outputs may be filled in. -/
  create : Call → Bindings → ω → (Except String Unit × Bindings) × ω
  /-- Changes the named fields in place, from the current fields to the pending ones. -/
  update : Call → (current pending : Bindings) → (changed : List String) → ω →
    (Except String Unit × Bindings) × ω
  /-- Removes the resource. -/
  delete : Call → Bindings → ω → Except String Unit × ω

/-! ## Divided worlds -/

/-- An action on the first part of a world. -/
def onFirst {α β γ : Type} (action : α → γ × α) (world : α × β) : γ × (α × β) :=
  let (answer, after) := action world.1
  (answer, (after, world.2))

/-- An action on the second part of a world. -/
def onSecond {α β γ : Type} (action : β → γ × β) (world : α × β) : γ × (α × β) :=
  let (answer, after) := action world.2
  (answer, (world.1, after))

/-- The provider of a divided world.  Calls for the types that `isFirst` picks act on its first
part, all other calls on the second. -/
def Provider.divided {α β : Type} (isFirst : TypeName → Bool) (first : Provider α)
    (second : Provider β) : Provider (α × β) where
  refresh call fields :=
    if isFirst call.type.name then onFirst (first.refresh call fields)
    else onSecond (second.refresh call fields)
  create call fields :=
    if isFirst call.type.name then onFirst (first.create call fields)
    else onSecond (second.create call fields)
  update call current pending changed :=
    if isFirst call.type.name then onFirst (first.update call current pending changed)
    else onSecond (second.update call current pending changed)
  delete call fields :=
    if isFirst call.type.name then onFirst (first.delete call fields)
    else onSecond (second.delete call fields)

end Provision

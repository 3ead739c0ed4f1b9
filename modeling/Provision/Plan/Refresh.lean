import Provision.Plan.Diff
import Provision.Provider

/-!
# Refreshing

Reloads every recorded resource through its provider.  A resource that is gone
is dropped, and one whose refresh fails stays as it was recorded.
-/

namespace Provision

/-- What refreshing has brought about so far. -/
structure Refreshed (ω : Type) where
  inventory : Inventory
  failures : RefreshFailures
  world : ω

/-- Refreshes one resource. -/
def refreshOne {ω : Type} (provider : Provider ω) (progress : Refreshed ω) (key : Key) : Refreshed ω :=
  match progress.inventory.resource? key with
  | none => progress
  | some resource =>
    if !resource.type.capabilities.refresh then progress
    else
      match provider.refresh resource.call resource.fields progress.world with
      | ((.ok true, fields), world) =>
        { progress with
          inventory := progress.inventory.update key fun r => { r with fields := fields }
          world := world }
      | ((.ok false, _), world) =>
        { progress with inventory := progress.inventory.remove key, world := world }
      | ((.error message, _), world) =>
        { progress with failures := progress.failures.note key message, world := world }

/-- Refreshes every resource of an inventory, in order. -/
def refresh {ω : Type} (provider : Provider ω) (inventory : Inventory) (world : ω) : Refreshed ω :=
  (inventory.resources.map Resource.key).foldl (refreshOne provider) ⟨inventory, [], world⟩

end Provision

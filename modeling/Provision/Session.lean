import Provision.Apply
import Provision.Plan.Refresh
import Provision.Sources
import Provision.State.Store

/-!
# Sessions

A session goes from configuration files and recorded state to a plan, and from
there to the applied plan.
-/

namespace Provision

open Provision.Language (SourceFile)

/-- Why there is no plan. -/
inductive PlanError where
  | source (error : SourceError)
  | state (error : StateError)
  | eval (error : EvalError)
  | order (error : Graph.OrderError Key)

/-- The wording of a planning error. -/
def PlanError.message : PlanError → String
  | source e => e.message
  | state e => e.message
  | eval e => e.message
  | order e => e.message Key.text

/-- Both inventories and the plan that leads from one to the other. -/
structure Session where
  pending : Inventory
  state : Inventory
  plan : Plan

namespace Session

variable {ω : Type}

/-- Compares a configuration with a state whose refresh led to the given failures. -/
def compare (registry : Registry) (sources : List SourceFile) (state : Inventory)
    (failures : RefreshFailures) : Except PlanError Session := do
  let pending ← (evaluateConfiguration registry (some state) sources).mapError PlanError.eval
  let plan ← (diff pending state failures).mapError PlanError.order
  .ok ⟨pending, state, plan⟩

/-- Plans a configuration: loads its state, refreshes that unless told not to, and compares. -/
def start (registry : Registry) (provider : Provider ω) (store : StateStore ω) (refreshing : Bool)
    (sources : List SourceFile) (world : ω) : Except PlanError Session × ω :=
  match store.load registry (sources.map fun file => ⟨file.path⟩) world with
  | .error e => (.error (.state e), world)
  | .ok recorded =>
    if refreshing then
      let refreshed := refresh provider recorded world
      (compare registry sources refreshed.inventory refreshed.failures, refreshed.world)
    else (compare registry sources recorded [], world)

/-- Applies the plan of a session. -/
def apply (session : Session) (provider : Provider ω) (store : StateStore ω)
    (approve : ChangeGroup → List PlannedChange → Bool) (failFast : Bool) (world : ω) :
    ApplyReport × Run ω :=
  applyPlan ⟨provider, store.save⟩ approve failFast session.plan
    ⟨session.pending, session.state, world⟩

end Session

end Provision

import Provision.Main
import Provision.Memory
import Provision.Proofs.Language.RoundTrip
import Provision.Proofs.Evaluation.Order
import Provision.Proofs.Plan.Exact
import Provision.Proofs.Apply.Course
import Provision.Proofs.Inventory.Holding
import Provision.Proofs.Apply.Ledger
import Provision.Proofs.Apply.InPlace
import Provision.Proofs.Path
import Provision.Proofs.State.Printed
import Provision.Proofs.Language.Places
import Provision.Proofs.State.Values
import Provision.Proofs.State.Bodies
import Provision.Proofs.State.Blocks
import Provision.Proofs.State.Opened
import Provision.Proofs.State.Loading
import Provision.Proofs.State.RoundTrip
import Provision.Proofs.Apply.Settling
import Provision.Proofs.State.Kept
import Provision.Proofs.Evaluation.Influence
import Provision.Proofs.Evaluation.Held
import Provision.Proofs.Apply.Reaching
import Provision.Proofs.Apply.Agreement
import Provision.Proofs.Evaluation.Reevaluation
import Provision.Proofs.Json.RoundTrip
import Provision.Proofs.Report.RoundTrip
import Provision.Proofs.Apply.Interrupted
import Provision.Proofs.Evaluation.Hiding
import Provision.Proofs.Evaluation.Listing
import Provision.Proofs.Language.Relaid
import Provision.Proofs.Graph.Topological
import Provision.Proofs.Evaluation.Extending
import Provision.Proofs.Evaluation.Wellformed
import Provision.Proofs.Evaluation.Hygiene
import Provision.Proofs.Evaluation.Ending
import Provision.Proofs.Evaluation.Passing
import Provision.Proofs.Evaluation.Loops
import Provision.Proofs.Evaluation.Merging
import Provision.Proofs.Plan.Refreshing
import Provision.Proofs.Language.Naming
import Provision.Proofs.State.Readback
import Provision.Proofs.Graph.BreadthFirst
import Provision.Proofs.Evaluation.Importing
import Provision.Proofs.Sources
import Provision.Proofs.Resolved
import Provision.Proofs.Report.Colour
import Provision.Proofs.Inventory.Housing
import Provision.Proofs.Display.Misread

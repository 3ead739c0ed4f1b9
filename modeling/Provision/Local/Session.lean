import Provision.Local.Operations
import Provision.Session
import Provision.State.Files

/-!
# Local sessions

Sessions about the files and links of a disk that keep their state there too.
-/

namespace Provision.Local

/-- Plans the configuration whose root file a path leads to. -/
def plan (path : Path) (refreshing : Bool) (disk : Disk) : Except PlanError Session × Disk :=
  match loadSources disk path with
  | .error e => (.error (.source e), disk)
  | .ok sources => Session.start .builtin provider stateFiles refreshing sources disk

/-- Applies the plan of a session. -/
def apply (session : Session) (approve : ChangeGroup → List PlannedChange → Bool) (failFast : Bool)
    (disk : Disk) : ApplyReport × Run Disk :=
  session.apply provider stateFiles approve failFast disk

end Provision.Local

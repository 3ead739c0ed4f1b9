import Provision.Command

/-!
# What a run looks at

The paths on which the course of a run depends.  Whoever keeps only a part of a
disk in memory can add these paths until no new one is named; the run then goes
as it would on the whole disk.
-/

namespace Provision.Command

/-- The places of the resources of an inventory. -/
def resourcePaths (inventory : Inventory) : List Path :=
  inventory.resources.filterMap fun resource =>
    ((resource.field? "path").bind Value.asText?).map Path.mk

/-- The configuration files that are reached from a root, or the one that could not be read. -/
def sourcePaths (root : Path) (disk : Disk) : List Path :=
  match loadSources disk root with
  | .ok sources => sources.map fun file => ⟨file.path⟩
  | .error (.unreadable path) => [path]
  | .error _ => []

/-- The state files that belong to some configuration files, and the places of the resources that
these record. -/
def recordedPaths (paths : List Path) (disk : Disk) : List Path :=
  paths.map statePath ++
    match stateFiles.load .builtin paths disk with
    | .error _ => []
    | .ok state =>
      (state.files.flatMap FileScope.imports).map statePath ++ resourcePaths state

/-- The places of the resources that a plan is about, before and after it is applied. -/
def plannedPaths (root : Path) (disk : Disk) : List Path :=
  match Local.plan root true disk with
  | (.error _, _) => []
  | (.ok session, disk) =>
    let (_, run) := Local.apply session (fun _ _ => true) false disk
    resourcePaths session.pending ++ resourcePaths run.pending

/-- The permission that a file resource asks for, with the place of the file. -/
def modeAt? (resource : Resource) : Option (Path × Nat) := do
  let path ← (resource.field? "path").bind Value.asText?
  let mode ← (Local.modeOf (← Local.modeField? resource.fields)).toOption
  some (⟨path⟩, mode)

/-- The permissions that the state of a run records. -/
def recordedModes (arguments : List String) (disk : Disk) : List (Path × Nat) :=
  match arguments? arguments with
  | some (.up request) =>
    match stateFiles.load .builtin (sourcePaths ⟨request.root⟩ disk) disk with
    | .ok state => state.resources.filterMap modeAt?
    | .error _ => []
  | _ => []

/-- The paths that a run with the given arguments looks at, as far as the disk shows them. -/
def footprint (arguments : List String) (disk : Disk) : List Path :=
  match arguments? arguments with
  | some (.up request) =>
    let root : Path := ⟨request.root⟩
    let sources := sourcePaths root disk
    root :: sources ++ recordedPaths sources disk ++ plannedPaths root disk
  | _ => []

end Provision.Command

import Provision.Path
import Provision.Registry
import Provision.Resource

/-!
# Inventories

The resources that a set of files declares, or that a state records, file by
file, together with the definitions shared across files.  A key is held by at
most one file: inserting a resource takes it away from every other file.
-/

namespace Provision

/-- A resource template: an instance evaluates `body` with only the parameters in scope. -/
structure VirtualType where
  name : TypeName
  parameters : List String
  body : List Language.Node
  span : Span

/-- What one file declares. -/
structure FileScope where
  path : Path
  imports : List Path := []
  plugins : List String := []
  bindings : Bindings := []
  resources : Table Key Resource := []

namespace FileScope

/-- Whether a file holds nothing that a state has to record. -/
def isEmpty (file : FileScope) : Bool :=
  file.resources.isEmpty && file.imports.isEmpty

/-- Adds an import unless the file has the same one already. -/
def addImport (file : FileScope) (path : Path) : FileScope :=
  if path.isIn file.imports then file else { file with imports := file.imports ++ [path] }

/-- Adds a plugin unless the file has it already. -/
def addPlugin (file : FileScope) (space : String) : FileScope :=
  if file.plugins.contains space then file else { file with plugins := file.plugins ++ [space] }

/-- The resource with a key. -/
def resource? (file : FileScope) (key : Key) : Option Resource :=
  Table.get? file.resources key

/-- Inserts or replaces a resource under its own key. -/
def insert (file : FileScope) (resource : Resource) : FileScope :=
  { file with resources := Table.set file.resources resource.key resource }

/-- Removes the resource with a key. -/
def remove (file : FileScope) (key : Key) : FileScope :=
  { file with resources := Table.erase file.resources key }

end FileScope

/-- The evaluated files and what they define for one another. -/
structure Inventory where
  registry : Registry
  files : List FileScope := []
  virtuals : Table TypeName VirtualType := []
  workflows : List Workflow := []

namespace Inventory

/-- An inventory without files. -/
def empty (registry : Registry) : Inventory :=
  ⟨registry, [], [], []⟩

/-- The file with a path. -/
def file? (inventory : Inventory) (path : Path) : Option FileScope :=
  inventory.files.find? fun file => file.path.same path

/-- The position of the file with a path. -/
def indexOf? (inventory : Inventory) (path : Path) : Option Nat :=
  inventory.files.findIdx? fun file => file.path.same path

/-- The inventory with a file for `path`, and that file's position. -/
def ensureFile (inventory : Inventory) (path : Path) : Inventory × Nat :=
  match inventory.indexOf? path with
  | some index => (inventory, index)
  | none =>
    ({ inventory with files := inventory.files ++ [{ path := path }] }, inventory.files.length)

/-- Changes the file at a position. -/
def modifyFile (inventory : Inventory) (index : Nat) (change : FileScope → FileScope) : Inventory :=
  { inventory with files := inventory.files.modify index change }

/-- Every resource, file by file. -/
def resources (inventory : Inventory) : List Resource :=
  inventory.files.flatMap fun file => Table.values file.resources

/-- How many resources the files hold together. -/
def resourceCount (inventory : Inventory) : Nat :=
  inventory.files.foldl (fun count file => count + file.resources.length) 0

/-- The resource with a key, from the first file that holds it. -/
def resource? (inventory : Inventory) (key : Key) : Option Resource :=
  inventory.files.findSome? fun file => file.resource? key

/-- Whether some file holds a key. -/
def has (inventory : Inventory) (key : Key) : Bool :=
  (inventory.resource? key).isSome

/-- The path of the first file that holds a key. -/
def fileOf? (inventory : Inventory) (key : Key) : Option Path :=
  (inventory.files.find? fun file => Table.has file.resources key).map FileScope.path

/-- The position of the first file that holds a key. -/
def fileIndexOf? (inventory : Inventory) (key : Key) : Option Nat :=
  inventory.files.findIdx? fun file => Table.has file.resources key

/-- Inserts or replaces a resource in the file at a position and removes it from all others. -/
def insertAt (inventory : Inventory) (index : Nat) (resource : Resource) : Inventory :=
  { inventory with
    files := inventory.files.mapIdx fun position file =>
      if position = index then file.insert resource else file.remove resource.key }

/-- Inserts or replaces a resource in the file with a path. -/
def insert (inventory : Inventory) (path : Path) (resource : Resource) : Inventory :=
  let (inventory, index) := inventory.ensureFile path
  inventory.insertAt index resource

/-- Removes a key from the first of some files that holds it. -/
def removeFirst (key : Key) : List FileScope → List FileScope
  | [] => []
  | file :: rest =>
    if Table.has file.resources key then file.remove key :: rest else file :: removeFirst key rest

/-- Removes a resource. -/
def remove (inventory : Inventory) (key : Key) : Inventory :=
  { inventory with files := removeFirst key inventory.files }

/-- Changes a resource in the first of some files that holds its key. -/
def updateFirst (key : Key) (change : Resource → Resource) : List FileScope → List FileScope
  | [] => []
  | file :: rest =>
    match file.resource? key with
    | some resource =>
      { file with resources := Table.set file.resources key (change resource) } :: rest
    | none => file :: updateFirst key change rest

/-- Changes the resource with a key. -/
def update (inventory : Inventory) (key : Key) (change : Resource → Resource) : Inventory :=
  { inventory with files := updateFirst key change inventory.files }

/-- The template with a name. -/
def virtual? (inventory : Inventory) (name : TypeName) : Option VirtualType :=
  Table.get? inventory.virtuals name

/-- The workflow for a type; those that the files define come before the registered ones. -/
def workflowFor? (inventory : Inventory) (type : TypeName) : Option Workflow :=
  match inventory.workflows.find? fun workflow => workflow.forType = type with
  | some workflow => some workflow
  | none => inventory.registry.workflowFor? type

end Inventory

end Provision

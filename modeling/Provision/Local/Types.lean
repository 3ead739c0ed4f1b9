import Provision.Registry

/-!
# Local resource types

The types that every run knows: files and symbolic links of the machine it runs
on, and the workflow that points a link elsewhere.
-/

namespace Provision

namespace Local

/-- The type of files. -/
def fileName : TypeName := ⟨"local::file", by decide +kernel⟩

/-- The type of symbolic links. -/
def symlinkName : TypeName := ⟨"local::symlink", by decide +kernel⟩

/-- A file: its place, what it holds, its permission, and the digest of what it holds. -/
def file : ResourceType where
  name := fileName
  schema := [
    { name := "path", id := true, nullable := false },
    { name := "content", updatable := true, nullable := false },
    { name := "mode", updatable := true },
    { name := "sha256", output := true }]

/-- A symbolic link: its place and where it points.  It cannot change in place. -/
def symlink : ResourceType where
  name := symlinkName
  schema := [
    { name := "path", id := true, nullable := false },
    { name := "target", nullable := false }]
  capabilities := { update := false }

/-- Replaces a link: the old one goes before the new one comes. -/
def relink : Workflow where
  name := "relink"
  forType := symlinkName
  stages := [{ name := "unlink", action := .delete }, { name := "link", action := .create }]

end Local

/-- The registry of the types that every run knows. -/
def Registry.builtin : Registry :=
  ((({} : Registry).addNamespace "local" |>.addWorkflow Local.relink).addType Local.file).addType
    Local.symlink

end Provision

import Mathlib.Data.Set.Finite.List
import Mathlib.Logic.Relation
import Provision.Proofs.Evaluation.Sound
import Provision.Proofs.Language.RoundTrip
import Provision.Proofs.Path

/-!
# What state can record

A state file says of a resource what its text can say: numbers have to be finite,
and the name of a resource has to be read as it was written.  To be read back, a
reference has to lead to a resource of the same state, too, and references in a
circle could not be read in any order.
-/

namespace Provision

open Provision.Language (isNameStart)

/-- A value whose text says all of it: numbers are finite, and no map has a key twice. -/
inductive Value.Writable : Value → Prop
  | null : Writable .null
  | bool (b : Bool) : Writable (.bool b)
  | number {x : Float} (hfinite : Decimal.isFinite x = true) : Writable (.number x)
  | text (s : String) : Writable (.text s)
  | list {items : List Value} (hitems : ∀ item ∈ items, Writable item) : Writable (.list items)
  | map {entries : List (String × Value)} (hkeys : Table.Distinct entries)
      (hentries : ∀ entry ∈ entries, Writable entry.2) : Writable (.map entries)
  | resource (key : Key) : Writable (.resource key)

/-- A name that is not blank and has no blanks at its ends. -/
structure Key.Trimmed (key : Key) : Prop where
  notBlank : isBlankText key.name = false
  trimmed : Text.trim key.name.toList = key.name.toList

/-- A key that a block and a reference can name: its namespace starts like a word, and its name
does not stand for several resources. -/
structure Key.Nameable (key : Key) : Prop extends key.Trimmed where
  space : ∀ c ∈ key.type.space.toList.head?, isNameStart c = true
  single : Text.dropEnding? ['*'] key.name.toList = none

/-- The resources in a value have names that stand for them alone, and their types are
registered. -/
structure Registry.Addresses (registry : Registry) (value : Value) : Prop where
  notBlank : ∀ key ∈ value.handles, isBlankText key.name = false
  single : ∀ key ∈ value.handles, Text.dropEnding? ['*'] key.name.toList = none
  registered : ∀ key ∈ value.handles, (registry.type? key.type).isSome = true

/-- The resources in a value can be named, and their types are registered. -/
structure Registry.Names (registry : Registry) (value : Value) : Prop where
  nameable : ∀ key ∈ value.handles, key.Nameable
  registered : ∀ key ∈ value.handles, (registry.type? key.type).isSome = true

theorem Registry.Names.addresses {registry : Registry} {value : Value} (h : registry.Names value) :
    registry.Addresses value :=
  ⟨fun key hkey => (h.nameable key hkey).notBlank, fun key hkey => (h.nameable key hkey).single,
    h.registered⟩

/-- A resource that its block says all of, wherever its references lead. -/
structure Resource.Writable (registry : Registry) (resource : Resource) : Prop where
  nameable : resource.key.Nameable
  type_eq : registry.type? resource.key.type = some resource.type
  schema : (resource.type.schema.map FieldSpec.name).Nodup
  unreserved : ∀ name ∈ [configuredFieldsKey, dependsOnKey],
    name ∉ resource.type.schema.map FieldSpec.name
  distinct : Table.Distinct resource.fields
  fields : ∀ field ∈ resource.fields,
    field.1 ∈ resource.type.schema.map FieldSpec.name ∧ field.2.Writable
  handles : ∀ field ∈ resource.fields, ∀ key ∈ field.2.handles, key ∈ resource.dependsOn
  dependsOn : ∀ key ∈ resource.dependsOn, key.Trimmed
  own : resource.key ∉ resource.dependsOn

namespace Inventory

/-- A resource has a field that refers to another. -/
def Refers (inventory : Inventory) (key target : Key) : Prop :=
  ∃ resource, inventory.resource? key = some resource ∧
    ∃ field ∈ resource.fields, target ∈ field.2.handles

/-- A resource that its block says all of, and that refers to resources of the inventory. -/
structure Writes (inventory : Inventory) (resource : Resource) : Prop
    extends resource.Writable inventory.registry where
  present : ∀ field ∈ resource.fields, ∀ key ∈ field.2.handles, inventory.has key = true

/-- A file whose state says all of it.  Imports and plugins are added only once. -/
structure WritesFile (inventory : Inventory) (file : FileScope) : Prop where
  path : file.path.Normal
  imports : ∀ path ∈ file.imports, path.Normal
  importsOnce : file.imports.Pairwise fun path other => path.same other = false
  plugins : ∀ space ∈ file.plugins, inventory.registry.hasNamespace space = true
  pluginsOnce : file.plugins.Nodup

/-- An inventory that its state files say all of. -/
structure Recordable (inventory : Inventory) : Prop where
  named : inventory.registry.Named
  oneHome : inventory.OneHome
  paths : inventory.files.Pairwise fun file other => file.path.same other.path = false
  files : ∀ file ∈ inventory.files, inventory.WritesFile file
  resources : ∀ resource ∈ inventory.resources, inventory.Writes resource
  acyclic : ∀ key, ¬ Relation.TransGen inventory.Refers key key

/-- An inventory that its state files say all of, wherever its references lead. -/
structure Writable (inventory : Inventory) : Prop where
  named : inventory.registry.Named
  oneHome : inventory.OneHome
  paths : inventory.files.Pairwise fun file other => file.path.same other.path = false
  files : ∀ file ∈ inventory.files, inventory.WritesFile file
  resources : ∀ resource ∈ inventory.resources, resource.Writable inventory.registry
  names : ∀ resource ∈ inventory.resources, ∀ field ∈ resource.fields,
    inventory.registry.Names field.2

/-- References lead to resources of the inventory, and in no circle. -/
structure Grounded (inventory : Inventory) : Prop where
  present : ∀ {key target}, inventory.Refers key target → inventory.has target = true
  acyclic : ∀ key, ¬ Relation.TransGen inventory.Refers key key

theorem OneHome.refers_iff {inventory : Inventory} (h : inventory.OneHome) {key target : Key} :
    inventory.Refers key target ↔ ∃ resource ∈ inventory.resources, resource.key = key ∧
      ∃ field ∈ resource.fields, target ∈ field.2.handles := by
  unfold Refers
  simp only [h.resource?_eq_some_iff, and_assoc]

/-- What is said of an inventory is recorded when its references lead somewhere, too. -/
theorem recordable_iff {inventory : Inventory} :
    inventory.Recordable ↔ inventory.Writable ∧ inventory.Grounded := by
  constructor
  · intro h
    have hnamed (key : Key) (hhas : inventory.has key = true) :
        key.Nameable ∧ (inventory.registry.type? key.type).isSome = true := by
      obtain ⟨found, hfound⟩ := Option.isSome_iff_exists.1 hhas
      obtain ⟨hmem, rfl⟩ := h.oneHome.resource?_eq_some_iff.1 hfound
      have hwrites := h.resources found hmem
      exact ⟨hwrites.nameable, Option.isSome_iff_exists.2 ⟨_, hwrites.type_eq⟩⟩
    refine ⟨⟨h.named, h.oneHome, h.paths, h.files, fun resource hresource =>
      (h.resources resource hresource).toWritable, fun resource hresource field hfield => ?_⟩,
      ⟨fun hrefers => ?_, h.acyclic⟩⟩
    · have hpresent := (h.resources resource hresource).present field hfield
      exact ⟨fun key hkey => (hnamed key (hpresent key hkey)).1,
        fun key hkey => (hnamed key (hpresent key hkey)).2⟩
    · obtain ⟨resource, hresource, -, field, hfield, htarget⟩ := h.oneHome.refers_iff.1 hrefers
      exact (h.resources resource hresource).present field hfield _ htarget
  · rintro ⟨h, hgrounded⟩
    refine ⟨h.named, h.oneHome, h.paths, h.files, fun resource hresource =>
      ⟨h.resources resource hresource, fun field hfield key hkey => ?_⟩, hgrounded.acyclic⟩
    exact hgrounded.present (h.oneHome.refers_iff.2 ⟨resource, hresource, rfl, field, hfield, hkey⟩)

/-- Among some keys there is one that refers to none of them, unless there are circles. -/
theorem exists_refers_to_none {inventory : Inventory}
    (hacyclic : ∀ key, ¬ Relation.TransGen inventory.Refers key key) {keys : List Key}
    (hne : keys ≠ []) :
    ∃ key ∈ keys, ∀ target ∈ keys, ¬ inventory.Refers key target := by
  let Below (target key : { key // key ∈ keys }) : Prop :=
    Relation.TransGen inventory.Refers key.1 target.1
  have : IsTrans { key // key ∈ keys } Below := ⟨fun _ _ _ hab hbc => hbc.trans hab⟩
  have : Std.Irrefl Below := ⟨fun key => hacyclic key.1⟩
  have hfinite : Finite { key // key ∈ keys } := List.finite_toSet keys
  obtain ⟨first, hfirst⟩ := List.exists_mem_of_ne_nil keys hne
  obtain ⟨key, -, hleast⟩ := (Finite.wellFounded_of_trans_of_irrefl Below).has_min Set.univ
    ⟨⟨first, hfirst⟩, trivial⟩
  exact ⟨key.1, key.2, fun target htarget hrefers =>
    hleast ⟨target, htarget⟩ trivial (.single hrefers)⟩

end Inventory

end Provision

import Provision.Proofs.Evaluation.Growing
import Provision.Proofs.Inventory.Holding

/-!
# Evaluated inventories are sound

In an evaluated inventory every resource stands under its own key, in one file,
with a registered type.  Definitions and bindings leave the resources alone,
statements only insert some, and insertion keeps all of this.
-/

namespace Provision

open Provision.Language (Node Directive SourceFile)

/-- Every type is registered under its own name. -/
def Registry.Named (registry : Registry) : Prop :=
  ∀ name type, registry.type? name = some type → type.name = name

theorem Registry.named_empty : Registry.Named {} := by
  intro name type h
  cases h

theorem Registry.Named.addType {registry : Registry} (h : registry.Named) (type : ResourceType) :
    (registry.addType type).Named := by
  intro name found hfound
  unfold Registry.addType Registry.type? at hfound
  rw [Table.get?_set] at hfound
  by_cases hname : type.name = name
  · rw [if_pos hname] at hfound
    cases hfound
    exact hname
  · rw [if_neg hname] at hfound
    exact h name found hfound

/-- Every resource stands under its own key, in one file, with a type of the registry. -/
structure Inventory.Sound (registry : Registry) (inventory : Inventory) : Prop where
  oneHome : inventory.OneHome
  typed : inventory.Typed
  registry_eq : inventory.registry = registry

namespace Inventory

variable {registry : Registry} {inventory other : Inventory}

theorem typed_of_shelved (h : inventory.shelved = other.shelved)
    (hregistry : inventory.registry = other.registry) (htyped : other.Typed) : inventory.Typed := by
  intro file hfile entry hentry
  have hshelf : (file.path, file.resources) ∈ other.shelved :=
    h ▸ List.mem_map_of_mem (f := fun file : FileScope => (file.path, file.resources)) hfile
  obtain ⟨file', hfile', hsame⟩ := List.mem_map.1 hshelf
  have hresources : file'.resources = file.resources := congrArg Prod.snd hsame
  rw [hregistry]
  exact htyped file' hfile' entry (hresources ▸ hentry)

/-- Soundness looks at the resources of the files alone. -/
theorem Sound.of_shelved (h : other.Sound registry) (hshelved : inventory.shelved = other.shelved)
    (hregistry : inventory.registry = other.registry) :
    inventory.Sound registry where
  oneHome := (oneHome_of_shelved hshelved).2 h.oneHome
  typed := typed_of_shelved hshelved hregistry h.typed
  registry_eq := hregistry.trans h.registry_eq

theorem sound_empty (registry : Registry) : (Inventory.empty registry).Sound registry where
  oneHome := by
    refine ⟨?_, List.nodup_nil⟩
    intro file hfile
    cases hfile
  typed := by
    intro file hfile
    cases hfile
  registry_eq := rfl

theorem Sound.insertAt (h : inventory.Sound registry) (index : Nat) {resource : Resource}
    (name : TypeName) (hregistered : inventory.registry.type? name = some resource.type)
    (hkey : resource.key.type = resource.type.name) :
    (inventory.insertAt index resource).Sound registry where
  oneHome := oneHome_insertAt h.oneHome index resource
  typed := (Grown.insert .refl index resource name hregistered hkey).typed h.typed
  registry_eq := h.registry_eq

theorem Sound.grown (h : inventory.Sound registry) (hgrown : inventory.Grown other) :
    other.Sound registry := by
  induction hgrown with
  | refl => exact h
  | insert _ index resource name hregistered hkey ih => exact ih.insertAt index name hregistered hkey

theorem registry_ensureFile (inventory : Inventory) (path : Path) :
    (inventory.ensureFile path).1.registry = inventory.registry := by
  unfold ensureFile
  cases inventory.indexOf? path <;> rfl

theorem Sound.ensureFile (h : inventory.Sound registry) (path : Path) :
    (inventory.ensureFile path).1.Sound registry where
  oneHome := oneHome_ensureFile h.oneHome path
  typed := by
    intro file hfile
    rw [registry_ensureFile]
    rcases files_ensureFile inventory path with hfiles | hfiles
    · exact h.typed file (hfiles ▸ hfile)
    · rw [hfiles] at hfile
      rcases List.mem_append.1 hfile with hfile | hfile
      · exact h.typed file hfile
      · rw [List.mem_singleton.1 hfile]
        intro entry hentry
        cases hentry
  registry_eq := (registry_ensureFile inventory path).trans h.registry_eq

/-- Giving a resource other fields leaves key and type as they are. -/
theorem Sound.insert (h : inventory.Sound registry) {key : Key} {resource : Resource} (file : Path)
    (fields : Bindings) (hresource : inventory.resource? key = some resource) :
    (inventory.insert file { resource with fields := fields }).Sound registry := by
  obtain ⟨hname, name, hregistered⟩ := h.typed.of_resource? hresource
  obtain ⟨-, hkey⟩ := h.oneHome.keyed.key_of_resource? hresource
  refine (h.ensureFile file).insertAt _ name ?_ ?_
  · rw [registry_ensureFile]
    exact hregistered
  · show resource.key.type = resource.type.name
    rw [hkey, hname]

/-- The type of a resource is the one registered for its key. -/
theorem Sound.type_eq (h : inventory.Sound registry) (hnamed : registry.Named) {key : Key}
    {resource : Resource} (hresource : inventory.resource? key = some resource) :
    registry.type? key.type = some resource.type := by
  obtain ⟨hname, name, hregistered⟩ := h.typed.of_resource? hresource
  rw [h.registry_eq] at hregistered
  rw [hname, hnamed name _ hregistered]
  exact hregistered

end Inventory

/-! ## Definitions -/

section Definitions

variable {registry : Registry} {inventory after : Inventory}

/-- All that taking up a definition can do: note an import or a plugin with the file, or add to
the virtual types and the workflows. -/
theorem takeDefinition_cases {path : Path} {index : Nat} {d : Directive}
    (h : takeDefinition path index inventory d = .ok after) :
    (d.name = "import" ∧ ∃ text, literalArgument d = .ok text ∧
        after = inventory.modifyFile index fun file => file.addImport (importTarget path text)) ∨
      (d.name ≠ "import" ∧
        ∃ space, after = inventory.modifyFile index fun file => file.addPlugin space) ∨
      (d.name ≠ "import" ∧ ∃ virtuals workflows,
        after = { inventory with virtuals := virtuals, workflows := workflows }) := by
  unfold takeDefinition at h
  split at h
  · next hname =>
    obtain ⟨text, htext, h⟩ := bind_eq_ok.1 h
    cases h
    exact Or.inl ⟨hname, text, htext, rfl⟩
  · next hname =>
    split at h
    · obtain ⟨space, -, h⟩ := bind_eq_ok.1 h
      split at h
      · cases h
        exact Or.inr (Or.inl ⟨hname, space, rfl⟩)
      · cases h
    · refine Or.inr (Or.inr ⟨hname, ?_⟩)
      split at h
      · unfold defineVirtual at h
        obtain ⟨name, -, h⟩ := bind_eq_ok.1 h
        obtain ⟨type, -, h⟩ := bind_eq_ok.1 h
        split at h
        · cases h
        · split at h
          · cases h
          · obtain ⟨parameters, -, h⟩ := bind_eq_ok.1 h
            cases h
            exact ⟨_, _, rfl⟩
      · split at h
        · obtain ⟨workflow, -, h⟩ := bind_eq_ok.1 h
          cases h
          exact ⟨_, _, rfl⟩
        · cases h
          exact ⟨_, _, rfl⟩

theorem shelved_takeDefinition {path : Path} {index : Nat} {d : Directive}
    (h : takeDefinition path index inventory d = .ok after) :
    after.shelved = inventory.shelved ∧ after.registry = inventory.registry := by
  rcases takeDefinition_cases h with ⟨-, text, -, rfl⟩ | ⟨-, space, rfl⟩ | ⟨-, _, _, rfl⟩
  · refine ⟨Inventory.shelved_modifyFile _ _ fun file => ?_, rfl⟩
    unfold FileScope.addImport
    split <;> rfl
  · refine ⟨Inventory.shelved_modifyFile _ _ fun file => ?_, rfl⟩
    unfold FileScope.addPlugin
    split <;> rfl
  · exact ⟨rfl, rfl⟩

theorem shelved_takeDefinitions {path : Path} {index : Nat} {nodes : List Node}
    (h : takeDefinitions path index inventory nodes = .ok after) :
    after.shelved = inventory.shelved ∧ after.registry = inventory.registry := by
  induction nodes generalizing inventory with
  | nil =>
    cases h
    exact ⟨rfl, rfl⟩
  | cons node rest ih =>
    cases node with
    | directive d =>
      obtain ⟨between, hfirst, hrest⟩ := bind_eq_ok.1 h
      obtain ⟨hshelved, hregistry⟩ := shelved_takeDefinition hfirst
      obtain ⟨hshelved', hregistry'⟩ := ih hrest
      exact ⟨hshelved'.trans hshelved, hregistry'.trans hregistry⟩
    | _ => exact ih h

theorem shelved_takeAllDefinitions {sources : List (SourceFile × Nat)}
    (h : takeAllDefinitions inventory sources = .ok after) :
    after.shelved = inventory.shelved ∧ after.registry = inventory.registry := by
  induction sources generalizing inventory with
  | nil =>
    cases h
    exact ⟨rfl, rfl⟩
  | cons source rest ih =>
    obtain ⟨between, hfirst, hrest⟩ := bind_eq_ok.1 h
    obtain ⟨hshelved, hregistry⟩ := shelved_takeDefinitions hfirst
    obtain ⟨hshelved', hregistry'⟩ := ih hrest
    exact ⟨hshelved'.trans hshelved, hregistry'.trans hregistry⟩

theorem sound_ensureFiles (h : inventory.Sound registry) (files : List SourceFile) :
    (ensureFiles inventory files).1.Sound registry := by
  induction files generalizing inventory with
  | nil => exact h
  | cons file rest ih => exact ih (h.ensureFile ⟨file.path⟩)

theorem Round.start_sound (h : inventory.Sound registry) {files : List SourceFile} {round : Round}
    {indices : List Nat} (hstart : Round.start inventory files = .ok (round, indices)) :
    round.inventory.Sound registry := by
  unfold Round.start at hstart
  obtain ⟨taken, htaken, hstart⟩ := bind_eq_ok.1 hstart
  cases hstart
  obtain ⟨hshelved, hregistry⟩ := shelved_takeAllDefinitions htaken
  exact (sound_ensureFiles h files).of_shelved hshelved hregistry

end Definitions

/-! ## Passes -/

section Passes

variable {setup : EvaluationSetup} {round after : Round}

theorem Round.attempt_grown {task : Task} {deferred : Option Deferred}
    (h : round.attempt setup task = .ok (after, deferred)) :
    round.inventory.Grown after.inventory := by
  unfold Round.attempt at h
  dsimp only at h
  have hgrown := runStatement_grows
    (atDepth_grows ⟨setup.mode, setup.current,
      if round.settling then []
      else undeclaredBesides round.unfinished (statementSpan task.node)⟩ setup.depth)
    task.node { file := task.file }
    ⟨round.inventory, round.declared, (round.scopes[task.source]?).getD {}, [], none⟩
  generalize (runStatement _ _ _).run _ = result at h hgrown
  obtain ⟨outcome, progress⟩ := result
  rcases outcome with (reasons | e) | done
  · cases h
    exact hgrown
  · cases h
  · cases h
    exact hgrown

theorem Round.sweep_grown {tasks : List Task} {deferred : List Deferred}
    (h : round.sweep setup tasks = .ok (after, deferred)) :
    round.inventory.Grown after.inventory := by
  induction tasks generalizing round deferred with
  | nil =>
    cases h
    exact .refl
  | cons task rest ih =>
    obtain ⟨⟨between, first⟩, hfirst, h⟩ := bind_eq_ok.1 h
    obtain ⟨⟨last, others⟩, hrest, h⟩ := bind_eq_ok.1 h
    cases h
    exact (attempt_grown hfirst).trans (ih hrest)

theorem Round.pass_grown
    (h : round.pass setup = .finished after ∨ round.pass setup = .again after) :
    round.inventory.Grown after.inventory := by
  unfold Round.pass at h
  cases hsweep : round.sweep setup round.tasks with
  | error e =>
    rw [hsweep] at h
    rcases h with h | h <;> cases h
  | ok result =>
    obtain ⟨swept, deferred⟩ := result
    have hgrown := sweep_grown hsweep
    rw [hsweep] at h
    rcases h with h | h
    · dsimp only at h
      split at h
      · cases h
        exact hgrown
      · split at h
        · split at h <;> cases h
        · cases h
    · dsimp only at h
      split at h
      · cases h
      · split at h
        · split at h
          · cases h
          · cases h
            exact hgrown
        · cases h
          exact hgrown

theorem Round.run_grown {bound : Nat} (h : round.run setup bound = .ok after) :
    round.inventory.Grown after.inventory := by
  induction bound generalizing round with
  | zero => cases h
  | succ bound ih =>
    unfold Round.run at h
    cases hpass : round.pass setup with
    | finished last =>
      rw [hpass] at h
      cases h
      exact pass_grown (Or.inl hpass)
    | again next =>
      rw [hpass] at h
      exact (pass_grown (Or.inr hpass)).trans (ih h)
    | stuck _ _ =>
      rw [hpass] at h
      cases h
    | failed e =>
      rw [hpass] at h
      cases h

/-- What evaluation gives is sound when what it starts from is. -/
theorem evaluateFiles_sound {registry : Registry} {inventory result : Inventory}
    {files : List SourceFile} (hsound : inventory.Sound registry)
    (h : evaluateFiles setup inventory files = .ok result) :
    result.Sound registry := by
  unfold evaluateFiles at h
  obtain ⟨⟨round, indices⟩, hstart, h⟩ := bind_eq_ok.1 h
  obtain ⟨last, hlast, h⟩ := bind_eq_ok.1 h
  cases h
  have hgrown := ((Round.start_sound hsound hstart).grown (Round.run_grown hlast))
  unfold Round.result
  generalize last.scopes.zip indices = entries
  generalize last.inventory = evaluated at hgrown ⊢
  induction entries generalizing evaluated with
  | nil => exact hgrown
  | cons entry rest ih =>
    rw [List.foldl_cons]
    exact ih _ (hgrown.of_shelved (Inventory.shelved_modifyFile _ _ fun _ => rfl) rfl)

/-- Evaluated configuration is sound. -/
theorem evaluateConfiguration_sound {registry : Registry} {current : Option Inventory}
    {files : List SourceFile} {pending : Inventory}
    (h : evaluateConfiguration registry current files = .ok pending) :
    pending.Sound registry :=
  evaluateFiles_sound (Inventory.sound_empty registry) h

/-- Evaluated state is sound. -/
theorem evaluateState_sound {registry : Registry} {files : List SourceFile} {state : Inventory}
    (h : evaluateState registry files = .ok state) :
    state.Sound registry :=
  evaluateFiles_sound (Inventory.sound_empty registry) h

end Passes

end Provision

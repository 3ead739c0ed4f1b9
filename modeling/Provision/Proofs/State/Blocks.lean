import Provision.Proofs.State.Bodies

/-!
# Blocks of recorded resources

The block of a recorded resource registers the resource again, with the same
content, as soon as all resources in its fields are known.  Until then it waits
and registers nothing.
-/

namespace Provision

open Provision.Language (Node bareNodes_eq_map)
open Recording

/-! ## Keys and their texts -/

/-- The text of a key whose name has no blanks at its ends is read as the key. -/
theorem Key.Trimmed.ofText_text {key : Key} (h : key.Trimmed) : Key.ofText key.text = .ok key := by
  rw [Key.ofText_text h.notBlank]
  unfold trimText
  rw [h.trimmed, String.ofList_toList]

theorem recordedKeys_texts {origin : Span} {keys : List Key} (h : ∀ key ∈ keys, key.Trimmed) :
    recordedKeys origin (keys.map Key.text) = .ok keys := by
  induction keys with
  | nil => rfl
  | cons key rest ih =>
    rw [List.map_cons, recordedKeys, (h key List.mem_cons_self).ofText_text]
    dsimp only
    rw [ih fun other hother => h other (List.mem_cons_of_mem _ hother)]
    rfl

/-! ## The pairs of a recorded resource -/

theorem Table.get?_append {κ ν : Type} [DecidableEq κ] (table other : Table κ ν) (key : κ) :
    Table.get? (table ++ other) key = (table.get? key).or (other.get? key) := by
  induction table with
  | nil => rfl
  | cons pair rest ih =>
    obtain ⟨k, v⟩ := pair
    rw [List.cons_append, Table.get?, Table.get?]
    split
    · rfl
    · exact ih

section Pairs

variable {registry : Registry} {resource : Resource}

theorem Resource.Writable.get?_reserved (h : resource.Writable registry) {name : String}
    (hname : name ∈ [configuredFieldsKey, dependsOnKey]) :
    Table.get? resource.fields name = none := by
  cases hget : Table.get? resource.fields name with
  | none => rfl
  | some value =>
    exact absurd (h.fields (name, value) (Table.mem_of_get? hget)).1 (h.unreserved name hname)

/-- No name is given twice. -/
theorem Resource.Writable.distinct_pairs (h : resource.Writable registry) :
    Table.Distinct (statedPairs resource) := by
  have hnew : ∀ name ∈ [configuredFieldsKey, dependsOnKey], name ∉ Table.keys resource.fields := by
    intro name hname hmem
    have hsome := Table.mem_keys_iff.1 hmem
    rw [h.get?_reserved hname] at hsome
    cases hsome
  have hreserved : ∀ pair ∈ (configuredFieldsKey, Value.list (resource.configured.map Value.text)) ::
      (if resource.dependsOn.isEmpty then []
        else [(dependsOnKey, Value.list ((resource.dependsOn.map Key.text).map Value.text))]),
      pair.1 ∈ [configuredFieldsKey, dependsOnKey] := by
    split <;> simp
  unfold statedPairs Table.Distinct Table.keys
  rw [List.map_append, List.nodup_append]
  refine ⟨h.distinct, ?_, ?_⟩
  · split
    · exact List.nodup_singleton _
    · show [configuredFieldsKey, dependsOnKey].Nodup
      decide
  · rintro name hmem other hother rfl
    obtain ⟨pair, hpair, rfl⟩ := List.mem_map.1 hother
    exact hnew _ (hreserved pair hpair) hmem

theorem Resource.Writable.get?_configured (h : resource.Writable registry) :
    Table.get? (statedPairs resource) configuredFieldsKey =
      some (.list (resource.configured.map Value.text)) :=
  Table.get?_of_mem h.distinct_pairs (List.mem_append_right _ List.mem_cons_self)

theorem Resource.Writable.get?_dependsOn (h : resource.Writable registry) :
    Table.get? (statedPairs resource) dependsOnKey =
      if resource.dependsOn.isEmpty then none
      else some (.list ((resource.dependsOn.map Key.text).map Value.text)) := by
  unfold statedPairs
  rw [Table.get?_append, h.get?_reserved (List.mem_cons_of_mem _ List.mem_cons_self), Option.none_or,
    Table.get?, if_neg (by decide)]
  split
  · rfl
  · rw [Table.get?, if_pos rfl]

/-- Without the reserved pairs the fields are left. -/
theorem Resource.Writable.same_ownFields (h : resource.Writable registry) :
    (ownFields .state (statedPairs resource)).Same resource.fields := by
  intro name
  have hdistinct := h.distinct_pairs
  unfold ownFields
  rw [if_pos rfl, Table.get?_erase (Table.distinct_erase hdistinct _), Table.get?_erase hdistinct]
  by_cases hdepends : dependsOnKey = name
  · rw [if_pos hdepends, ← hdepends]
    exact (h.get?_reserved (List.mem_cons_of_mem _ List.mem_cons_self)).symm
  · rw [if_neg hdepends]
    by_cases hconfigured : configuredFieldsKey = name
    · rw [if_pos hconfigured, ← hconfigured]
      exact (h.get?_reserved List.mem_cons_self).symm
    · rw [if_neg hconfigured]
      unfold statedPairs
      have hrest : Table.get? ((configuredFieldsKey,
          Value.list (resource.configured.map Value.text)) ::
          (if resource.dependsOn.isEmpty then []
            else [(dependsOnKey, Value.list ((resource.dependsOn.map Key.text).map Value.text))]))
          name = none := by
        rw [Table.get?, if_neg hconfigured]
        split
        · rfl
        · rw [Table.get?, if_neg hdepends]
          rfl
      rw [Table.get?_append, hrest, Option.or_none]

theorem textsOf_texts (texts : List String) : textsOf (.list (texts.map Value.text)) = texts := by
  show (texts.map Value.text).filterMap Value.asText? = texts
  rw [List.filterMap_map]
  exact List.filterMap_some

theorem Resource.Writable.dependencyTexts_eq (h : resource.Writable registry) :
    dependencyTexts .state (statedPairs resource) = resource.dependsOn.map Key.text := by
  unfold dependencyTexts
  rw [if_pos rfl, Table.get?_erase h.distinct_pairs, if_neg (by decide), h.get?_dependsOn]
  split
  · next hempty =>
    rw [List.isEmpty_iff.1 hempty]
    rfl
  · exact textsOf_texts _

theorem Resource.Writable.mem_setNames (h : resource.Writable registry) (schema : Schema)
    (name : String) :
    name ∈ setNames .state schema (statedPairs resource) ↔ name ∈ resource.configured := by
  unfold setNames
  rw [Sorted.mem_ofList, if_pos rfl, h.get?_configured, Option.map_some, Option.getD_some,
    textsOf_texts]

end Pairs

/-! ## Schema order -/

theorem get?_foldl_takeField_of_not_mem {schema : Schema} {taken left : Bindings} {name : String}
    (hname : name ∉ schema.map FieldSpec.name) :
    (schema.foldl takeField (taken, left)).1.get? name = taken.get? name := by
  induction schema generalizing taken left with
  | nil => rfl
  | cons spec rest ih =>
    rw [List.map_cons, List.mem_cons, not_or] at hname
    rw [List.foldl_cons, takeField]
    dsimp only
    split
    · rw [ih hname.2, Table.get?_set, if_neg (Ne.symm hname.1)]
    · exact ih hname.2

theorem get?_foldl_takeField_of_mem {schema : Schema} {taken left : Bindings} {name : String}
    (hschema : (schema.map FieldSpec.name).Nodup) (hleft : left.Distinct)
    (hname : name ∈ schema.map FieldSpec.name)
    (htaken : taken.get? name = none) :
    (schema.foldl takeField (taken, left)).1.get? name = left.get? name := by
  induction schema generalizing taken left with
  | nil => cases hname
  | cons spec rest ih =>
    rw [List.map_cons, List.nodup_cons] at hschema
    rw [List.map_cons, List.mem_cons] at hname
    rw [List.foldl_cons, takeField]
    dsimp only
    rcases hname with rfl | hname
    · -- the field is taken here, and no later one has its name
      split
      · next value hvalue =>
        rw [get?_foldl_takeField_of_not_mem hschema.1, Table.get?_set_self, hvalue]
      · next hvalue => rw [get?_foldl_takeField_of_not_mem hschema.1, htaken, hvalue]
    · have hne : spec.name ≠ name := fun heq => hschema.1 (heq ▸ hname)
      split
      · have htaken' (value : Value) : (Table.set taken spec.name value).get? name = none := by
          rw [Table.get?_set, if_neg hne, htaken]
        rw [ih hschema.2 (Table.distinct_erase hleft _) hname (htaken' _), Table.get?_erase hleft,
          if_neg hne]
      · exact ih hschema.2 hleft hname htaken

/-- In schema order no field is lost when all are fields of the schema. -/
theorem same_inSchemaOrder {schema : Schema} {fields : Bindings}
    (hschema : (schema.map FieldSpec.name).Nodup) (hfields : fields.Distinct)
    (hin : ∀ name ∈ fields.keys, name ∈ schema.map FieldSpec.name) :
    (inSchemaOrder schema fields).Same fields := by
  intro name
  rw [inSchemaOrder_eq]
  by_cases hname : name ∈ schema.map FieldSpec.name
  · exact get?_foldl_takeField_of_mem hschema hfields hname rfl
  · have hnone : fields.get? name = none := by
      rw [← Option.not_isSome_iff_eq_none, ← Table.mem_keys_iff]
      exact fun hmem => hname (hin name hmem)
    rw [get?_foldl_takeField_of_not_mem hname, hnone, Table.get?_nil]

theorem exists_field?_of_mem {schema : Schema} {name : String}
    (h : name ∈ schema.map FieldSpec.name) :
    ∃ spec, schema.field? name = some spec := by
  obtain ⟨spec, hspec, rfl⟩ := List.mem_map.1 h
  exact Option.isSome_iff_exists.1 (List.find?_isSome.2 ⟨spec, hspec, decide_eq_true rfl⟩)

/-! ## Recorded resources are made again -/

section Restored

variable {registry : Registry} {resource : Resource}

/-- Handles in the pairs of a block are handles in the fields of the resource. -/
theorem handles_statedPairs {key : Key} :
    (∃ pair ∈ statedPairs resource, key ∈ pair.2.handles) ↔
      ∃ field ∈ resource.fields, key ∈ field.2.handles := by
  constructor
  · rintro ⟨pair, hpair, hkey⟩
    rcases mem_statedPairs hpair with hfield | ⟨texts, htexts⟩
    · exact ⟨pair, hfield, hkey⟩
    · rw [htexts, Value.handles, Value.handlesOfItems_eq, List.flatMap_map] at hkey
      obtain ⟨text, -, hnone⟩ := List.mem_flatMap.1 hkey
      cases hnone
  · rintro ⟨field, hfield, hkey⟩
    exact ⟨field, List.mem_append_left _ hfield, hkey⟩

/-- The pairs of the block of a resource are made into that resource again. -/
theorem Resource.Writable.finish (h : resource.Writable registry) (undeclared : List TypeName)
    (origin : Span) {reads : List Key}
    (hreads : ∀ key, key ∈ reads ↔ ∃ pair ∈ statedPairs resource, key ∈ pair.2.handles) :
    ∃ restored, finishResource ⟨.state, none, undeclared⟩ resource.key resource.type origin
        ⟨statedPairs resource, some resource.credentials, reads⟩ = .ok restored ∧
      restored.key = resource.key ∧ restored.content = resource.content ∧
      restored.declaration = none := by
  have hown := distinct_ownFields .state h.distinct_pairs
  have hsame := h.same_ownFields
  have hin : ∀ name ∈ (ownFields .state (statedPairs resource)).keys,
      name ∈ resource.type.schema.map FieldSpec.name := by
    intro name hname
    obtain ⟨value, hvalue⟩ := Table.mem_keys.1 ((hsame.mem_keys name).1 hname)
    exact (h.fields _ hvalue).1
  have hcheck : checkFields .state resource.type.schema resource.key origin
      (ownFields .state (statedPairs resource)) = .ok () := by
    rw [checkFields_ok_iff]
    intro name hname
    obtain ⟨spec, hspec⟩ := exists_field?_of_mem (hin name hname)
    exact ⟨spec, hspec, Bool.and_false _⟩
  have hrecorded : recordedKeys origin (dependencyTexts .state (statedPairs resource)) =
      .ok resource.dependsOn := by
    rw [h.dependencyTexts_eq]
    exact recordedKeys_texts h.dependsOn
  refine ⟨_, finishResource_ok_iff.2 ⟨resource.dependsOn, hrecorded, hcheck, nofun, rfl⟩, rfl, ?_, rfl⟩
  unfold Resource.content finished
  dsimp only
  congr 1
  · funext name
    show (inSchemaOrder resource.type.schema (ownFields .state (statedPairs resource))).get? name =
      Table.get? resource.fields name
    rw [same_inSchemaOrder h.schema hown hin name, hsame name]
  · funext name
    exact propext (h.mem_setNames _ name)
  · funext key
    refine propext ?_
    have hfield : key ∈ (ownFields .state (statedPairs resource)).values.flatMap Value.handles →
        ∃ field ∈ resource.fields, key ∈ field.2.handles := by
      intro hmem
      obtain ⟨name, value, hget, hkey⟩ := (mem_handles hown).1 hmem
      rw [hsame name] at hget
      exact ⟨(name, value), Table.mem_of_get? hget, hkey⟩
    rw [Sorted.mem_erase, Sorted.mem_union, Sorted.mem_union, hreads, handles_statedPairs]
    constructor
    · rintro ⟨(hread | hmem) | hmem, -⟩
      · obtain ⟨field, hfield, hkey⟩ := hread
        exact h.handles field hfield key hkey
      · exact hmem
      · obtain ⟨field, hfield, hkey⟩ := hfield hmem
        exact h.handles field hfield key hkey
    · intro hmem
      refine ⟨Or.inl (Or.inr hmem), ?_⟩
      rintro rfl
      exact h.own hmem

end Restored

/-! ## What the block of a recorded resource does -/

/-- How recorded state is evaluated. -/
def stateSetup : EvaluationSetup :=
  ⟨.state, none, instanceDepth⟩

section Blocks

variable {inventory : Inventory} {resource : Resource} {node : Node} {p : Progress}

/-- What the fields of a recorded resource refer to can be named. -/
theorem Inventory.Writable.names_statedPairs (h : inventory.Writable)
    (hresource : resource ∈ inventory.resources) {pair : String × Value}
    (hpair : pair ∈ statedPairs resource) :
    inventory.registry.Names pair.2 := by
  have hfields := h.names resource hresource
  constructor
  · intro key hkey
    obtain ⟨field, hfield, hhandle⟩ := handles_statedPairs.1 ⟨pair, hpair, hkey⟩
    exact (hfields field hfield).nameable key hhandle
  · intro key hkey
    obtain ⟨field, hfield, hhandle⟩ := handles_statedPairs.1 ⟨pair, hpair, hkey⟩
    exact (hfields field hfield).registered key hhandle

/-- All resources that the fields of a resource refer to are known. -/
def Resource.Ready (resource : Resource) (inventory : Inventory) : Prop :=
  ∀ field ∈ resource.fields, ∀ key ∈ field.2.handles, inventory.has key = true

theorem Resource.ready_iff {known : Inventory} :
    resource.Ready known ↔ ∀ pair ∈ statedPairs resource, pair.2.Known known := by
  constructor
  · intro h pair hpair key hkey
    obtain ⟨field, hfield, hhandle⟩ := handles_statedPairs.1 ⟨pair, hpair, hkey⟩
    exact h field hfield key hhandle
  · exact fun h field hfield => h field (List.mem_append_left _ hfield)

theorem recordedKey_run (h : inventory.Writable) (hresource : resource ∈ inventory.resources)
    (span : Span) (p : Progress) :
    (Step.settled (keyAt span resource.type.name (qualify none resource.key.name))).run p =
      (.ok resource.key, p) := by
  have hwrites := h.resources resource hresource
  have hmake : keyAt span resource.key.type resource.key.name = .ok resource.key :=
    keyAt_of_make hwrites.nameable.make
  rw [h.named _ _ hwrites.type_eq, qualify, hmake]
  rfl

/-- The block of a recorded resource runs the body that states it. -/
theorem recordedBlock_run (h : inventory.Writable) (hresource : resource ∈ inventory.resources)
    (hbare : node.bare = (resourceNode resource).bare)
    (hregistry : p.inventory.registry = inventory.registry)
    (hvirtuals : p.inventory.virtuals = []) (file : Nat) (undeclared : List TypeName) :
    ∃ source span, StatesBody (statedPairs resource) resource.credentials source ∧
      (runStatement (stateSetup.evaluator undeclared) node { file := file }).run p =
        (declareResource (stateSetup.evaluator undeclared) { file := file } resource.type
          resource.key.name source span
          (runMarked (stateSetup.evaluator undeclared) source (bodyFrame file))).run p := by
  have hwrites := h.resources resource hresource
  rw [resourceNode_eq, Node.bare, bareNodes_eq_map] at hbare
  obtain ⟨name, source, span, rfl, hname, hsource⟩ := Node.eq_resource_of_bare hbare
  obtain rfl := Node.eq_text_of_bare hname
  refine ⟨source, span, ⟨hsource, hwrites.distinct_pairs, fun pair => hwrites.pairs⟩, ?_⟩
  exact resource_run hvirtuals resource.key.type.ofText_text (hregistry ▸ hwrites.type_eq) rfl

/-- The block of a recorded resource adds the resource again when all others in it are known. -/
theorem recordedBlock_done (h : inventory.Writable) (hresource : resource ∈ inventory.resources)
    (hbare : node.bare = (resourceNode resource).bare)
    (hregistry : p.inventory.registry = inventory.registry)
    (hvirtuals : p.inventory.virtuals = []) (hready : resource.Ready p.inventory)
    (hdeclared : Table.get? p.declared resource.key = none)
    (hunknown : p.inventory.resource? resource.key = none) (file : Nat)
    (undeclared : List TypeName) :
    ∃ restored, (runStatement (stateSetup.evaluator undeclared) node { file := file }).run p =
        (.ok (), p.adding file restored) ∧
      restored.key = resource.key ∧ restored.content = resource.content := by
  have hwrites := h.resources resource hresource
  obtain ⟨source, span, hstates, hrun⟩ :=
    recordedBlock_run h hresource hbare hregistry hvirtuals file undeclared
  obtain ⟨reads, hbody, hreads⟩ := recordedBody_done (stateSetup.evaluator undeclared) file hstates
    (fun pair hpair => hregistry ▸ h.names_statedPairs hresource hpair) (Resource.ready_iff.1 hready)
  obtain ⟨restored, hfinish, hkey, hcontent, hdeclaration⟩ :=
    hwrites.finish undeclared span hreads
  -- the body's own frame differs from that of the block only in what bodies do not look at
  have hbody' : (resourceBody { file := file }
      (runMarked (stateSetup.evaluator undeclared) source (bodyFrame file))).run p =
        (.ok ⟨statedPairs resource, some resource.credentials, reads⟩, p) := hbody
  have hsettled : (Step.settled (finishResource (stateSetup.evaluator undeclared).setting
      resource.key resource.type span ⟨statedPairs resource, some resource.credentials, reads⟩)).run
      p = (.ok restored, p) := by
    rw [setting_evaluator, settled_run]
    dsimp only [stateSetup]
    rw [hfinish]
  have hmode : (stateSetup.evaluator undeclared).setting.mode = .state := by
    rw [setting_evaluator]
    rfl
  refine ⟨{ restored with declaration := none }, ?_, hkey, hcontent⟩
  rw [hrun]
  unfold declareResource
  rw [run_bind_ok (recordedKey_run h hresource span p), run_bind_ok hbody', run_bind_ok hsettled, run_bind_ok (run_get p), hmode]
  exact register_run (by rw [← hkey] at hdeclared; exact hdeclared) (by rw [← hkey] at hunknown; exact hunknown) rfl

/-- The block of a recorded resource waits while another in it is not known. -/
theorem recordedBlock_waits (h : inventory.Writable) (hresource : resource ∈ inventory.resources)
    (hbare : node.bare = (resourceNode resource).bare)
    (hregistry : p.inventory.registry = inventory.registry)
    (hvirtuals : p.inventory.virtuals = []) (hready : ¬ resource.Ready p.inventory)
    (file : Nat) (undeclared : List TypeName) :
    ∃ reasons, (runStatement (stateSetup.evaluator undeclared) node { file := file }).run p =
      (.error (.deferred reasons), p) := by
  have hwrites := h.resources resource hresource
  obtain ⟨source, span, hstates, hrun⟩ :=
    recordedBlock_run h hresource hbare hregistry hvirtuals file undeclared
  have hunknown : ∃ pair ∈ statedPairs resource, ¬ pair.2.Known p.inventory := by
    rw [Resource.ready_iff] at hready
    push Not at hready
    exact hready
  obtain ⟨reasons, hbody⟩ := recordedBody_waits (stateSetup.evaluator undeclared) file hstates
    (fun pair hpair => hregistry ▸ h.names_statedPairs hresource hpair) hunknown
  refine ⟨reasons, ?_⟩
  rw [hrun]
  unfold declareResource
  rw [run_bind_ok (recordedKey_run h hresource span p)]
  exact run_bind_error hbody

end Blocks

end Provision

import Provision.Proofs.Evaluation.Layers

/-!
# Evaluated resources are well-formed

A resource that an evaluation comes to has fields of its type alone, in the order of
the schema, all that have to be set among them, and it depends on what its fields
refer to.  This is checked when its body is finished.  That everything it depends on
is there needs an invariant of the whole evaluation: whatever the scopes hold and
bodies have read is registered, and what is registered stays.
-/

namespace Provision

open Provision.Language (Node SourceFile)

/-- The fields of a resource are those that its type allows and demands. -/
structure Resource.Wellformed (resource : Resource) : Prop where
  ordered : (Table.keys resource.fields).Sublist (resource.type.schema.map FieldSpec.name)
  configured : ∀ name, name ∈ resource.configured ↔ name ∈ Table.keys resource.fields
  inputs : ∀ spec ∈ resource.type.schema, spec.name ∈ resource.configured → spec.output = false
  required : ∀ spec ∈ resource.type.schema, spec.nullable = false → spec.output = false →
    spec.name ∈ Table.keys resource.fields
  apart : resource.key ∉ resource.dependsOn

/-! ## Finished bodies -/

/-- Erasing a key leaves the look-ups of others alone. -/
theorem Table.get?_erase_of_ne {κ ν : Type} [DecidableEq κ] {table : Table κ ν} {key other : κ}
    (h : key ≠ other) :
    (table.erase key).get? other = table.get? other := by
  induction table with
  | nil => rfl
  | cons pair rest ih =>
    obtain ⟨k, v⟩ := pair
    rw [erase]
    split
    · next hk => rw [get?, if_neg (hk ▸ h)]
    · rw [get?, get?, ih]

section Finishing

variable {schema : Schema} {taken left : Bindings}

/-- The fields of a schema that are set are taken in its order. -/
theorem keys_foldl_takeField (hschema : (schema.map FieldSpec.name).Nodup)
    (htaken : ∀ name ∈ schema.map FieldSpec.name, name ∉ Table.keys taken) :
    Table.keys (schema.foldl takeField (taken, left)).1 =
      Table.keys taken ++ (schema.map FieldSpec.name).filter fun name => Table.has left name := by
  induction schema generalizing taken left with
  | nil => exact (List.append_nil _).symm
  | cons spec rest ih =>
    rw [List.map_cons, List.nodup_cons] at hschema
    have hnew : spec.name ∉ Table.keys taken := htaken _ List.mem_cons_self
    have hlater : ∀ name ∈ rest.map FieldSpec.name, name ∉ Table.keys taken :=
      fun name hname => htaken name (List.mem_cons_of_mem _ hname)
    rw [List.foldl_cons, takeField, List.map_cons]
    dsimp only
    split
    · next value hvalue =>
      have hhas : Table.has left spec.name = true := by
        rw [Table.has, hvalue]
        rfl
      have hset : Table.keys (Table.set taken spec.name value) = Table.keys taken ++ [spec.name] := by
        rw [Table.keys_set, if_neg hnew]
      have hrest : ∀ name ∈ rest.map FieldSpec.name,
          Table.has (Table.erase left spec.name) name = Table.has left name := by
        intro name hname
        have hne : spec.name ≠ name := fun heq => hschema.1 (heq ▸ hname)
        rw [Table.has, Table.has, Table.get?_erase_of_ne hne]
      rw [ih hschema.2, hset, List.filter_cons_of_pos hhas, List.filter_congr hrest,
        List.append_assoc, List.singleton_append]
      intro name hname
      rw [hset, List.mem_append, List.mem_singleton]
      rintro (hmem | rfl)
      · exact hlater name hname hmem
      · exact hschema.1 hname
    · next hnone =>
      have hhas : ¬ Table.has left spec.name = true := by
        rw [Table.has, hnone]
        exact Bool.false_ne_true
      rw [ih hschema.2 hlater, List.filter_cons_of_neg hhas]

/-- Schema order keeps the names of the schema that are set. -/
theorem keys_inSchemaOrder (hschema : (schema.map FieldSpec.name).Nodup) (fields : Bindings) :
    Table.keys (inSchemaOrder schema fields) =
      (schema.map FieldSpec.name).filter fun name => Table.has fields name := by
  rw [inSchemaOrder_eq, keys_foldl_takeField hschema fun _ _ => List.not_mem_nil]
  exact List.nil_append _

/-- All fields that are set are inputs of the schema. -/
def Schema.Takes (schema : Schema) (fields : Bindings) : Prop :=
  ∀ name ∈ Table.keys fields, ∃ spec ∈ schema, spec.name = name ∧
    schema.field? name = some spec ∧ spec.output = false

theorem takes_of_checkFields {fields : Bindings} {key : Key} {origin : Span}
    (h : checkFields .configuration schema key origin fields = .ok ()) :
    schema.Takes fields := by
  intro name hname
  obtain ⟨spec, hfound, houtput⟩ := (checkFields_ok_iff _ _ _ _ _).1 h name hname
  refine ⟨spec, List.mem_of_find?_eq_some hfound, ?_, hfound, ?_⟩
  · simpa using List.find?_some hfound
  · simpa using houtput

theorem Schema.Takes.mem_keys_inSchemaOrder {fields : Bindings} (h : schema.Takes fields)
    (hschema : (schema.map FieldSpec.name).Nodup) (name : String) :
    name ∈ Table.keys (inSchemaOrder schema fields) ↔ name ∈ Table.keys fields := by
  rw [keys_inSchemaOrder hschema, List.mem_filter, Table.mem_keys_iff]
  refine and_iff_right_of_imp fun hset => ?_
  obtain ⟨spec, hspec, rfl, -⟩ := h name (Table.mem_keys_iff.2 hset)
  exact List.mem_map_of_mem hspec

theorem Schema.Takes.mem_inputNames {fields : Bindings} (h : schema.Takes fields)
    (name : String) :
    name ∈ inputNames schema fields ↔ name ∈ Table.keys fields := by
  rw [inputNames, List.mem_filter]
  refine and_iff_left_of_imp fun hname => ?_
  obtain ⟨spec, -, -, hfound, houtput⟩ := h name hname
  rw [hfound]
  simpa using houtput

/-- What a body is made into in configuration is well-formed when nothing is filled in. -/
theorem wellformed_of_finishResource {setting : Setting} (hmode : setting.mode = .configuration)
    (hcurrent : setting.current = none) {key : Key} {type : ResourceType} {origin : Span}
    {body : EvaluatedBody} {resource : Resource}
    (hschema : (type.schema.map FieldSpec.name).Nodup)
    (h : finishResource setting key type origin body = .ok resource) :
    resource.Wellformed := by
  obtain ⟨recorded, -, hcheck, hmissing, rfl⟩ := finishResource_ok_iff.1 h
  have hown : ownFields setting.mode body.fields = body.fields := by
    rw [ownFields, hmode, if_neg (by decide)]
  have hfilled : filledFields setting key type.schema body.fields = body.fields := by
    rw [filledFields, hown, hcurrent]
    rfl
  rw [hown, hmode] at hcheck
  have htakes := takes_of_checkFields hcheck
  have hkeys := htakes.mem_keys_inSchemaOrder hschema
  have hconfigured : ∀ name, name ∈ setNames setting.mode type.schema body.fields ↔
      name ∈ Table.keys body.fields := by
    intro name
    rw [setNames, hown, hmode, if_neg (by decide), Option.getD_none, Sorted.mem_ofList,
      htakes.mem_inputNames]
  refine ⟨?_, fun name => ?_, fun spec hmem hname => ?_, fun spec hmem hnullable houtput => ?_, ?_⟩
  · show (Table.keys (inSchemaOrder type.schema _)).Sublist _
    rw [keys_inSchemaOrder hschema]
    exact List.filter_sublist
  · show _ ↔ name ∈ Table.keys (inSchemaOrder type.schema _)
    rw [hfilled, hkeys]
    exact hconfigured name
  · obtain ⟨other, hother, hsame, -, houtput⟩ := htakes spec.name ((hconfigured _).1 hname)
    have heq : other = spec := List.inj_on_of_nodup_map hschema hother hmem hsame
    exact heq ▸ houtput
  · show spec.name ∈ Table.keys (inSchemaOrder type.schema _)
    rw [hfilled, hkeys]
    have hset := List.find?_eq_none.1 (hmissing hmode) spec hmem
    rw [hfilled, hnullable, houtput] at hset
    exact Table.mem_keys_iff.2 (by simpa [Table.has, Option.isSome_iff_ne_none] using hset)
  · show key ∉ Sorted.erase key _
    rw [Sorted.mem_erase]
    exact fun hmem => hmem.2 rfl

end Finishing

/-! ## What is there -/

/-- The inventory has all of the keys. -/
def Inventory.HasAll (inventory : Inventory) (keys : List Key) : Prop :=
  ∀ key ∈ keys, inventory.has key = true

/-- Every resource is well-formed and rests on others that are there, in one of so many files. -/
structure Inventory.Sturdy (count : Nat) (inventory : Inventory) : Prop where
  founded : inventory.Founded
  formed : ∀ key resource, inventory.resource? key = some resource → resource.Wellformed
  schemas : ∀ name type, inventory.registry.type? name = some type →
    (type.schema.map FieldSpec.name).Nodup
  length : inventory.files.length = count

section Sturdy

variable {inventory : Inventory} {count file : Nat} {keys others : List Key} {resource : Resource}

theorem Inventory.HasAll.append (h : inventory.HasAll keys) (hothers : inventory.HasAll others) :
    inventory.HasAll (keys ++ others) :=
  fun key hkey => (List.mem_append.1 hkey).elim (h key) (hothers key)

theorem Inventory.HasAll.of_subset (h : inventory.HasAll keys) (hsubset : others ⊆ keys) :
    inventory.HasAll others :=
  fun key hkey => h key (hsubset hkey)

theorem Inventory.HasAll.insertAt (h : inventory.HasAll keys) (hinventory : inventory.Sturdy count)
    (hroom : file < count) :
    (inventory.insertAt file resource).HasAll keys :=
  fun key hkey => (has_insertAt hinventory.founded.oneHome.distinct (hinventory.length ▸ hroom)
    resource key).2 (Or.inr (h key hkey))

theorem Inventory.Sturdy.insertAt (h : inventory.Sturdy count) (hroom : file < count)
    (hrests : resource.RestsOn inventory) (hformed : resource.Wellformed) :
    (inventory.insertAt file resource).Sturdy count where
  founded := h.founded.insertAt (h.length ▸ hroom) hrests
  formed key found hfound := by
    rw [resource?_insertAt h.founded.oneHome.distinct (h.length ▸ hroom)] at hfound
    split at hfound
    · cases hfound
      exact hformed
    · exact h.formed key found hfound
  schemas := h.schemas
  length := (length_insertAt inventory file resource).trans h.length

end Sturdy

/-- What the scope and the reads hold is there. -/
structure Progress.Grounded (count : Nat) (p : Progress) : Prop where
  sturdy : p.inventory.Sturdy count
  scope : p.inventory.HasAll p.scope.handles
  reads : p.inventory.HasAll p.reads

theorem Progress.Grounded.beside {count : Nat} {p : Progress} (h : p.Grounded count) :
    (Comparison.diagonal p.inventory).Beside p p :=
  ⟨rfl, rfl, rfl, rfl, rfl, h.scope, h.reads⟩

namespace Step

variable {α β : Type} {count : Nat} {kept given more : List Key}
variable {held : α → List Key} {held' : β → List Key}

/-- When what is kept and given is there, the step leaves everything there and comes to something
that holds what is there. -/
structure GroundsAt (count : Nat) (held : α → List Key) (step : Step α) (p : Progress) : Prop where
  grounded : (step.run p).2.Grounded count
  grown : ∀ key, p.inventory.has key = true → (step.run p).2.inventory.has key = true
  held : ∀ a, (step.run p).1 = .ok a → (step.run p).2.inventory.HasAll (held a)

/-- Wherever what is kept and given is there, the step leaves everything there. -/
def Grounds (count : Nat) (kept given : List Key) (held : α → List Key) (step : Step α) : Prop :=
  ∀ p, p.Grounded count → p.inventory.HasAll kept → p.inventory.HasAll given →
    step.GroundsAt count held p

theorem grounds_pure {a : α} (h : held a ⊆ kept ++ given) :
    (pure a : Step α).Grounds count kept given held := by
  refine fun p hp hkept hgiven => ⟨hp, fun _ hkey => hkey, ?_⟩
  rintro _ ⟨⟩
  exact (hkept.append hgiven).of_subset h

theorem grounds_throw (interrupt : Interrupt) :
    (throw interrupt : Step α).Grounds count kept given held :=
  fun _ hp _ _ => ⟨hp, fun _ hkey => hkey, nofun⟩

theorem GroundsAt.bind {m : Step α} {f : α → Step β} {p : Progress} (hm : m.GroundsAt count held p)
    (hf : ∀ a q, m.run p = (.ok a, q) → q.Grounded count →
      (∀ key, p.inventory.has key = true → q.inventory.has key = true) →
        q.inventory.HasAll (held a) → (f a).GroundsAt count held' q) :
    (m >>= f).GroundsAt count held' p := by
  have hgrounded := hm.grounded
  have hgrown := hm.grown
  have hheld := hm.held
  cases hrun : m.run p with
  | mk outcome q =>
    rw [hrun] at hgrounded hgrown hheld
    rcases outcome with i | a
    · refine ⟨?_, ?_, ?_⟩ <;> rw [run_bind_error hrun]
      · exact hgrounded
      · exact hgrown
      · exact nofun
    · have hnext := hf a q hrun hgrounded hgrown (hheld a rfl)
      refine ⟨?_, ?_, ?_⟩ <;> rw [run_bind_ok hrun]
      · exact hnext.grounded
      · exact fun key hkey => hnext.grown key (hgrown key hkey)
      · exact hnext.held

theorem groundsAt_get {f : Progress → Step α} {p : Progress} (h : (f p).GroundsAt count held p) :
    (get >>= f).GroundsAt count held p := by
  refine ⟨?_, ?_, ?_⟩ <;> rw [run_bind_ok (run_get p)]
  · exact h.grounded
  · exact h.grown
  · exact h.held

theorem Grounds.bind {m : Step α} {f : α → Step β} (hm : m.Grounds count kept given held)
    (hf : ∀ a p q, m.run p = (.ok a, q) → (f a).Grounds count kept (held a ++ given) held') :
    (m >>= f).Grounds count kept given held' := by
  intro p hp hkept hgiven
  refine (hm p hp hkept hgiven).bind fun a q hrun hq hgrown hheld => ?_
  exact hf a p q hrun q hq (fun key hkey => hgrown key (hkept key hkey))
    (hheld.append fun key hkey => hgrown key (hgiven key hkey))

theorem Grounds.of_subset {step : Step α} (h : step.Grounds count kept given held)
    (hmore : given ⊆ more) :
    step.Grounds count kept more held :=
  fun p hp hkept hgiven => h p hp hkept (hgiven.of_subset hmore)

/-- A step that comes to the same beside itself holds only what is there. -/
theorem grounds_of_twin {step : Step α}
    (h : ∀ inventory : Inventory, inventory.Founded →
      step.Twin (Comparison.diagonal inventory) given held) :
    step.Grounds count kept given held := by
  intro p hp _ hgiven
  have htwin := h p.inventory hp.sturdy.founded
  have hinventory := htwin.quiet.inventory p
  rcases htwin.alike p p hp.beside hgiven with hlost | ⟨-, hafter, hheld⟩
  · exact absurd hlost not_lost_diagonal
  · refine ⟨⟨?_, ?_, ?_⟩, ?_, ?_⟩ <;> rw [hinventory]
    · exact hp.sturdy
    · exact hafter.held
    · exact hafter.read
    · exact fun _ hkey => hkey
    · exact hheld

theorem grounds_settled {outcome : Except EvalError α} :
    (Step.settled outcome).Grounds count kept given fun _ => [] := by
  cases outcome with
  | ok a => exact grounds_pure (List.nil_subset _)
  | error e => exact grounds_throw _

theorem Grounds.inScope {step : Step Unit} (h : step.Grounds count kept given fun _ => [])
    (enter : Scope → Scope)
    (henter : ∀ scope, (enter scope).handles ⊆ given ++ scope.handles) :
    (Step.inScope enter step).Grounds count kept given Scope.handles := by
  intro p hp hkept hgiven
  have hscope : p.inventory.HasAll (enter p.scope).handles :=
    (hgiven.append hp.scope).of_subset (henter p.scope)
  have hstep := h { p with scope := enter p.scope } ⟨hp.sturdy, hscope, hp.reads⟩ hkept hgiven
  refine ⟨?_, ?_, ?_⟩ <;> rw [inScope_run]
  · exact ⟨hstep.grounded.sturdy, fun key hkey => hstep.grown key (hp.scope key hkey),
      hstep.grounded.reads⟩
  · exact hstep.grown
  · intro scope hrun
    cases houtcome : (step.run { p with scope := enter p.scope }).1 with
    | error i =>
      rw [houtcome] at hrun
      cases hrun
    | ok done =>
      rw [houtcome] at hrun
      cases hrun
      exact hstep.grounded.scope

/-- A body that is collected also tells what it read. -/
theorem Grounds.collecting {step : Step α} (h : step.Grounds count kept given held) :
    (Step.collecting step).Grounds count kept given fun found => held found.1 ++ found.2.1 := by
  intro p hp hkept hgiven
  have hstep := h { p with reads := [], credentials := none } ⟨hp.sturdy, hp.scope, nofun⟩ hkept
    hgiven
  refine ⟨?_, ?_, ?_⟩ <;> rw [collecting_run]
  · exact ⟨hstep.grounded.sturdy, hstep.grounded.scope,
      fun key hkey => hstep.grown key (hp.reads key hkey)⟩
  · exact hstep.grown
  · intro found hrun
    cases houtcome : (step.run { p with reads := [], credentials := none }).1 with
    | error i =>
      rw [houtcome] at hrun
      cases hrun
    | ok a =>
      rw [houtcome] at hrun
      cases hrun
      exact (hstep.held a houtcome).append hstep.grounded.reads

/-- Composition leaves everything there. -/
theorem composes_grounds :
    Composes (fun _ => True) fun given held step => step.Grounds count kept given held where
  pure _ h := grounds_pure (List.subset_append_of_subset_right _ h)
  fail _ _ error _ := grounds_throw (.failed error)
  waits _ _ reasons := grounds_throw (.deferred reasons)
  bind := Grounds.bind
  mono hmore h := h.of_subset hmore
  evaluating _ e frame span node _ := grounds_of_twin fun _ hfounded =>
    (composes_twin hfounded.diagonal).evaluating _ e frame span (diagonal_reads node)
  naming _ e frame span node _ := grounds_of_twin fun _ hfounded =>
    (composes_twin hfounded.diagonal).naming _ e frame span (diagonal_reads node)
  extending d _ hvalue := grounds_of_twin fun _ hfounded =>
    (composes_twin hfounded.diagonal).extending d hvalue
  bindings change hchange hneat := grounds_of_twin fun _ hfounded =>
    (composes_twin hfounded.diagonal).bindings change hchange hneat
  credentials _ name := grounds_of_twin fun _ hfounded =>
    (composes_twin hfounded.diagonal).credentials _ name
  tried {given step} h := by
    intro p hp hkept hgiven
    have hstep := h p hp hkept hgiven
    refine ⟨?_, ?_, fun _ _ => nofun⟩ <;> rw [tried_state]
    · exact hstep.grounded
    · exact hstep.grown
  inScope enter henter h := h.inScope enter henter

end Step

/-! ## Statements -/

section Statements

variable {count : Nat} {kept : List Key} {setting : Setting} {e : Evaluator} {frame : Frame}

theorem resourceBody_grounds (hinherited : frame.inherited ⊆ kept) {steps : List (Bool × Step Unit)}
    (hsteps : ∀ step ∈ steps, step.2.Grounds count kept [] fun _ => []) :
    (resourceBody frame steps).Grounds count kept [] fun body =>
      Value.handlesOfEntries body.fields ++ body.reads := by
  have htried : ∀ step ∈ (steps.filter fun step => !step.1).map Prod.snd ++
      (steps.filter fun step => step.1).map Prod.snd, step.Grounds count kept [] fun _ => [] := by
    intro step hstep
    obtain ⟨marked, hmarked, rfl⟩ := Step.mem_marked hstep
    exact hsteps marked hmarked
  unfold resourceBody
  refine (Step.composes_grounds.assembles.inChild htried).collecting.bind ?_
  rintro ⟨scope, reads, credentials⟩ _ _ _
  refine Step.grounds_pure fun key hkey => ?_
  simp only [List.append_nil, List.mem_append]
  rcases List.mem_append.1 hkey with hkey | hkey
  · exact Or.inr (Or.inl (Scope.handles_fields scope hkey))
  · exact (Sorted.mem_union.1 hkey).elim (fun hread => Or.inr (Or.inr hread))
      fun hkey => Or.inl (hinherited hkey)

theorem register_grounds {p : Progress} (hp : p.Grounded count) (hroom : frame.file < count)
    {resource : Resource} (hrests : resource.RestsOn p.inventory) (hformed : resource.Wellformed) :
    (register frame resource).GroundsAt count (fun _ => []) p := by
  have hdistinct := hp.sturdy.founded.oneHome.distinct
  have hindex : frame.file < p.inventory.files.length := hp.sturdy.length ▸ hroom
  have hgrown : ∀ key, p.inventory.has key = true →
      (p.inventory.insertAt frame.file resource).has key = true :=
    fun key hkey => (Inventory.has_insertAt hdistinct hindex resource key).2 (Or.inr hkey)
  cases hclash : p.clash ⟨frame.site, resource.origin⟩ resource.key with
  | some first =>
    refine ⟨?_, ?_, fun _ _ => nofun⟩ <;> rw [register_run_eq, hclash]
    · exact hp
    · exact fun _ hkey => hkey
  | none =>
    refine ⟨?_, ?_, fun _ _ => nofun⟩ <;> rw [register_run_eq, hclash]
    · exact ⟨hp.sturdy.insertAt hroom hrests hformed,
        fun key hkey => hgrown key (hp.scope key hkey),
        fun key hkey => hgrown key (hp.reads key hkey)⟩
    · exact hgrown

theorem declareResource_grounds (hmode : e.setting.mode = .configuration)
    (hcurrent : e.setting.current = none) (hinherited : frame.inherited ⊆ kept)
    (hroom : frame.file < count) {type : ResourceType}
    (hschema : (type.schema.map FieldSpec.name).Nodup) (name : String) (source : List Node)
    (span : Span) {steps : List (Bool × Step Unit)}
    (hsteps : ∀ step ∈ steps, step.2.Grounds count kept [] fun _ => []) :
    (declareResource e frame type name source span steps).Grounds count kept [] fun _ => [] := by
  unfold declareResource
  refine Step.grounds_settled.bind fun key _ _ _ => ?_
  refine (resourceBody_grounds hinherited hsteps).bind fun body _ _ _ => ?_
  refine Step.grounds_settled.bind fun resource _ _ hmade => ?_
  have hmade := (Step.settled_run_eq_ok.1 hmade).1
  intro p hp _ hgiven
  have hbody : p.inventory.HasAll (Value.handlesOfEntries body.fields ++ body.reads) :=
    hgiven.of_subset fun key hkey => List.mem_append_right _ (List.mem_append_left _ hkey)
  have hrests : resource.RestsOn p.inventory := by
    refine restsOn_of_finishResource ⟨hmode, fun current hsome => ?_⟩ hmade
      (fun key hkey => hbody key (List.mem_append_right _ hkey))
      fun key hkey => hbody key (List.mem_append_left _ hkey)
    rw [hcurrent] at hsome
    cases hsome
  have hformed := wellformed_of_finishResource hmode hcurrent hschema hmade
  refine Step.groundsAt_get (register_grounds hp hroom ?_ ?_)
  · exact ⟨hrests.there, hrests.fields⟩
  · exact ⟨hformed.ordered, hformed.configured, hformed.inputs, hformed.required, hformed.apart⟩

theorem instantiate_grounds (template : VirtualType) (name : String) (span : Span)
    {steps : List (Step Unit)}
    (hsteps : ∀ step ∈ steps, step.Grounds count kept [] fun _ => [])
    (hexpand : ∀ reads, (e.expand template (frame.below name span reads) span).Grounds count
      (kept ++ reads) [] fun _ => []) :
    (instantiate e frame template name span steps).Grounds count kept [] fun _ => [] := by
  unfold instantiate
  refine (Step.composes_grounds.assembles.inChild hsteps).collecting.bind ?_
  rintro ⟨arguments, reads, credentials⟩ _ _ _
  dsimp only
  split
  · exact Step.grounds_throw _
  · split
    · exact Step.grounds_throw _
    · intro p hp hkept hgiven
      have hreads : p.inventory.HasAll reads := hgiven.of_subset fun key hkey =>
        List.mem_append_left _ (List.mem_append_right _ hkey)
      have hvalues : p.inventory.HasAll (Scope.withValues arguments.values).handles := by
        rw [Scope.handles_withValues]
        exact hgiven.of_subset fun key hkey => List.mem_append_left _
          (List.mem_append_left _ (Scope.mem_handles.2 (Or.inl hkey)))
      -- what the arguments read is kept as well while the body of the template runs
      have hbody := ((hexpand reads).of_subset (List.nil_subset _)).inScope
        (fun _ => Scope.withValues arguments.values) (fun _ => List.subset_append_left _ _) p hp
        (hkept.append hreads) hvalues
      exact hbody.bind fun _ _ _ hq _ _ => ⟨hq, fun _ hkey => hkey, fun _ _ => nofun⟩

/-- Statements leave everything there when expanding an instance does. -/
theorem runStatement_grounds_of (hmode : e.setting.mode = .configuration)
    (hcurrent : e.setting.current = none)
    (hexpand : ∀ template frame span, frame.file < count → ∀ kept, frame.inherited ⊆ kept →
      (e.expand template frame span).Grounds count kept [] fun _ => [])
    (hinherited : frame.inherited ⊆ kept) (hroom : frame.file < count) (node : Node) :
    (runStatement e node frame).Grounds count kept [] fun _ => [] := by
  refine Step.composes_grounds.assembles.statementWithin e (fun _ => True)
    (fun frame => frame.inherited ⊆ kept ∧ frame.file < count) (fun _ _ _ _ => trivial)
    (fun _ _ _ _ => trivial) (fun _ _ h => h) ?_ trivial ⟨hinherited, hroom⟩
  rintro typeText name source span - hsource frame ⟨hinherited, hroom⟩
  unfold runStatement
  refine Step.grounds_settled.bind fun type _ _ _ => ?_
  refine (Step.composes_grounds.naming _ e frame span trivial).bind fun text _ _ _ => ?_
  intro p hp hkept hgiven
  refine Step.groundsAt_get ?_
  split
  · next template _ =>
    refine instantiate_grounds template text span (fun step hstep => ?_) (fun reads => ?_) p hp hkept
      hgiven
    · rw [runStatements_eq_map] at hstep
      obtain ⟨child, hchild, rfl⟩ := List.mem_map.1 hstep
      exact hsource child hchild _ ⟨hinherited, hroom⟩
    · refine hexpand template (frame.below text span reads) span hroom _ fun key hkey => ?_
      rcases Sorted.mem_union.1 hkey with hkey | hkey
      · exact List.mem_append_left _ (hinherited hkey)
      · exact List.mem_append_right _ hkey
  · split
    · exact Step.grounds_throw _ p hp hkept hgiven
    · next found hfound =>
      refine declareResource_grounds hmode hcurrent hinherited hroom
        (hp.sturdy.schemas type found hfound) text source span (fun step hstep => ?_) p hp hkept
        hgiven
      rw [runMarked_eq_map] at hstep
      obtain ⟨child, hchild, rfl⟩ := List.mem_map.1 hstep
      exact hsource child hchild _ ⟨hinherited, hroom⟩

/-- Statements leave everything there, however deep instances nest. -/
theorem runStatement_grounds (hmode : setting.mode = .configuration)
    (hcurrent : setting.current = none) (depth : Nat) (hinherited : frame.inherited ⊆ kept)
    (hroom : frame.file < count) (node : Node) :
    (runStatement (Evaluator.atDepth setting depth) node frame).Grounds count kept [] fun _ => [] := by
  induction depth generalizing kept frame node with
  | zero =>
    exact runStatement_grounds_of hmode hcurrent (fun _ _ _ _ _ _ => Step.grounds_throw _) hinherited
      hroom node
  | succ depth ih =>
    refine runStatement_grounds_of hmode hcurrent (fun template frame span hroom kept hinherited => ?_)
      hinherited hroom node
    refine Step.composes_grounds.assembles.body fun step hstep => ?_
    rw [runStatements_eq_map] at hstep
    obtain ⟨child, -, rfl⟩ := List.mem_map.1 hstep
    exact ih hinherited hroom child

end Statements

/-! ## Evaluations -/

namespace Round

variable {setup : EvaluationSetup} {round after : Round} {task : Task} {tasks : List Task}

/-- What the scopes of the files hold is there, and statements belong to one of the files. -/
structure Grounded (count : Nat) (round : Round) (tasks : List Task) : Prop where
  sturdy : round.inventory.Sturdy count
  scopes : ∀ scope ∈ round.scopes, round.inventory.HasAll scope.handles
  room : ∀ task ∈ tasks, task.file < count

/-- An attempt leaves the round with what became of the progress of its statement. -/
theorem exists_run_of_attempt {deferred : Option Deferred}
    (h : round.attempt setup task = .ok (after, deferred)) :
    ∃ outcome q, (runStatement (setup.evaluator (round.undeclared task)) task.node
        { file := task.file }).run (round.progress task) = (outcome, q) ∧
      after.inventory = q.inventory ∧ after.scopes = round.scopes.set task.source q.scope := by
  rw [attempt_eq] at h
  split at h
  · next q hrun =>
    cases h
    exact ⟨_, q, hrun, rfl, rfl⟩
  · next q hrun =>
    cases h
    exact ⟨_, q, hrun, rfl, rfl⟩
  · cases h

theorem Grounded.progress {count : Nat} (h : round.Grounded count tasks) (task : Task) :
    (round.progress task).Grounded count := by
  refine ⟨h.sturdy, ?_, nofun⟩
  unfold Round.progress
  cases hscope : round.scopes[task.source]? with
  | none => exact nofun
  | some scope => exact h.scopes scope (List.mem_of_getElem? hscope)

/-- An attempt, whether its statement gets done or not, leaves everything there. -/
theorem Grounded.attempt {count : Nat} (h : round.Grounded count tasks)
    (hmode : setup.mode = .configuration) (hcurrent : setup.current = none) (htask : task ∈ tasks)
    {rest : List Task} (hrest : rest ⊆ tasks) {deferred : Option Deferred}
    (hattempt : round.attempt setup task = .ok (after, deferred)) :
    after.Grounded count rest := by
  obtain ⟨outcome, q, hrun, hinventory, hscopes⟩ := exists_run_of_attempt hattempt
  have hstep : (runStatement (setup.evaluator (round.undeclared task)) task.node
      { file := task.file }).GroundsAt count (fun _ => []) (round.progress task) :=
    runStatement_grounds hmode hcurrent setup.depth (List.Subset.refl _) (h.room task htask) task.node
      (round.progress task) (h.progress task) nofun nofun
  have hgrounded := hstep.grounded
  have hgrown := hstep.grown
  rw [hrun] at hgrounded hgrown
  refine ⟨hinventory ▸ hgrounded.sturdy, fun scope hscope => ?_, fun other hother =>
    h.room other (hrest hother)⟩
  rw [hinventory]
  rw [hscopes] at hscope
  rcases List.mem_or_eq_of_mem_set hscope with hscope | rfl
  · exact fun key hkey => hgrown key (h.scopes scope hscope key hkey)
  · exact hgrounded.scope

/-- A run leaves everything there. -/
theorem Grounded.run {count : Nat} {last : Round} (h : round.Grounded count round.tasks)
    (hmode : setup.mode = .configuration) (hcurrent : setup.current = none) {bound : Nat}
    (hrun : round.run setup bound = .ok last) :
    last.Grounded count [] := by
  refine run_keeps (fun _ round tasks => round.Grounded count tasks) ?_ ?_ ?_ [] h hrun
  · intro _ _ _ _ _ _ hround hattempt
    exact hround.attempt hmode hcurrent (by simp) (by simp) hattempt
  · intro _ _ _ _ _ _ _ hround hattempt
    exact hround.attempt hmode hcurrent (by simp) (List.Subset.refl _) hattempt
  · exact fun _ _ _ _ _ hround => ⟨hround.sturdy, hround.scopes, hround.room⟩

end Round

theorem start_grounded {registry : Registry} {files : List SourceFile} {start : Round}
    {indices : List Nat} (h : Round.start (.empty registry) files = .ok (start, indices))
    (hschemas : ∀ name type, registry.type? name = some type →
      (type.schema.map FieldSpec.name).Nodup) :
    start.Grounded start.inventory.files.length start.tasks := by
  obtain ⟨hnone, hroom, -⟩ := start_spec h
  have hsound := Round.start_sound (Inventory.sound_empty registry) h
  refine ⟨⟨⟨hsound.oneHome, ?_⟩, ?_, ?_, rfl⟩, fun scope hscope => ?_, hroom⟩
  · intro key resource hresource
    rw [hnone key] at hresource
    cases hresource
  · intro key resource hresource
    rw [hnone key] at hresource
    cases hresource
  · rw [hsound.registry_eq]
    exact hschemas
  · rw [start_scopes h scope hscope]
    exact nofun

/-- When configuration is evaluated into an empty inventory, every resource is well-formed and rests
on others that are there. -/
theorem evaluateFiles_wellformed {registry : Registry} {depth : Nat} {files : List SourceFile}
    {inventory : Inventory}
    (hschemas : ∀ name type, registry.type? name = some type →
      (type.schema.map FieldSpec.name).Nodup)
    (h : evaluateFiles ⟨.configuration, none, depth⟩ (.empty registry) files = .ok inventory) :
    ∀ resource ∈ inventory.resources, (∃ name, registry.type? name = some resource.type) ∧
      resource.Wellformed ∧ resource.RestsOn inventory := by
  have hsound := evaluateFiles_sound (Inventory.sound_empty registry) h
  obtain ⟨start, indices, last, hstart, hrun, rfl⟩ := evaluateFiles_eq_ok h
  have hlast := (start_grounded hstart hschemas).run rfl rfl hrun
  intro resource hresource
  have hfound := hsound.oneHome.resource?_eq_some_iff.2 ⟨hresource, rfl⟩
  have hbefore := (resource?_result last indices resource.key).symm.trans hfound
  refine ⟨hsound.registry_eq ▸ (hsound.typed.of_resource? hfound).2,
    hlast.sturdy.formed _ resource hbefore, ?_⟩
  refine (hlast.sturdy.founded.rests _ resource hbefore).mono fun key hkey => ?_
  rwa [Inventory.has, resource?_result]

/-- A box whose value is another one, declared below it. -/
def holdingBoxes : SourceFile :=
  ⟨"main", [
    boxBlock 1 (.text "b") [
      pairAt 2 "v" (.ref boxType.name.text (some (.text "a")) [] (lineStart 2)),
      pairAt 3 "path" (.text "b")],
    boxBlock 5 (.text "a") [pairAt 6 "path" (.text "a")]]⟩

/-- The box depends on the other one, and its fields are in the order of the schema. -/
theorem evaluateFiles_wellformed_boxes :
    ∃ inventory b, evaluateFiles boxSetup (.empty boxRegistry) [holdingBoxes] = .ok inventory ∧
      b ∈ inventory.resources ∧ Table.keys b.fields = ["path", "v"] ∧
      Value.handlesOfEntries b.fields = [boxKey "a"] ∧ b.dependsOn = [boxKey "a"] ∧
      b.Wellformed ∧ b.RestsOn inventory := by
  have hschemas : ∀ name type, boxRegistry.type? name = some type →
      (type.schema.map FieldSpec.name).Nodup := by
    intro name type hname
    have htype := Table.mem_of_get? hname
    obtain ⟨-, rfl⟩ := Prod.mk.inj (List.mem_singleton.1 htype)
    decide
  have hrun : (evaluateFiles boxSetup (.empty boxRegistry) [holdingBoxes]).toOption.map
      (fun inventory => inventory.resources.map fun resource =>
        (Table.keys resource.fields, Value.handlesOfEntries resource.fields, resource.dependsOn)) =
      some [(["path"], [], []), (["path", "v"], [boxKey "a"], [boxKey "a"])] := by
    decide +kernel
  obtain ⟨inventory, hinventory, hresources⟩ := Option.map_eq_some_iff.1 hrun
  rw [toOption_eq_some] at hinventory
  have hmem : (["path", "v"], [boxKey "a"], [boxKey "a"]) ∈ inventory.resources.map fun resource =>
      (Table.keys resource.fields, Value.handlesOfEntries resource.fields, resource.dependsOn) := by
    rw [hresources]
    exact List.mem_cons_of_mem _ List.mem_cons_self
  obtain ⟨b, hb, heq⟩ := List.mem_map.1 hmem
  obtain ⟨hkeys, heq⟩ := Prod.mk.inj heq
  obtain ⟨hhandles, hdepends⟩ := Prod.mk.inj heq
  obtain ⟨-, hformed, hrests⟩ := evaluateFiles_wellformed hschemas hinventory b hb
  exact ⟨inventory, b, hinventory, hb, hkeys, hhandles, hdepends, hformed, hrests⟩

end Provision

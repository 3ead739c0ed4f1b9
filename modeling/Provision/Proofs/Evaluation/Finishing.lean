import Provision.Evaluation.Statement
import Provision.Proofs.Evaluation.Handles
import Provision.Proofs.Outcome

/-!
# Finished resources

What a body evaluated to is looked at by name only: the order in which its
fields were set and its reads were made plays no part in the resource made of
it.  `Resource.content` is what is left of a resource when order, place and
declaration are forgotten.
-/

namespace Provision

/-- A resource apart from the order of its parts, its place and its declaration. -/
structure Content where
  type : ResourceType
  fields : String → Option Value
  configured : String → Prop
  credentials : String
  dependsOn : Key → Prop

/-- What a resource is apart from order, place and declaration. -/
def Resource.content (resource : Resource) : Content :=
  ⟨resource.type, resource.field?, fun name => name ∈ resource.configured, resource.credentials,
    fun key => key ∈ resource.dependsOn⟩

namespace Table

variable {κ ν : Type} [DecidableEq κ]

/-- Two tables with the same value under every key. -/
def Same (table other : Table κ ν) : Prop :=
  ∀ key, table.get? key = other.get? key

theorem get?_of_mem {table : Table κ ν} (h : table.Distinct) {key : κ} {value : ν}
    (hmem : (key, value) ∈ table) :
    table.get? key = some value := by
  induction table with
  | nil => cases hmem
  | cons pair rest ih =>
    obtain ⟨k, v⟩ := pair
    obtain ⟨hk, hrest⟩ := List.nodup_cons.1 h
    rcases List.mem_cons.1 hmem with heq | hmem
    · cases heq
      rw [get?, if_pos rfl]
    · have hne : k ≠ key := by
        rintro rfl
        exact hk (List.mem_map.2 ⟨_, hmem, rfl⟩)
      rw [get?, if_neg hne]
      exact ih hrest hmem

theorem Same.set {table other : Table κ ν} (h : table.Same other) (key : κ) (value : ν) :
    (table.set key value).Same (other.set key value) := by
  intro name
  rw [get?_set, get?_set, h name]

theorem Same.erase {table other : Table κ ν} (h : table.Same other) (hd : table.Distinct)
    (hd' : other.Distinct) (key : κ) :
    (table.erase key).Same (other.erase key) := by
  intro name
  rw [get?_erase hd, get?_erase hd', h name]

theorem Same.has {table other : Table κ ν} (h : table.Same other) (key : κ) :
    table.has key = other.has key := by
  rw [Table.has, Table.has, h key]

theorem Same.mem_keys {table other : Table κ ν} (h : table.Same other) (key : κ) :
    key ∈ table.keys ↔ key ∈ other.keys := by
  rw [mem_keys_iff, mem_keys_iff, h key]

omit [DecidableEq κ] in
theorem mem_keys {table : Table κ ν} {key : κ} : key ∈ table.keys ↔ ∃ value, (key, value) ∈ table := by
  simp [keys]

omit [DecidableEq κ] in
theorem mem_values {table : Table κ ν} {value : ν} :
    value ∈ table.values ↔ ∃ key, (key, value) ∈ table := by
  simp [values]

end Table

/-! ## The parts of a resource -/

section Parts

variable {raw raw' : Bindings}

theorem recordedKeys_ok_iff (origin origin' : Span) (texts : List String) (keys : List Key) :
    recordedKeys origin texts = .ok keys ↔ recordedKeys origin' texts = .ok keys := by
  induction texts generalizing keys with
  | nil => exact Iff.rfl
  | cons text rest ih =>
    rw [recordedKeys, recordedKeys]
    cases Key.ofText text with
    | error cause =>
      constructor
      · intro h
        cases h
      · intro h
        cases h
    | ok key =>
      simp only [bind_eq_ok, ih]

theorem checkFields_ok_iff (mode : Mode) (schema : Schema) (key : Key) (origin : Span)
    (fields : Bindings) :
    checkFields mode schema key origin fields = .ok () ↔
      ∀ name ∈ fields.keys, ∃ spec, schema.field? name = some spec ∧
        (spec.output && mode = .configuration) = false := by
  induction fields with
  | nil =>
    constructor
    · intro _ name h
      cases h
    · intro _
      rfl
  | cons entry rest ih =>
    obtain ⟨name, value⟩ := entry
    rw [checkFields, Table.keys, List.map_cons, List.forall_mem_cons]
    cases hspec : schema.field? name with
    | none =>
      constructor
      · intro h
        cases h
      · rintro ⟨⟨spec, hfound, -⟩, -⟩
        cases hfound
    | some spec =>
      dsimp only
      split
      · rename_i houtput
        constructor
        · intro h
          cases h
        · rintro ⟨⟨found, hfound, hnot⟩, -⟩
          cases hfound
          rw [houtput] at hnot
          cases hnot
      · rename_i houtput
        rw [ih]
        exact ⟨fun h => ⟨⟨spec, rfl, Bool.eq_false_iff.2 houtput⟩, h⟩, fun h => h.2⟩

theorem mem_inputNames {schema : Schema} {fields : Bindings} {name : String} :
    name ∈ inputNames schema fields ↔
      name ∈ fields.keys ∧ (match schema.field? name with
        | some spec => !spec.output
        | none => false) = true := by
  unfold inputNames
  exact List.mem_filter

theorem mem_handles {fields : Bindings} {key : Key} (h : fields.Distinct) :
    key ∈ fields.values.flatMap Value.handles ↔
      ∃ name value, fields.get? name = some value ∧ key ∈ value.handles := by
  rw [List.mem_flatMap]
  constructor
  · rintro ⟨value, hvalue, hkey⟩
    obtain ⟨name, hmem⟩ := Table.mem_values.1 hvalue
    exact ⟨name, value, Table.get?_of_mem h hmem, hkey⟩
  · rintro ⟨name, value, hget, hkey⟩
    exact ⟨value, Table.mem_values.2 ⟨name, Table.mem_of_get? hget⟩, hkey⟩

/-! ### Fields filled in from the record -/

theorem distinct_fillFrom (configured : List String) (recorded : Option Resource)
    (h : raw.Distinct) :
    (fillFrom configured recorded raw).Distinct := by
  cases recorded with
  | none => exact h
  | some resource =>
    unfold fillFrom
    dsimp only
    generalize resource.fields = entries
    induction entries generalizing raw with
    | nil => exact h
    | cons entry rest ih =>
      rw [List.foldl_cons]
      apply ih
      split
      · exact h
      · exact Table.distinct_set h _ _

theorem same_fillFrom {configured configured' : List String} (recorded : Option Resource)
    (hconfigured : ∀ name, name ∈ configured ↔ name ∈ configured')
    (h : raw.Same raw') :
    (fillFrom configured recorded raw).Same (fillFrom configured' recorded raw') := by
  cases recorded with
  | none => exact h
  | some resource =>
    unfold fillFrom
    dsimp only
    generalize resource.fields = entries
    induction entries generalizing raw raw' with
    | nil => exact h
    | cons entry rest ih =>
      have hcontains : configured.contains entry.1 = configured'.contains entry.1 := by
        rw [Bool.eq_iff_iff, List.contains_iff_mem, List.contains_iff_mem]
        exact hconfigured entry.1
      rw [List.foldl_cons, List.foldl_cons]
      apply ih
      rw [hcontains, h.has]
      split
      · exact h
      · exact h.set _ _

/-- A field that was filled in stood in the body or in the record. -/
theorem get?_fillFrom {configured : List String} {recorded : Option Resource} {name : String}
    {value : Value}
    (h : (fillFrom configured recorded raw).get? name = some value) :
    raw.get? name = some value ∨
      ∃ resource, recorded = some resource ∧ (name, value) ∈ resource.fields := by
  cases recorded with
  | none => exact Or.inl h
  | some resource =>
    have hfold : ∀ (entries : Bindings) (start : Bindings),
        (entries.foldl (fun all entry =>
          if configured.contains entry.1 || resource.configured.contains entry.1 ||
              Table.has all entry.1 then all
          else Table.set all entry.1 entry.2) start).get? name = some value →
        start.get? name = some value ∨ (name, value) ∈ entries := by
      intro entries
      induction entries with
      | nil => exact fun start h => Or.inl h
      | cons entry rest ih =>
        intro start h
        rcases ih _ h with h | h
        · dsimp only at h
          split at h
          · exact Or.inl h
          · rw [Table.get?_set] at h
            split at h
            · rename_i hname
              cases h
              subst hname
              exact Or.inr List.mem_cons_self
            · exact Or.inl h
        · exact Or.inr (List.mem_cons_of_mem _ h)
    rcases hfold resource.fields raw h with h | h
    · exact Or.inl h
    · exact Or.inr ⟨resource, rfl, h⟩

/-! ### Schema order -/

/-- One field of the schema, taken from the fields that are left. -/
def takeField (taken : Bindings × Bindings) (spec : FieldSpec) : Bindings × Bindings :=
  match Table.get? taken.2 spec.name with
  | some value => (Table.set taken.1 spec.name value, Table.erase taken.2 spec.name)
  | none => taken

theorem inSchemaOrder_eq (schema : Schema) (fields : Bindings) :
    inSchemaOrder schema fields = (schema.foldl takeField ([], fields)).1 := rfl

theorem foldl_takeField_congr {schema : Schema} {taken left left' : Bindings}
    (hd : left.Distinct) (hd' : left'.Distinct)
    (h : left.Same left') :
    (schema.foldl takeField (taken, left)).1 = (schema.foldl takeField (taken, left')).1 := by
  induction schema generalizing taken left left' with
  | nil => rfl
  | cons spec rest ih =>
    rw [List.foldl_cons, List.foldl_cons, takeField, takeField]
    dsimp only
    rw [h spec.name]
    split
    · exact ih (Table.distinct_erase hd _) (Table.distinct_erase hd' _) (h.erase hd hd' _)
    · exact ih hd hd' h

theorem inSchemaOrder_congr {schema : Schema} (hd : raw.Distinct) (hd' : raw'.Distinct)
    (h : raw.Same raw') :
    inSchemaOrder schema raw = inSchemaOrder schema raw' :=
  foldl_takeField_congr hd hd' h

theorem get?_foldl_takeField {schema : Schema} {taken left : Bindings} {name : String}
    {value : Value}
    (hd : left.Distinct)
    (h : (schema.foldl takeField (taken, left)).1.get? name = some value) :
    taken.get? name = some value ∨ left.get? name = some value := by
  induction schema generalizing taken left with
  | nil => exact Or.inl h
  | cons spec rest ih =>
    rw [List.foldl_cons, takeField] at h
    dsimp only at h
    split at h
    · rename_i found hfound
      rcases ih (Table.distinct_erase hd _) h with h | h
      · rw [Table.get?_set] at h
        split at h
        · rename_i hname
          cases h
          subst hname
          exact Or.inr hfound
        · exact Or.inl h
      · rw [Table.get?_erase hd] at h
        split at h
        · cases h
        · exact Or.inr h
    · exact ih hd h

/-- Fields in schema order are among the fields. -/
theorem get?_inSchemaOrder {schema : Schema} {name : String} {value : Value} (hd : raw.Distinct)
    (h : (inSchemaOrder schema raw).get? name = some value) :
    raw.get? name = some value := by
  rcases get?_foldl_takeField hd h with h | h
  · cases h
  · exact h

/-- Filling in from the record keeps the fields that are set. -/
theorem get?_fillFrom_of_some {configured : List String} {recorded : Option Resource}
    {name : String} {value : Value} (h : raw.get? name = some value) :
    (fillFrom configured recorded raw).get? name = some value := by
  cases recorded with
  | none => exact h
  | some resource =>
    have hfold : ∀ (entries : Bindings) (start : Bindings), start.get? name = some value →
        (entries.foldl (fun all entry =>
          if configured.contains entry.1 || resource.configured.contains entry.1 ||
              Table.has all entry.1 then all
          else Table.set all entry.1 entry.2) start).get? name = some value := by
      intro entries
      induction entries with
      | nil => exact fun start h => h
      | cons entry rest ih =>
        intro start h
        refine ih _ ?_
        dsimp only
        split
        · exact h
        · next hfree =>
          have hother : entry.1 ≠ name := by
            rintro rfl
            simp [Table.has, h] at hfree
          rw [Table.get?_set, if_neg hother, h]
    exact hfold resource.fields raw h

theorem get?_foldl_takeField_of_some {schema : Schema} {taken left : Bindings} {name : String}
    {value : Value} (hd : left.Distinct)
    (h : taken.get? name = some value ∧ left.get? name = none ∨
      left.get? name = some value ∧ name ∈ schema.map FieldSpec.name) :
    (schema.foldl takeField (taken, left)).1.get? name = some value := by
  induction schema generalizing taken left with
  | nil => exact (h.resolve_right fun hleft => absurd hleft.2 List.not_mem_nil).1
  | cons spec rest ih =>
    rw [List.foldl_cons, takeField]
    dsimp only
    by_cases hname : spec.name = name
    · subst hname
      rcases h with ⟨htaken, hnone⟩ | ⟨hleft, -⟩
      · rw [hnone]
        exact ih hd (Or.inl ⟨htaken, hnone⟩)
      · rw [hleft]
        refine ih (Table.distinct_erase hd _) (Or.inl ⟨Table.get?_set_self _ _ _, ?_⟩)
        rw [Table.get?_erase hd, if_pos rfl]
    · have hlater : left.get? name = some value ∧ name ∈ (spec :: rest).map FieldSpec.name →
          left.get? name = some value ∧ name ∈ rest.map FieldSpec.name := fun hleft =>
        ⟨hleft.1, (List.mem_cons.1 hleft.2).resolve_left (Ne.symm hname)⟩
      split
      · refine ih (Table.distinct_erase hd _) ?_
        rw [Table.get?_set, if_neg hname, Table.get?_erase hd, if_neg hname]
        exact h.imp_right hlater
      · exact ih hd (h.imp_right hlater)

/-- Putting fields in schema order keeps those that the schema has. -/
theorem get?_inSchemaOrder_of_some {schema : Schema} {name : String} {value : Value}
    (hd : raw.Distinct) (hname : name ∈ schema.map FieldSpec.name)
    (h : raw.get? name = some value) :
    (inSchemaOrder schema raw).get? name = some value := by
  rw [inSchemaOrder_eq]
  exact get?_foldl_takeField_of_some hd (Or.inr ⟨h, hname⟩)

end Parts

/-! ## The whole resource -/

/-- The fields of a body without the reserved pairs of recorded state. -/
def ownFields (mode : Mode) (fields : Bindings) : Bindings :=
  if mode = .state then Table.erase (Table.erase fields configuredFieldsKey) dependsOnKey else fields

/-- The names that a body sets, or that recorded state says were set. -/
def setNames (mode : Mode) (schema : Schema) (fields : Bindings) : List String :=
  Sorted.ofList
    ((if mode = .state then (Table.get? fields configuredFieldsKey).map textsOf else none).getD
      (inputNames schema (ownFields mode fields)))

/-- The dependencies that recorded state spells out. -/
def dependencyTexts (mode : Mode) (fields : Bindings) : List String :=
  if mode = .state then
    ((Table.get? (Table.erase fields configuredFieldsKey) dependsOnKey).map textsOf).getD []
  else []

/-- The fields of a body together with those filled in from the record. -/
def filledFields (setting : Setting) (key : Key) (schema : Schema) (fields : Bindings) : Bindings :=
  fillFrom (setNames setting.mode schema fields) (setting.current.bind fun c => c.resource? key)
    (ownFields setting.mode fields)

/-- The first field that has to be set and is not. -/
def missingField? (setting : Setting) (key : Key) (schema : Schema) (fields : Bindings) :
    Option FieldSpec :=
  schema.find? fun spec =>
    !spec.nullable && !spec.output && !Table.has (filledFields setting key schema fields) spec.name

/-- The resource that a body is made into when nothing speaks against it. -/
def finished (setting : Setting) (key : Key) (type : ResourceType) (origin : Span)
    (body : EvaluatedBody) (recorded : List Key) : Resource where
  key := key
  type := type
  fields := inSchemaOrder type.schema (filledFields setting key type.schema body.fields)
  configured := setNames setting.mode type.schema body.fields
  credentials := body.credentials.getD defaultCredentials
  dependsOn := Sorted.erase key (Sorted.union (Sorted.union body.reads recorded)
    ((Table.values (ownFields setting.mode body.fields)).flatMap Value.handles))
  origin := origin

/-- A body is made into the same resource whichever types are undeclared. -/
theorem finishResource_congr {setting setting' : Setting} {key : Key}
    (hmode : setting'.mode = setting.mode)
    (hrecorded : (setting'.current.bind fun current => current.resource? key) =
      setting.current.bind fun current => current.resource? key) :
    finishResource setting' key = finishResource setting key := by
  unfold finishResource
  rw [hmode, hrecorded]

/-- When a body is made into a resource, and into which. -/
theorem finishResource_ok_iff {setting : Setting} {key : Key} {type : ResourceType} {origin : Span}
    {body : EvaluatedBody} {resource : Resource} :
    finishResource setting key type origin body = .ok resource ↔
      ∃ recorded, recordedKeys origin (dependencyTexts setting.mode body.fields) = .ok recorded ∧
        checkFields setting.mode type.schema key origin (ownFields setting.mode body.fields) = .ok () ∧
        (setting.mode = .configuration → missingField? setting key type.schema body.fields = none) ∧
        resource = finished setting key type origin body recorded := by
  obtain ⟨mode, current, undeclared⟩ := setting
  simp only [finishResource, bind_eq_ok, dependencyTexts, ownFields, missingField?, filledFields,
    setNames, finished]
  cases mode with
  | configuration =>
    simp only [reduceCtorEq, if_false, true_implies]
    constructor
    · rintro ⟨recorded, hrecorded, ⟨⟩, hcheck, hend⟩
      split at hend
      · cases hend
      · rename_i hmissing
        cases hend
        refine ⟨recorded, hrecorded, hcheck, ?_, rfl⟩
        cases hfind : List.find? _ _ with
        | none => rfl
        | some spec => exact (hmissing spec rfl hfind).elim
    · rintro ⟨recorded, hrecorded, hcheck, hmissing, rfl⟩
      refine ⟨recorded, hrecorded, (), hcheck, ?_⟩
      rw [hmissing]
  | state =>
    simp only [if_true, reduceCtorEq, false_implies, true_and]
    constructor
    · rintro ⟨recorded, hrecorded, ⟨⟩, hcheck, hend⟩
      cases hend
      exact ⟨recorded, hrecorded, hcheck, rfl⟩
    · rintro ⟨recorded, hrecorded, hcheck, rfl⟩
      exact ⟨recorded, hrecorded, (), hcheck, rfl⟩

section Congruence

variable {fields fields' : Bindings}

theorem distinct_ownFields (mode : Mode) (h : fields.Distinct) : (ownFields mode fields).Distinct := by
  unfold ownFields
  split
  · exact Table.distinct_erase (Table.distinct_erase h _) _
  · exact h

theorem distinct_filledFields (setting : Setting) (key : Key) (schema : Schema)
    (h : fields.Distinct) :
    (filledFields setting key schema fields).Distinct :=
  distinct_fillFrom _ _ (distinct_ownFields _ h)

theorem same_ownFields (mode : Mode) (h : fields.Distinct) (h' : fields'.Distinct)
    (hsame : fields.Same fields') :
    (ownFields mode fields).Same (ownFields mode fields') := by
  unfold ownFields
  split
  · exact (hsame.erase h h' _).erase (Table.distinct_erase h _) (Table.distinct_erase h' _) _
  · exact hsame

theorem dependencyTexts_congr (mode : Mode) (h : fields.Distinct) (h' : fields'.Distinct)
    (hsame : fields.Same fields') :
    dependencyTexts mode fields = dependencyTexts mode fields' := by
  unfold dependencyTexts
  rw [hsame.erase h h' configuredFieldsKey dependsOnKey]

theorem mem_setNames_congr (mode : Mode) (schema : Schema) (h : fields.Distinct)
    (h' : fields'.Distinct)
    (hsame : fields.Same fields') (name : String) :
    name ∈ setNames mode schema fields ↔ name ∈ setNames mode schema fields' := by
  unfold setNames
  rw [Sorted.mem_ofList, Sorted.mem_ofList, hsame configuredFieldsKey]
  cases (if mode = .state then (Table.get? fields' configuredFieldsKey).map textsOf else none) with
  | some names => exact Iff.rfl
  | none =>
    rw [Option.getD_none, Option.getD_none, mem_inputNames, mem_inputNames,
      (same_ownFields mode h h' hsame).mem_keys]

theorem same_filledFields (setting : Setting) (key : Key) (schema : Schema) (h : fields.Distinct)
    (h' : fields'.Distinct)
    (hsame : fields.Same fields') :
    (filledFields setting key schema fields).Same (filledFields setting key schema fields') :=
  same_fillFrom _ (mem_setNames_congr _ schema h h' hsame) (same_ownFields _ h h' hsame)

theorem checkFields_congr (mode : Mode) (schema : Schema) (key : Key) (origin origin' : Span)
    (hsame : fields.Same fields') :
    checkFields mode schema key origin fields = .ok () ↔
      checkFields mode schema key origin' fields' = .ok () := by
  rw [checkFields_ok_iff, checkFields_ok_iff]
  exact forall_congr' fun name => by rw [hsame.mem_keys]

end Congruence

/-- Bodies that are the same by name: neither the order of the fields nor that of the reads
matters. -/
structure EvaluatedBody.Alike (body body' : EvaluatedBody) : Prop where
  fields : Table.Same body.fields body'.fields
  credentials : body.credentials = body'.credentials
  reads : ∀ key, key ∈ body.reads ↔ key ∈ body'.reads

theorem EvaluatedBody.Alike.symm {body body' : EvaluatedBody} (h : body.Alike body') :
    body'.Alike body :=
  ⟨fun name => (h.fields name).symm, h.credentials.symm, fun key => (h.reads key).symm⟩

/-- Bodies that are the same by name are made into the same resource, apart from its place. -/
theorem finishResource_alike {setting setting' : Setting} {key : Key} {type : ResourceType}
    {origin origin' : Span} {body body' : EvaluatedBody} {resource : Resource}
    (hmode : setting.mode = setting'.mode)
    (hcurrent : setting.current = setting'.current)
    (hdistinct : Table.Distinct body.fields)
    (hdistinct' : Table.Distinct body'.fields)
    (halike : body.Alike body')
    (h : finishResource setting key type origin body = .ok resource) :
    ∃ resource', finishResource setting' key type origin' body' = .ok resource' ∧
      resource'.key = resource.key ∧ resource'.content = resource.content := by
  obtain ⟨mode, current, undeclared⟩ := setting
  obtain ⟨mode', current', undeclared'⟩ := setting'
  obtain rfl : mode = mode' := hmode
  obtain rfl : current = current' := hcurrent
  obtain ⟨recorded, hrecorded, hcheck, hmissing, rfl⟩ := finishResource_ok_iff.1 h
  have hfilled := same_filledFields ⟨mode, current, undeclared⟩ key type.schema hdistinct hdistinct'
    halike.fields
  have hown := same_ownFields mode hdistinct hdistinct' halike.fields
  refine ⟨finished ⟨mode, current, undeclared'⟩ key type origin' body' recorded,
    finishResource_ok_iff.2 ⟨recorded, ?_, ?_, ?_, rfl⟩, rfl, ?_⟩
  · rw [← dependencyTexts_congr mode hdistinct hdistinct' halike.fields]
    exact (recordedKeys_ok_iff origin origin' _ _).1 hrecorded
  · exact (checkFields_congr mode type.schema key origin origin' hown).1 hcheck
  · intro hconfiguration
    rw [← hmissing hconfiguration]
    unfold missingField?
    congr 1
    funext spec
    exact congrArg _ (congrArg _ (hfilled.has spec.name).symm)
  · have hfields : inSchemaOrder type.schema
        (filledFields ⟨mode, current, undeclared'⟩ key type.schema body'.fields) =
        inSchemaOrder type.schema
          (filledFields ⟨mode, current, undeclared⟩ key type.schema body.fields) :=
      (inSchemaOrder_congr (distinct_filledFields _ key _ hdistinct)
        (distinct_filledFields _ key _ hdistinct') hfilled).symm
    have hhandles : ∀ other,
        other ∈ (ownFields mode body'.fields).values.flatMap Value.handles ↔
          other ∈ (ownFields mode body.fields).values.flatMap Value.handles := by
      intro other
      rw [mem_handles (distinct_ownFields mode hdistinct),
        mem_handles (distinct_ownFields mode hdistinct')]
      exact exists_congr fun name => exists_congr fun value => by rw [hown name]
    unfold Resource.content finished
    dsimp only
    congr 1
    · funext name
      exact congrArg (fun table => Table.get? table name) hfields
    · funext name
      exact propext (mem_setNames_congr mode type.schema hdistinct hdistinct' halike.fields name).symm
    · rw [halike.credentials]
    · funext other
      apply propext
      rw [Sorted.mem_erase, Sorted.mem_erase, Sorted.mem_union, Sorted.mem_union, Sorted.mem_union,
        Sorted.mem_union, hhandles other, halike.reads other]

/-- The fields of a resource stood in its body or in the record. -/
theorem get?_finished {setting : Setting} {key : Key} {type : ResourceType} {origin : Span}
    {body : EvaluatedBody} {recorded : List Key} {name : String} {value : Value}
    (hdistinct : Table.Distinct body.fields)
    (h : (finished setting key type origin body recorded).field? name = some value) :
    Table.get? body.fields name = some value ∨
      ∃ current resource, setting.current = some current ∧ current.resource? key = some resource ∧
        (name, value) ∈ resource.fields := by
  have hfilled := get?_inSchemaOrder (distinct_filledFields setting key type.schema hdistinct) h
  rcases get?_fillFrom hfilled with hown | ⟨resource, hresource, hmem⟩
  · left
    unfold ownFields at hown
    split at hown
    · rw [Table.get?_erase (Table.distinct_erase hdistinct _)] at hown
      split at hown
      · cases hown
      · rw [Table.get?_erase hdistinct] at hown
        split at hown
        · cases hown
        · exact hown
    · exact hown
  · obtain ⟨current, hcurrent, hfound⟩ := Option.bind_eq_some_iff.1 hresource
    exact Or.inr ⟨current, resource, hcurrent, hfound, hmem⟩

/-- What the body of a resource sets in configuration, the resource has. -/
theorem field?_of_finishResource {setting : Setting} {key : Key} {type : ResourceType} {origin : Span}
    {body : EvaluatedBody} {resource : Resource} {name : String} {value : Value}
    (hmode : setting.mode = .configuration) (hdistinct : Table.Distinct body.fields)
    (h : finishResource setting key type origin body = .ok resource)
    (hfield : Table.get? body.fields name = some value) :
    resource.field? name = some value := by
  obtain ⟨recorded, -, hcheck, -, rfl⟩ := finishResource_ok_iff.1 h
  have hown : ownFields setting.mode body.fields = body.fields := by
    rw [ownFields, hmode, if_neg (by decide)]
  rw [hown, checkFields_ok_iff] at hcheck
  obtain ⟨spec, hspec, -⟩ := hcheck name (Table.mem_keys_iff.2 (hfield ▸ rfl))
  have hspec : type.schema.find? (fun spec => spec.name = name) = some spec := hspec
  have hname : name ∈ type.schema.map FieldSpec.name :=
    List.mem_map.2 ⟨spec, List.mem_of_find?_eq_some hspec, by simpa using List.find?_some hspec⟩
  refine get?_inSchemaOrder_of_some (distinct_filledFields setting key type.schema hdistinct) hname ?_
  exact get?_fillFrom_of_some (hown.symm ▸ hfield)

end Provision

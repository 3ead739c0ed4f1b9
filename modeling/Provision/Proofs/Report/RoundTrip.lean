import Provision.Proofs.Json.RoundTrip
import Provision.Proofs.State.Values
import Provision.Report.Rendering

/-!
# Reports read back

A report is read back from its document as a whole or not at all.  Not at all, when
a value of a field is nested too deep for the reader.  What comes back is the report
itself, except that a resource in the value of a field has become a map of its type
and its name: objects carry no mark of what they were.
-/

namespace Provision

open Provision.Json (Reading)

/-! ## Values -/

theorem Key.legible_toJson (key : Key) : key.toJson.Legible := by
  refine .object ?_
  simp only [List.forall_mem_cons]
  exact ⟨.string _, .string _, List.forall_mem_nil _⟩

namespace Value

mutual

/-- The value that is read in the place of a value. -/
def asRead : Value → Value
  | list items => list (asReadItems items)
  | map entries => map (asReadEntries entries)
  | resource key => map [("type", text key.type.text), ("name", text key.name)]
  | other => other

/-- The values that are read in the place of the items of a list. -/
def asReadItems : List Value → List Value
  | [] => []
  | item :: rest => item.asRead :: asReadItems rest

/-- The entries that are read in the place of the entries of a map. -/
def asReadEntries : List (String × Value) → List (String × Value)
  | [] => []
  | (key, item) :: rest => (key, item.asRead) :: asReadEntries rest

end

/-- A value whose numbers come back from their texts, and in which no map has a key twice. -/
inductive Legible : Value → Prop
  | null : Legible .null
  | bool (b : Bool) : Legible (.bool b)
  | number {x : Float} (hback : Json.ReadsBack x) : Legible (.number x)
  | text (s : String) : Legible (.text s)
  | list {items : List Value} (hitems : ∀ item ∈ items, Legible item) : Legible (.list items)
  | map {entries : List (String × Value)} (hkeys : Table.Distinct entries)
      (hentries : ∀ entry ∈ entries, Legible entry.2) : Legible (.map entries)
  | resource (key : Key) : Legible (.resource key)

mutual

/-- Exactly the values without resources are read as they were. -/
theorem asRead_eq_self_iff : ∀ value : Value, value.asRead = value ↔ value.handles = []
  | null => by simp [asRead, handles]
  | bool b => by simp [asRead, handles]
  | number x => by simp [asRead, handles]
  | text s => by simp [asRead, handles]
  | list items => by
    rw [asRead, handles, Value.list.injEq]
    exact asReadItems_eq_self_iff items
  | map entries => by
    rw [asRead, handles, Value.map.injEq]
    exact asReadEntries_eq_self_iff entries
  | resource key => by simp [asRead, handles]

theorem asReadItems_eq_self_iff :
    ∀ items : List Value, asReadItems items = items ↔ handlesOfItems items = []
  | [] => by simp [asReadItems, handlesOfItems]
  | item :: rest => by
    rw [asReadItems, handlesOfItems, List.cons.injEq, List.append_eq_nil_iff,
      asRead_eq_self_iff item, asReadItems_eq_self_iff rest]

theorem asReadEntries_eq_self_iff :
    ∀ entries : List (String × Value),
      asReadEntries entries = entries ↔ handlesOfEntries entries = []
  | [] => by simp [asReadEntries, handlesOfEntries]
  | (key, item) :: rest => by
    rw [asReadEntries, handlesOfEntries, List.cons.injEq, List.append_eq_nil_iff, Prod.mk.injEq,
      asRead_eq_self_iff item, asReadEntries_eq_self_iff rest]
    simp

end

theorem asReadEntries_eq_map (entries : List (String × Value)) :
    asReadEntries entries = entries.map fun entry => (entry.1, entry.2.asRead) := by
  induction entries with
  | nil => rfl
  | cons entry rest ih => rw [asReadEntries, ih, List.map_cons]

theorem valuesToJson_eq_map (items : List Value) : valuesToJson items = items.map toJson := by
  induction items with
  | nil => rfl
  | cons item rest ih => rw [valuesToJson, ih, List.map_cons]

theorem entriesToJson_eq_map (entries : List (String × Value)) :
    entriesToJson entries = entries.map fun entry => (entry.1, entry.2.toJson) := by
  induction entries with
  | nil => rfl
  | cons entry rest ih => rw [entriesToJson, ih, List.map_cons]

theorem distinct_asReadEntries {entries : List (String × Value)} (h : Table.Distinct entries) :
    Table.Distinct (asReadEntries entries) := by
  rw [asReadEntries_eq_map, Table.Distinct, Table.keys, List.map_map]
  exact h

/-- The document of a legible value is legible. -/
theorem Legible.toJson {value : Value} (h : value.Legible) : value.toJson.Legible := by
  induction h with
  | null => exact .null
  | bool b => exact .bool b
  | number hback => exact .number hback
  | text s => exact .string s
  | list _ ih =>
    refine .array fun doc hdoc => ?_
    rw [valuesToJson_eq_map] at hdoc
    obtain ⟨item, hitem, rfl⟩ := List.mem_map.1 hdoc
    exact ih item hitem
  | map _ _ ih =>
    refine .object fun member hmember => ?_
    rw [entriesToJson_eq_map] at hmember
    obtain ⟨entry, hentry, rfl⟩ := List.mem_map.1 hmember
    exact ih entry hentry
  | resource key => exact key.legible_toJson

theorem value_toJson {value : Value} (h : value.Legible) :
    Report.value value.toJson = value.asRead := by
  induction h with
  | null => rfl
  | bool b => rfl
  | number hback => rfl
  | text s => rfl
  | @list items _ ih =>
    have hitems (items : List Value)
        (h : ∀ item ∈ items, Report.value item.toJson = item.asRead) :
        Report.values (valuesToJson items) = asReadItems items := by
      induction items with
      | nil => rfl
      | cons item rest ih =>
        rw [List.forall_mem_cons] at h
        rw [valuesToJson, Report.values, asReadItems, h.1, ih h.2]
    rw [Value.toJson, Report.value, asRead, hitems items ih]
  | @map entries hkeys _ ih =>
    have hentries (entries : List (String × Value))
        (h : ∀ entry ∈ entries, Report.value entry.2.toJson = entry.2.asRead) :
        Report.entries (entriesToJson entries) = asReadEntries entries := by
      induction entries with
      | nil => rfl
      | cons entry rest ih =>
        rw [List.forall_mem_cons] at h
        rw [entriesToJson, Report.entries, asReadEntries, h.1, ih h.2]
    rw [Value.toJson, Report.value, asRead, hentries entries ih, Table.ofPairs,
      Table.setAll_append (distinct_asReadEntries hkeys), List.nil_append]
  | resource key => rfl

/-- A value is read back unless it is nested too deep. -/
theorem value?_readTo {value : Value} (h : value.Legible) (depth : Nat) :
    Report.value? (value.toJson.readTo depth) =
      if value.toJson.nesting ≤ depth then some value.asRead else none := by
  rw [Report.value?, Json.document?_readTo]
  split
  · rw [Option.map_some, value_toJson h]
  · rfl

end Value

/-! ## Objects with fixed members -/

namespace Report

open Json (membersTo itemsTo readTo)

theorem readTo_object (depth : Nat) (members : List (String × Json)) :
    (Json.object members).readTo (depth + 1) = .object (membersTo depth members) :=
  rfl

theorem readTo_array (depth : Nat) (items : List Json) :
    (Json.array items).readTo (depth + 1) = .array (items.map (readTo depth)) := by
  rw [← Json.itemsTo_eq_map]
  rfl

section Lists

variable {α β : Type} {read : α → Option β}

theorem mapM_eq_some (shown : α → β) (items : List α) (h : ∀ item ∈ items, read item = some (shown item)) :
    items.mapM read = some (items.map shown) := by
  induction items with
  | nil => rfl
  | cons item rest ih =>
    rw [List.forall_mem_cons] at h
    rw [List.mapM_cons, h.1, ih h.2]
    rfl

theorem map_eq_self_iff {f : α → α} {items : List α} :
    items.map f = items ↔ ∀ item ∈ items, f item = item := by
  induction items with
  | nil => simp
  | cons item rest ih => rw [List.map_cons, List.cons.injEq, ih, List.forall_mem_cons]

/-- A list comes to something when each of its items does. -/
theorem mapM_eq_if (shown : α → β) (fits : α → Bool) (items : List α)
    (h : ∀ item ∈ items, read item = if fits item then some (shown item) else none) :
    items.mapM read = if items.all fits then some (items.map shown) else none := by
  induction items with
  | nil => rfl
  | cons item rest ih =>
    rw [List.forall_mem_cons] at h
    rw [List.mapM_cons, h.1, ih h.2, List.all_cons]
    cases fits item <;> cases rest.all fits <;> rfl

end Lists

/-- All members of an object are found when no others are expected. -/
theorem members?_membersTo (names : List String) (members : List (String × Json)) (depth : Nat)
    (hnames : members.map Prod.fst = names) (hnodup : names.Nodup) :
    members? names (.object (membersTo depth members)) =
      some (members.map fun member => (member.1, member.2.readTo depth)) := by
  subst hnames
  have hnamed : (membersTo depth members).mapM
      (fun member => member.1.map fun name => (name, member.2)) =
        some (members.map fun member => (member.1, member.2.readTo depth)) := by
    rw [Json.membersTo_eq_map, List.mapM_map]
    exact mapM_eq_some _ members fun _ _ => rfl
  have hknown : (members.map fun member => (member.1, member.2.readTo depth)).filter
      (fun member => (members.map Prod.fst).contains member.1) =
        members.map fun member => (member.1, member.2.readTo depth) := by
    rw [List.filter_eq_self]
    intro named hmem
    obtain ⟨member, hmember, rfl⟩ := List.mem_map.1 hmem
    exact List.contains_iff_mem.2 (List.mem_map_of_mem hmember)
  simp only [members?, hnamed, Option.bind_eq_bind, Option.bind_some, hknown, List.map_map]
  exact if_pos hnodup

theorem texts_readTo (items : List String) (depth : Nat) :
    array? string? ((texts items).readTo (depth + 1)) = some items := by
  rw [texts, readTo_array, array?, List.map_map, List.mapM_map]
  exact (mapM_eq_some id items fun _ _ => rfl).trans (by rw [List.map_id])

theorem optional_readTo (text : Option String) (depth : Nat) :
    optional? (some ((optional text).readTo depth)) = some text := by
  cases text <;> rfl

theorem key?_readTo (key : Key) (depth : Nat) :
    key? (key.toJson.readTo (depth + 1)) = some key := by
  have hmembers := members?_membersTo ["type", "name"]
    [("type", .string key.type.text), ("name", .string key.name)] depth rfl (by decide)
  have htype : TypeName.ofText key.type.text = .ok key.type := dif_pos key.type.wellFormed
  rw [Key.toJson, readTo_object, key?, hmembers]
  show ((TypeName.ofText key.type.text).toOption.bind fun type => some ⟨type, key.name⟩) = some key
  rw [htype]
  rfl

theorem kind?_readTo (kind : ChangeKind) (depth : Nat) :
    kind? ((Json.string kind.text).readTo depth) = some kind := by
  cases kind <;> rfl

theorem status?_readTo (status : ChangeStatus) (depth : Nat) :
    status? ((Json.string status.text).readTo depth) = some status := by
  cases status <;> rfl

theorem legible_texts (items : List String) : (texts items).Legible := by
  refine .array fun doc hdoc => ?_
  obtain ⟨item, -, rfl⟩ := List.mem_map.1 hdoc
  exact .string item

theorem legible_optional (text : Option String) : (optional text).Legible := by
  cases text with
  | none => exact .null
  | some text => exact .string text

theorem legible_array {α : Type} {write : α → Json} {items : List α}
    (h : ∀ item ∈ items, (write item).Legible) : (Json.array (items.map write)).Legible := by
  refine .array fun doc hdoc => ?_
  obtain ⟨item, hitem, rfl⟩ := List.mem_map.1 hdoc
  exact h item hitem

end Report

/-! ## Reports -/

open Report

namespace FieldChange

/-- Both values of a change are legible. -/
structure Legible (change : FieldChange) : Prop where
  current : change.current.Legible
  pending : change.pending.Legible

/-- Neither value of a change is nested deeper than this. -/
def fits (depth : Nat) (change : FieldChange) : Bool :=
  change.current.toJson.nesting ≤ depth && change.pending.toJson.nesting ≤ depth

/-- The change that is read in the place of a change. -/
def asRead (change : FieldChange) : FieldChange :=
  { change with current := change.current.asRead, pending := change.pending.asRead }

theorem Legible.document {change : FieldChange} (h : change.Legible) :
    (Report.fieldChange change).Legible := by
  refine .object ?_
  simp only [List.forall_mem_cons]
  exact ⟨.string _, h.current.toJson, h.pending.toJson, .bool _, List.forall_mem_nil _⟩

theorem Legible.reads {change : FieldChange} (h : change.Legible) (depth : Nat) :
    Report.fieldChange? ((Report.fieldChange change).readTo (depth + 1)) =
      if change.fits depth then some change.asRead else none := by
  have hmembers := members?_membersTo ["field", "current", "pending", "updatable"]
    [("field", .string change.field), ("current", change.current.toJson),
      ("pending", change.pending.toJson), ("updatable", .bool change.updatable)] depth rfl
    (by decide)
  rw [Report.fieldChange, readTo_object, Report.fieldChange?, hmembers]
  show ((value? (change.current.toJson.readTo depth)).bind fun current =>
    (value? (change.pending.toJson.readTo depth)).bind fun pending =>
      some (FieldChange.mk change.field current pending change.updatable)) = _
  rw [Value.value?_readTo h.current, Value.value?_readTo h.pending, fits]
  by_cases hcurrent : change.current.toJson.nesting ≤ depth <;>
    by_cases hpending : change.pending.toJson.nesting ≤ depth <;>
      simp [hcurrent, hpending, asRead]

end FieldChange

namespace PlannedChange

/-- A change whose number fits into 64 bits and whose values are legible. -/
structure Legible (change : PlannedChange) : Prop where
  id : change.id < 2 ^ 64
  fields : ∀ field ∈ change.fields, field.Legible

/-- No value of a change is nested deeper than this. -/
def fits (depth : Nat) (change : PlannedChange) : Bool :=
  change.fields.all (FieldChange.fits depth)

/-- The change that is read in the place of a change. -/
def asRead (change : PlannedChange) : PlannedChange :=
  { change with fields := change.fields.map FieldChange.asRead }

theorem Legible.document {change : PlannedChange} (h : change.Legible) :
    (plannedChange change).Legible := by
  refine .object ?_
  simp only [List.forall_mem_cons]
  exact ⟨.natural h.id, .string _, change.key.legible_toJson, .string _,
    legible_array fun field hfield => (h.fields field hfield).document, legible_optional _,
    legible_optional _, List.forall_mem_nil _⟩

theorem Legible.reads {change : PlannedChange} (h : change.Legible) (depth : Nat) :
    plannedChange? ((plannedChange change).readTo (depth + 3)) =
      if change.fits depth then some change.asRead else none := by
  have hmembers := members?_membersTo ["id", "kind", "key", "file", "fields", "workflow", "hint"]
    [("id", .natural change.id), ("kind", .string change.kind.text), ("key", change.key.toJson),
      ("file", .string change.file.text), ("fields", .array (change.fields.map Report.fieldChange)),
      ("workflow", Report.optional change.workflow), ("hint", Report.optional change.hint)] (depth + 2) rfl
    (by decide)
  have hfields : array? Report.fieldChange?
      ((Json.array (change.fields.map Report.fieldChange)).readTo (depth + 2)) =
        if change.fits depth then some (change.fields.map FieldChange.asRead) else none := by
    rw [readTo_array, array?, List.map_map, List.mapM_map]
    exact mapM_eq_if _ _ change.fields fun field hfield => (h.fields field hfield).reads depth
  rw [plannedChange, readTo_object, plannedChange?, hmembers]
  show ((kind? ((Json.string change.kind.text).readTo (depth + 2))).bind fun kind =>
    (key? (change.key.toJson.readTo (depth + 2))).bind fun key =>
      (array? Report.fieldChange? ((Json.array (change.fields.map Report.fieldChange)).readTo (depth + 2))).bind
        fun fields =>
          (optional? (some ((Report.optional change.workflow).readTo (depth + 2)))).bind fun workflow =>
            (optional? (some ((Report.optional change.hint).readTo (depth + 2)))).bind fun hint =>
              some (PlannedChange.mk change.id kind key change.file fields workflow hint)) = _
  rw [kind?_readTo, key?_readTo, hfields, optional_readTo, optional_readTo]
  cases change.fits depth <;> rfl

end PlannedChange

theorem ChangeResult.legible_document {result : ChangeResult} (h : result.changeId < 2 ^ 64) :
    (changeResult result).Legible := by
  refine .object ?_
  simp only [List.forall_mem_cons]
  exact ⟨.natural h, .string _, result.key.legible_toJson, .string _, legible_texts _,
    legible_optional _, List.forall_mem_nil _⟩

theorem ChangeResult.reads (result : ChangeResult) (depth : Nat) :
    changeResult? ((changeResult result).readTo (depth + 2)) = some result := by
  have hmembers := members?_membersTo ["change_id", "kind", "key", "status", "stages", "error"]
    [("change_id", .natural result.changeId), ("kind", .string result.kind.text),
      ("key", result.key.toJson), ("status", .string result.status.text),
      ("stages", texts result.stages), ("error", Report.optional result.error)] (depth + 1) rfl
    (by decide)
  rw [changeResult, readTo_object, changeResult?, hmembers]
  show ((kind? ((Json.string result.kind.text).readTo (depth + 1))).bind fun kind =>
    (key? (result.key.toJson.readTo (depth + 1))).bind fun key =>
      (status? ((Json.string result.status.text).readTo (depth + 1))).bind fun status =>
        (array? string? ((texts result.stages).readTo (depth + 1))).bind fun stages =>
          (optional? (some ((Report.optional result.error).readTo (depth + 1)))).bind fun error =>
            some (ChangeResult.mk result.changeId kind key status stages error)) = _
  rw [kind?_readTo, key?_readTo, status?_readTo, texts_readTo, optional_readTo]
  rfl

namespace Plan

/-- A plan whose numbers fit into 64 bits and whose values are legible. -/
structure Legible (plan : Plan) : Prop where
  unchanged : plan.unchanged < 2 ^ 64
  changes : ∀ change ∈ plan.changes, change.Legible

/-- No value of a field is nested deeper than this. -/
def fits (depth : Nat) (plan : Plan) : Bool :=
  plan.changes.all (PlannedChange.fits depth)

/-- No value of a field holds a resource. -/
def HandleFree (plan : Plan) : Prop :=
  ∀ change ∈ plan.changes, ∀ field ∈ change.fields,
    field.current.handles = [] ∧ field.pending.handles = []

/-- The plan that is read in the place of a plan. -/
def asRead (plan : Plan) : Plan :=
  { plan with changes := plan.changes.map PlannedChange.asRead }

theorem Legible.document {content : Plan} (h : content.Legible) :
    (Report.plan content).Legible := by
  refine .object ?_
  simp only [List.forall_mem_cons]
  exact ⟨legible_texts _, legible_array fun change hchange => (h.changes change hchange).document,
    .natural h.unchanged, legible_texts _, legible_texts _, List.forall_mem_nil _⟩

theorem Legible.reads {content : Plan} (h : content.Legible) (depth : Nat) :
    plan? ((Report.plan content).readTo (depth + 5)) =
      if content.fits depth then some content.asRead else none := by
  have hmembers := members?_membersTo ["files", "changes", "unchanged", "warnings", "errors"]
    [("files", texts (content.files.map Path.text)),
      ("changes", .array (content.changes.map plannedChange)),
      ("unchanged", .natural content.unchanged), ("warnings", texts content.warnings),
      ("errors", texts content.errors)] (depth + 4) rfl (by decide)
  have hchanges : array? plannedChange?
      ((Json.array (content.changes.map plannedChange)).readTo (depth + 4)) =
        if content.fits depth then some (content.changes.map PlannedChange.asRead) else none := by
    rw [readTo_array, array?, List.map_map, List.mapM_map]
    exact mapM_eq_if _ _ content.changes fun change hchange =>
      (h.changes change hchange).reads depth
  rw [Report.plan, readTo_object, plan?, hmembers]
  show ((array? string? ((texts (content.files.map Path.text)).readTo (depth + 4))).bind
    fun files =>
      (array? plannedChange? ((Json.array (content.changes.map plannedChange)).readTo
        (depth + 4))).bind fun changes =>
          (array? string? ((texts content.warnings).readTo (depth + 4))).bind fun warnings =>
            (array? string? ((texts content.errors).readTo (depth + 4))).bind fun errors =>
              some (Plan.mk (files.map Path.mk) changes content.unchanged warnings errors)) = _
  have hfiles : (content.files.map Path.text).map Path.mk = content.files := by
    rw [List.map_map]
    exact List.map_id content.files
  rw [texts_readTo, hchanges, texts_readTo, texts_readTo]
  cases content.fits depth with
  | false => rfl
  | true =>
    simp only [Option.bind_some, if_true, hfiles]
    rfl

/-- Exactly the plans without resources in their values are read as they were. -/
theorem asRead_eq_self_iff {plan : Plan} : plan.asRead = plan ↔ plan.HandleFree := by
  have hplan : plan.asRead = plan ↔ plan.changes.map PlannedChange.asRead = plan.changes := by
    cases plan
    simp [asRead]
  have hchange (change : PlannedChange) :
      change.asRead = change ↔ change.fields.map FieldChange.asRead = change.fields := by
    cases change
    simp [PlannedChange.asRead]
  have hfield (field : FieldChange) :
      field.asRead = field ↔ field.current.handles = [] ∧ field.pending.handles = [] := by
    rw [← Value.asRead_eq_self_iff, ← Value.asRead_eq_self_iff]
    cases field
    simp [FieldChange.asRead]
  simp only [hplan, map_eq_self_iff, hchange, hfield, HandleFree]

end Plan

namespace ApplyReport

/-- A report whose numbers fit into 64 bits and whose values are legible. -/
structure Legible (report : ApplyReport) : Prop where
  plan : report.plan.Legible
  results : ∀ result ∈ report.results, result.changeId < 2 ^ 64

/-- The report that is read in the place of a report. -/
def asRead (report : ApplyReport) : ApplyReport :=
  { report with plan := report.plan.asRead }

theorem asRead_eq_self_iff {report : ApplyReport} :
    report.asRead = report ↔ report.plan.HandleFree := by
  rw [← Plan.asRead_eq_self_iff]
  cases report
  simp [asRead]

theorem Legible.document {report : ApplyReport} (h : report.Legible) :
    (applied report).Legible := by
  refine .object ?_
  simp only [List.forall_mem_cons]
  exact ⟨h.plan.document,
    legible_array fun result hresult => ChangeResult.legible_document (h.results result hresult),
    legible_texts _, List.forall_mem_nil _⟩

theorem Legible.reads {report : ApplyReport} (h : report.Legible) (depth : Nat) :
    applied? ((applied report).readTo (depth + 6)) =
      if report.plan.fits depth then some report.asRead else none := by
  have hmembers := members?_membersTo ["plan", "results", "errors"]
    [("plan", Report.plan report.plan), ("results", .array (report.results.map changeResult)),
      ("errors", texts report.errors)] (depth + 5) rfl (by decide)
  have hresults : array? changeResult?
      ((Json.array (report.results.map changeResult)).readTo (depth + 5)) =
        some report.results := by
    rw [readTo_array, array?, List.map_map, List.mapM_map]
    exact (mapM_eq_some id report.results fun result _ =>
      result.reads (depth + 2)).trans (by rw [List.map_id])
  rw [applied, readTo_object, applied?, hmembers]
  show ((plan? ((Report.plan report.plan).readTo (depth + 5))).bind fun plan =>
    (array? changeResult? ((Json.array (report.results.map changeResult)).readTo
      (depth + 5))).bind fun results =>
        (array? string? ((texts report.errors).readTo (depth + 5))).bind fun errors =>
          some (ApplyReport.mk plan results errors)) = _
  rw [h.plan.reads, hresults, texts_readTo]
  cases report.plan.fits depth <;> rfl

end ApplyReport

namespace Report

/-- The text of a plan reads as the plan unless a value is nested too deep. -/
theorem planOfText?_renderPlan {content : Plan} (h : content.Legible) (options : Options) :
    planOfText? (renderPlan .json options content) =
      if content.fits 122 then some content.asRead else none := by
  rw [planOfText?, renderPlan, h.document.read?_prettyText]
  exact h.reads 122

/-- The account of a run stands around its plan, so the plan may be nested one level less. -/
theorem appliedOfText?_renderApplied {report : ApplyReport} (h : report.Legible)
    (options : Options) :
    appliedOfText? (renderApplied .json options report) =
      if report.plan.fits 121 then some report.asRead else none := by
  rw [appliedOfText?, renderApplied, h.document.read?_prettyText]
  exact h.reads 121

/-- Reports whose numbers come back from their texts are read back as a whole or not at all, and
unchanged exactly when no value is nested too deep and no value holds a resource. -/
theorem rendered_reports_read_back {content : Plan} (hcontent : content.Legible)
    {report : ApplyReport} (hreport : report.Legible) (options : Options) :
    (planOfText? (renderPlan .json options content) =
      if content.fits 122 then some content.asRead else none) ∧
    (planOfText? (renderPlan .json options content) = some content ↔
      content.fits 122 ∧ content.HandleFree) ∧
    (appliedOfText? (renderApplied .json options report) =
      if report.plan.fits 121 then some report.asRead else none) ∧
    (appliedOfText? (renderApplied .json options report) = some report ↔
      report.plan.fits 121 ∧ report.plan.HandleFree) := by
  rw [planOfText?_renderPlan hcontent, appliedOfText?_renderApplied hreport,
    ← content.asRead_eq_self_iff, ← report.asRead_eq_self_iff]
  refine ⟨rfl, ?_, rfl, ?_⟩
  · cases content.fits 122 <;> simp
  · cases report.plan.fits 121 <;> simp

/-! ### A report with values of every kind -/

/-- The shelf that the changes are about. -/
def shelfKey : Key := ⟨⟨"m::shelf", by decide⟩, "oak"⟩

/-- A plan that changes one field of a shelf. -/
def shelfPlan (current pending : Value) : Plan where
  files := [⟨"/w/main.cairn"⟩]
  changes := [{
    id := 1
    kind := .update
    key := shelfKey
    file := ⟨"/w/main.cairn"⟩
    fields := [⟨"books", current, pending, true⟩]
    workflow := some "in \"place\""
    hint := none }]
  unchanged := 2
  warnings := ["a\nb"]

/-- The account of a run that failed to change the shelf. -/
def shelfReport (current pending : Value) : ApplyReport where
  plan := shelfPlan current pending
  results := [⟨1, .update, shelfKey, .failed, ["empty", "fill"], some "too heavy"⟩]
  errors := ["too heavy"]

/-- Books in a map, and a list in it. -/
def books : Value :=
  .map [("new", .bool true), ("pages", .list [.number 8080, .number 1.5, .null]),
    ("title", .text "a 'b'")]

theorem legible_shelfPlan {current pending : Value} (hcurrent : current.Legible)
    (hpending : pending.Legible) : (shelfPlan current pending).Legible where
  unchanged := (by decide : 2 < 2 ^ 64)
  changes := by
    simp only [shelfPlan, List.forall_mem_cons, List.not_mem_nil, false_imp_iff, implies_true,
      and_true]
    refine ⟨(by decide : 1 < 2 ^ 64), ?_⟩
    simp only [List.forall_mem_cons, List.not_mem_nil, false_imp_iff, implies_true, and_true]
    exact ⟨hcurrent, hpending⟩

theorem legible_books : books.Legible := by
  refine .map (by unfold Table.Distinct; decide) ?_
  simp only [List.forall_mem_cons, List.not_mem_nil, false_imp_iff, implies_true, and_true]
  refine ⟨.bool _, .list ?_, .text _⟩
  simp only [List.forall_mem_cons, List.not_mem_nil, false_imp_iff, implies_true, and_true]
  exact ⟨.number (by decide +kernel), .number (by decide +kernel), .null⟩

theorem rendered_reports_read_back_shelf :
    (shelfPlan .null books).Legible ∧ (shelfReport .null books).Legible ∧
      planOfText? (renderPlan .json {} (shelfPlan .null books)) = some (shelfPlan .null books) ∧
      appliedOfText? (renderApplied .json {} (shelfReport .null books)) =
        some (shelfReport .null books) := by
  have hplan := legible_shelfPlan .null legible_books
  have hreport : (shelfReport .null books).Legible := ⟨hplan, by decide⟩
  have hfree : (shelfPlan .null books).HandleFree := by
    unfold Plan.HandleFree
    decide
  obtain ⟨-, hcontent, -, haccount⟩ := rendered_reports_read_back hplan hreport {}
  exact ⟨hplan, hreport, hcontent.2 ⟨by decide, hfree⟩, haccount.2 ⟨by decide, hfree⟩⟩

/-- A resource in a field does not come back. -/
theorem resource_reads_as_map :
    planOfText? (renderPlan .json {} (shelfPlan .null (.resource shelfKey))) ≠
      some (shelfPlan .null (.resource shelfKey)) := by
  have hlegible := legible_shelfPlan .null (.resource shelfKey)
  rw [planOfText?_renderPlan hlegible, if_pos (by decide)]
  intro heq
  have hfree := Plan.asRead_eq_self_iff.1 (Option.some.inj heq)
  unfold Plan.HandleFree at hfree
  revert hfree
  decide

end Report

end Provision

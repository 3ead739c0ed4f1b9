import Provision.Proofs.Evaluation.Body

/-!
# Resource blocks

A resource block with a literal name and a body of pairs.  Its body says whether
the block gets done; when it does, the resource is added to the inventory, unless
its key was declared before.
-/

namespace Provision

open Provision.Language (Node Entry)
open Retry (Verdict)

/-- The name that a literal gives to a resource. -/
def literalName? : Node → Option String
  | .text s => some s
  | .number x => some (numberText x)
  | _ => none

/-- Whether a node is a literal. -/
def isLiteral : Node → Bool
  | .null | .bool _ | .number _ | .text _ => true
  | _ => false

/-- The type and the key that a block with a literal name declares. -/
def declaredBy? (registry : Registry) : Node → Option (ResourceType × Key)
  | .resource typeText name _ _ =>
    (TypeName.ofText typeText).toOption.bind fun typeName =>
      (registry.type? typeName).bind fun type =>
        (literalName? name).bind fun text =>
          (Key.make type.name text).toOption.map fun key => (type, key)
  | _ => none

/-- What a resource block says: the resource that it adds, apart from its place. -/
def blockSaid (setup : EvaluationSetup) (file : Nat) (type : ResourceType) (key : Key)
    (entries : List Entry) (p : Progress) : Verdict Content :=
  match bodySaid setup [] file entries p with
  | .yields body =>
    match finishResource ⟨setup.mode, setup.current, []⟩ key type Span.generated body with
    | .ok resource => .yields resource.content
    | .error _ => .fails
  | .waits => .waits
  | .fails => .fails

/-- A resource as it is added, with its declaration. -/
def declaredResource (setup : EvaluationSetup) (source : List Node) (p : Progress)
    (resource : Resource) : Resource :=
  { resource with
    declaration :=
      if setup.mode = .configuration then some ⟨source, p.scope.flatten, none, []⟩ else none }

/-- The progress after a resource was added to a file. -/
def Progress.adding (p : Progress) (file : Nat) (resource : Resource) : Progress :=
  { p with
    inventory := p.inventory.insertAt file resource
    declared := Table.set p.declared resource.key ⟨[], resource.origin⟩ }

section Blocks

variable {setup : EvaluationSetup} {undeclared : List TypeName} {file : Nat}
variable {entries entries' : List Entry} {base base' p : Progress}

theorem setting_evaluator (setup : EvaluationSetup) (undeclared : List TypeName) :
    (setup.evaluator undeclared).setting = ⟨setup.mode, setup.current, undeclared⟩ := by
  unfold EvaluationSetup.evaluator
  cases setup.depth <;> rfl

theorem declaredBy?_eq_some {registry : Registry} {typeText : String} {name : Node}
    {source : List Node} {span : Span} {type : ResourceType} {key : Key} :
    declaredBy? registry (.resource typeText name source span) = some (type, key) ↔
      ∃ typeName text, TypeName.ofText typeText = .ok typeName ∧
        registry.type? typeName = some type ∧ literalName? name = some text ∧
        Key.make type.name text = .ok key := by
  simp only [declaredBy?, Option.bind_eq_some_iff, Option.map_eq_some_iff, toOption_eq_some,
    Prod.mk.injEq]
  constructor
  · rintro ⟨typeName, htypeName, found, htype, text, hname, made, hkey, rfl, rfl⟩
    exact ⟨typeName, text, htypeName, htype, hname, hkey⟩
  · rintro ⟨typeName, text, htypeName, htype, hname, hkey⟩
    exact ⟨typeName, htypeName, type, htype, text, hname, key, hkey, rfl, rfl⟩

theorem settled_run {α : Type} (outcome : Except EvalError α) (p : Progress) :
    (Step.settled outcome).run p =
      match outcome with
      | .ok a => (.ok a, p)
      | .error e => (.error (.failed e), p) := by
  cases outcome <;> rfl

theorem literalName_run {name : Node} {text : String} (hname : literalName? name = some text)
    (view : View) (reads : List Key) :
    (evaluate view name >>= nameOf view).run reads = (.ok text, reads) := by
  cases name with
  | text s =>
    cases hname
    rfl
  | number x =>
    cases hname
    rfl
  | _ => cases hname

theorem literalName_fails {name : Node} (hliteral : isLiteral name = true)
    (hname : literalName? name = none) (view : View) (reads : List Key) :
    ∃ e, (evaluate view name >>= nameOf view).run reads = (.error (.failed e), reads) := by
  cases name with
  | null => exact ⟨_, rfl⟩
  | bool b => exact ⟨_, rfl⟩
  | number x => cases hname
  | text s => cases hname
  | _ => cases hliteral

/-! ## Adding a resource -/

theorem register_run {frame : Frame} {resource : Resource}
    (hdeclared : Table.get? p.declared resource.key = none)
    (hresource : p.inventory.resource? resource.key = none)
    (hsite : frame.site = []) :
    (register frame resource).run p = (.ok (), p.adding frame.file resource) := by
  unfold register
  rw [run_bind_ok (run_get p)]
  dsimp only
  rw [hdeclared, hresource, hsite]
  rfl

/-- A block of a registered type with a literal name runs its body. -/
theorem resource_run {typeText : String} {typeName : TypeName} {type : ResourceType} {name : Node}
    {text : String} {source : List Node} {span : Span}
    (hvirtuals : p.inventory.virtuals = [])
    (htypeName : TypeName.ofText typeText = .ok typeName)
    (htype : p.inventory.registry.type? typeName = some type)
    (hname : literalName? name = some text) :
    (runStatement (setup.evaluator undeclared) (.resource typeText name source span)
      { file := file }).run p =
      (declareResource (setup.evaluator undeclared) { file := file } type text source span
        (runMarked (setup.evaluator undeclared) source (bodyFrame file))).run p := by
  rw [runStatement, typeAt_eq_ok.2 htypeName]
  have hread : ((setup.evaluator undeclared).reading { file := file } span fun view => do
      let value ← evaluate view name
      nameOf view value).run p = (.ok text, p) := by
    have hrun := literalName_run hname
      (p.view (setup.evaluator undeclared).setting { file := file } span) p.reads
    show (((evaluate _ name >>= nameOf _).run p.reads).1,
      { p with reads := ((evaluate _ name >>= nameOf _).run p.reads).2 }) = _
    rw [hrun]
  have hvirtual : p.inventory.virtual? typeName = none := by
    unfold Inventory.virtual?
    rw [hvirtuals]
    rfl
  show (((setup.evaluator undeclared).reading { file := file } span fun view => do
      let value ← evaluate view name
      nameOf view value) >>= _).run p = _
  rw [run_bind_ok hread]
  rw [run_bind_ok (run_get p), hvirtual]
  dsimp only
  rw [htype]
  rfl

/-! ## Declaring a resource -/

theorem keyAt_of_make {span : Span} {type : TypeName} {text : String} {key : Key}
    (h : Key.make type text = .ok key) :
    keyAt span type text = .ok key := by
  unfold keyAt
  rw [h]

/-- A declaration whose key is good runs its body, and then makes a resource of it. -/
theorem declare_run {type : ResourceType} {text : String} {key : Key} {span : Span}
    (hkey : Key.make type.name text = .ok key) :
    (declareResource (setup.evaluator undeclared) { file := file } type text
      (entries.map Node.pair) span
      (runMarked (setup.evaluator undeclared) (entries.map Node.pair) (bodyFrame file))).run p =
      match (pairBody setup undeclared file entries).run p with
      | (.ok body, q) =>
        (match finishResource (setup.evaluator undeclared).setting key type span body with
        | .ok resource =>
          (register { file := file }
            (declaredResource setup (entries.map Node.pair) q resource)).run q
        | .error e => (.error (.failed e), q))
      | (.error i, q) => (.error i, q) := by
  have hmode : (setup.evaluator undeclared).setting.mode = setup.mode := by
    rw [setting_evaluator]
  have hkeyAt : (Step.settled (keyAt span type.name (qualify none text))).run p = (.ok key, p) := by
    rw [show keyAt span type.name (qualify none text) = .ok key from keyAt_of_make hkey]
    rfl
  have hbody : resourceBody { file := file }
      (runMarked (setup.evaluator undeclared) (entries.map Node.pair) (bodyFrame file)) =
      pairBody setup undeclared file entries := rfl
  unfold declareResource
  rw [run_bind_ok hkeyAt, hbody, run_bind]
  generalize (setup.evaluator undeclared).setting = setting at *
  rcases (pairBody setup undeclared file entries).run p with ⟨i | body, q⟩
  · rfl
  · dsimp only
    rw [run_bind, settled_run]
    cases finishResource setting key type span body with
    | error e => rfl
    | ok resource =>
      unfold declaredResource
      rw [← hmode]
      exact run_bind_ok (run_get q)

/-- Neither the types still undeclared nor the place of a block bear on the resource it makes. -/
theorem finish_alike {undeclared : List TypeName} (undeclared' : List TypeName) {origin : Span}
    (origin' : Span) {type : ResourceType} {key : Key} {body body' : EvaluatedBody}
    {resource : Resource}
    (hdistinct : Table.Distinct body.fields)
    (hdistinct' : Table.Distinct body'.fields)
    (halike : body.Alike body')
    (h : finishResource ⟨setup.mode, setup.current, undeclared⟩ key type origin body = .ok resource) :
    ∃ resource',
      finishResource ⟨setup.mode, setup.current, undeclared'⟩ key type origin' body' = .ok resource' ∧
        resource'.key = resource.key ∧ resource'.content = resource.content :=
  finishResource_alike rfl rfl hdistinct hdistinct' halike h

/-- A block that says a resource says the same resource wherever more is visible. -/
theorem blockSaid_yields {type : ResourceType} {key : Key} {content : Content}
    (haround : Around setup file entries base)
    (haround' : Around setup file entries' base')
    (hbare : entries.map Entry.bare = entries'.map Entry.bare)
    (hbase : base.plainView.Below base'.plainView)
    (h : blockSaid setup file type key entries base = .yields content) :
    blockSaid setup file type key entries' base' = .yields content := by
  unfold blockSaid at h ⊢
  cases hbody : bodySaid setup [] file entries base with
  | yields body =>
    rw [hbody] at h
    dsimp only at h
    obtain ⟨body', hbody', halike⟩ := bodySaid_yields haround haround' hbare hbase [] hbody
    cases hfinish : finishResource ⟨setup.mode, setup.current, []⟩ key type Span.generated body with
    | error e =>
      rw [hfinish] at h
      cases h
    | ok resource =>
      rw [hfinish] at h
      cases h
      obtain ⟨resource', hfinish', -, hcontent⟩ := finish_alike [] Span.generated
        (bodySaid_known haround hbody).1 (bodySaid_known haround' hbody').1 halike hfinish
      rw [hbody']
      dsimp only
      rw [hfinish']
      exact congrArg Verdict.yields hcontent
  | waits =>
    rw [hbody] at h
    cases h
  | fails =>
    rw [hbody] at h
    cases h

/-- A block that fails fails wherever more is visible. -/
theorem blockSaid_fails {type : ResourceType} {key : Key}
    (haround : Around setup file entries base)
    (haround' : Around setup file entries' base')
    (hbare : entries.map Entry.bare = entries'.map Entry.bare)
    (hbase : base.plainView.Below base'.plainView)
    (h : blockSaid setup file type key entries base = .fails) :
    blockSaid setup file type key entries' base' = .fails := by
  unfold blockSaid at h ⊢
  cases hbody : bodySaid setup [] file entries base with
  | yields body =>
    rw [hbody] at h
    dsimp only at h
    obtain ⟨body', hbody', halike⟩ := bodySaid_yields haround haround' hbare hbase [] hbody
    rw [hbody']
    dsimp only
    cases hfinish' : finishResource ⟨setup.mode, setup.current, []⟩ key type Span.generated body' with
    | error e => rfl
    | ok resource' =>
      obtain ⟨resource, hfinish, -⟩ := finish_alike [] Span.generated
        (bodySaid_known haround' hbody').1 (bodySaid_known haround hbody).1 halike.symm hfinish'
      rw [hfinish] at h
      cases h
  | waits =>
    rw [hbody] at h
    cases h
  | fails =>
    have hthere : bodySaid setup [] file entries' base' = .fails :=
      bodySaid_fails haround haround' hbare hbase hbody
    rw [hthere]

/-! ## What a block does -/

/-- A block whose key is good runs its body and makes a resource of what that comes to. -/
theorem block_run_of_declared {typeText : String} {name : Node} {span : Span} {type : ResourceType}
    {key : Key} (hvirtuals : p.inventory.virtuals = [])
    (hby : declaredBy? p.inventory.registry
      (.resource typeText name (entries.map Node.pair) span) = some (type, key))
    (undeclared : List TypeName) :
    (runStatement (setup.evaluator undeclared)
      (.resource typeText name (entries.map Node.pair) span) { file := file }).run p =
      match (pairBody setup undeclared file entries).run p with
      | (.ok body, q) =>
        (match finishResource ⟨setup.mode, setup.current, undeclared⟩ key type span body with
        | .ok resource =>
          (register { file := file }
            (declaredResource setup (entries.map Node.pair) q resource)).run q
        | .error e => (.error (.failed e), q))
      | (.error i, q) => (.error i, q) := by
  obtain ⟨typeName, text, htypeName, htype, hname, hkey⟩ := declaredBy?_eq_some.1 hby
  rw [resource_run hvirtuals htypeName htype hname, declare_run hkey, setting_evaluator]

section Statement

variable {typeText : String} {name : Node} {span : Span} {type : ResourceType} {key : Key}
  (haround : Around setup file entries p)
  (hby : declaredBy? p.inventory.registry
    (.resource typeText name (entries.map Node.pair) span) = some (type, key))

include haround hby

/-- A block runs its body and makes a resource of what that comes to. -/
theorem block_run (undeclared : List TypeName) :
    (runStatement (setup.evaluator undeclared)
      (.resource typeText name (entries.map Node.pair) span) { file := file }).run p =
      match (pairBody setup undeclared file entries).run p with
      | (.ok body, q) =>
        (match finishResource ⟨setup.mode, setup.current, undeclared⟩ key type span body with
        | .ok resource =>
          (register { file := file }
            (declaredResource setup (entries.map Node.pair) q resource)).run q
        | .error e => (.error (.failed e), q))
      | (.error i, q) => (.error i, q) :=
  block_run_of_declared haround.virtuals hby undeclared

theorem block_of_waits (hsaid : blockSaid setup file type key entries p = .waits)
    (undeclared : List TypeName) :
    ∃ reasons, (runStatement (setup.evaluator undeclared)
      (.resource typeText name (entries.map Node.pair) span) { file := file }).run p =
      (.error (.deferred reasons), p) := by
  have hbody : bodySaid setup undeclared file entries p = .waits := by
    have hrefl := view_below_refl haround.virtuals
    unfold blockSaid at hsaid
    cases hhere : bodySaid setup undeclared file entries p with
    | yields body =>
      obtain ⟨body', hbody', -⟩ := bodySaid_yields haround haround rfl hrefl [] hhere
      rw [hbody'] at hsaid
      dsimp only at hsaid
      split at hsaid <;> cases hsaid
    | waits => rfl
    | fails =>
      have hthere : bodySaid setup [] file entries p = .fails :=
        bodySaid_fails haround haround rfl hrefl hhere
      rw [hthere] at hsaid
      cases hsaid
  obtain ⟨reasons, hrun⟩ := run_of_bodySaid_waits haround hbody
  exact ⟨reasons, by rw [block_run haround hby, hrun]⟩

theorem block_of_fails (hsaid : blockSaid setup file type key entries p = .fails)
    (undeclared : List TypeName) :
    ∃ e after, (runStatement (setup.evaluator undeclared)
      (.resource typeText name (entries.map Node.pair) span) { file := file }).run p =
      (.error (.failed e), after) := by
  have hrefl := view_below_refl haround.virtuals
  unfold blockSaid at hsaid
  cases hbody : bodySaid setup [] file entries p with
  | yields body =>
    rw [hbody] at hsaid
    obtain ⟨body', hbody', halike⟩ := bodySaid_yields haround haround rfl hrefl undeclared hbody
    rw [block_run haround hby, run_of_bodySaid_yields haround hbody']
    dsimp only
    -- a resource made here would be made of the like body, too
    cases hfinish : finishResource ⟨setup.mode, setup.current, undeclared⟩ key type span body' with
    | error e => exact ⟨e, p, rfl⟩
    | ok resource =>
      obtain ⟨resource', hfinish', -⟩ := finish_alike [] Span.generated
        (bodySaid_known haround hbody').1 (bodySaid_known haround hbody).1 halike.symm hfinish
      dsimp only at hsaid
      rw [hfinish'] at hsaid
      cases hsaid
  | waits =>
    rw [hbody] at hsaid
    cases hsaid
  | fails =>
    have hthere : bodySaid setup undeclared file entries p = .fails :=
      bodySaid_fails haround haround rfl hrefl hbody
    obtain ⟨e, after, hrun⟩ := run_of_bodySaid_fails haround hthere
    exact ⟨e, after, by rw [block_run haround hby, hrun]⟩

/-- A block that says a resource adds it. -/
theorem block_of_yields {content : Content}
    (hsaid : blockSaid setup file type key entries p = .yields content)
    (hdeclared : Table.get? p.declared key = none)
    (hresource : p.inventory.resource? key = none)
    (undeclared : List TypeName) :
    ∃ resource, (runStatement (setup.evaluator undeclared)
        (.resource typeText name (entries.map Node.pair) span) { file := file }).run p =
        (.ok (), p.adding file resource) ∧
      resource.key = key ∧ resource.content = content ∧
      ∀ field value, resource.field? field = some value → value.Known p.inventory ∨
        ∃ current recorded, setup.current = some current ∧
          current.resource? key = some recorded ∧ (field, value) ∈ recorded.fields := by
  have hrefl := view_below_refl haround.virtuals
  unfold blockSaid at hsaid
  cases hbody : bodySaid setup [] file entries p with
  | yields body =>
    rw [hbody] at hsaid
    dsimp only at hsaid
    obtain ⟨body', hbody', halike⟩ := bodySaid_yields haround haround rfl hrefl undeclared hbody
    obtain ⟨hdistinct, -⟩ := bodySaid_known haround hbody
    obtain ⟨hdistinct', hknown'⟩ := bodySaid_known haround hbody'
    cases hfinish : finishResource ⟨setup.mode, setup.current, []⟩ key type Span.generated body with
    | error e =>
      rw [hfinish] at hsaid
      cases hsaid
    | ok said =>
      rw [hfinish] at hsaid
      cases hsaid
      obtain ⟨resource, hmade, hkey, hcontent⟩ := finish_alike undeclared span
        hdistinct hdistinct' halike hfinish
      have hsaidKey : said.key = key := by
        obtain ⟨recorded, -, -, -, rfl⟩ := finishResource_ok_iff.1 hfinish
        rfl
      rw [hsaidKey] at hkey
      refine ⟨declaredResource setup (entries.map Node.pair) p resource, ?_, hkey, hcontent, ?_⟩
      · rw [block_run haround hby, run_of_bodySaid_yields haround hbody']
        dsimp only
        rw [hmade]
        apply register_run
        · rw [show (declaredResource setup (entries.map Node.pair) p resource).key = key from hkey]
          exact hdeclared
        · rw [show (declaredResource setup (entries.map Node.pair) p resource).key = key from hkey]
          exact hresource
        · rfl
      · intro field value hfield
        obtain ⟨recorded, -, -, -, rfl⟩ := finishResource_ok_iff.1 hmade
        have hfield : (finished ⟨setup.mode, setup.current, undeclared⟩ key type span body'
            recorded).field? field = some value := hfield
        rcases get?_finished hdistinct' hfield with hget | hget
        · exact Or.inl (hknown' field value hget)
        · exact Or.inr hget
  | waits =>
    rw [hbody] at hsaid
    cases hsaid
  | fails =>
    rw [hbody] at hsaid
    cases hsaid

end Statement

/-- A block whose name or key is no good fails. -/
theorem block_of_nothing {typeText : String} {typeName : TypeName} {type : ResourceType}
    {name : Node} {span : Span}
    (hvirtuals : p.inventory.virtuals = [])
    (htypeName : TypeName.ofText typeText = .ok typeName)
    (htype : p.inventory.registry.type? typeName = some type)
    (hliteral : isLiteral name = true)
    (hby : declaredBy? p.inventory.registry
      (.resource typeText name (entries.map Node.pair) span) = none)
    (undeclared : List TypeName) :
    ∃ e after, (runStatement (setup.evaluator undeclared)
      (.resource typeText name (entries.map Node.pair) span) { file := file }).run p =
      (.error (.failed e), after) := by
  cases hname : literalName? name with
  | some text =>
    rw [resource_run hvirtuals htypeName htype hname]
    cases hkey : Key.make type.name text with
    | ok key =>
      have hsome : declaredBy? p.inventory.registry
          (.resource typeText name (entries.map Node.pair) span) = some (type, key) :=
        declaredBy?_eq_some.2 ⟨typeName, text, htypeName, htype, hname, hkey⟩
      rw [hby] at hsome
      cases hsome
    | error cause =>
      have hkeyAt : keyAt span type.name (qualify none text) =
          .error (.invalidIdentity span cause) := by
        unfold keyAt qualify
        rw [hkey]
      refine ⟨.invalidIdentity span cause, p, ?_⟩
      unfold declareResource
      rw [hkeyAt]
      rfl
  | none =>
    obtain ⟨e, hrun⟩ := literalName_fails hliteral hname
      (p.view (setup.evaluator undeclared).setting { file := file } span) p.reads
    refine ⟨e, p, ?_⟩
    have hread : ((setup.evaluator undeclared).reading { file := file } span fun view => do
        let value ← evaluate view name
        nameOf view value).run p = (.error (.failed e), p) := by
      show (((evaluate _ name >>= nameOf _).run p.reads).1,
        { p with reads := ((evaluate _ name >>= nameOf _).run p.reads).2 }) = _
      rw [hrun]
    rw [runStatement, typeAt_eq_ok.2 htypeName]
    show (((setup.evaluator undeclared).reading { file := file } span fun view => do
        let value ← evaluate view name
        nameOf view value) >>= _).run p = _
    exact run_bind_error hread

end Blocks

end Provision

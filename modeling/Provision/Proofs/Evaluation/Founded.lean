import Provision.Proofs.Evaluation.Done
import Provision.Proofs.Evaluation.Finishing
import Provision.Proofs.Evaluation.Parallel
import Provision.Proofs.Inventory.Holding

/-!
# What resources rest on

What a resource depends on was there when its body was evaluated, and its fields
refer to nothing else.  This follows from comparing an evaluation with itself: an
inventory never differs from itself, so that everything that is read or held is
accounted for, here by being registered.
-/

namespace Provision

open Provision.Language (Node Branch Directive)

/-- The resource depends on resources that are there, and its fields refer to those alone. -/
structure Resource.RestsOn (resource : Resource) (inventory : Inventory) : Prop where
  there : ∀ key ∈ resource.dependsOn, inventory.has key = true
  fields : ∀ key ∈ Value.handlesOfEntries resource.fields,
    key = resource.key ∨ key ∈ resource.dependsOn

/-- The resource depends on some keys, itself aside. -/
def Resource.Bears (resource : Resource) (keys : List Key) : Prop :=
  ∀ key ∈ keys, key = resource.key ∨ key ∈ resource.dependsOn

/-- Every resource rests on others that are there. -/
structure Inventory.Founded (inventory : Inventory) : Prop where
  oneHome : inventory.OneHome
  rests : ∀ key resource, inventory.resource? key = some resource → resource.RestsOn inventory

/-- The fields that were not configured, such as recorded outputs, refer to no resources. -/
def Inventory.PlainOutputs (inventory : Inventory) : Prop :=
  ∀ key resource, inventory.resource? key = some resource → ∀ entry ∈ resource.fields,
    resource.configured.contains entry.1 = false → entry.2.handles = []

/-- Configuration is evaluated, and what unset fields are filled with refers to no resources. -/
structure Setting.Plain (setting : Setting) : Prop where
  mode : setting.mode = .configuration
  current : ∀ current, setting.current = some current → current.PlainOutputs

/-! ## Finishing -/

section Finishing

variable {schema : Schema} {fields : Bindings} {entry : String × Value}

theorem mem_inSchemaOrder (h : entry ∈ inSchemaOrder schema fields) : entry ∈ fields := by
  refine (List.foldlRecOn (motive := fun taken : Bindings × Bindings =>
    taken.1 ⊆ fields ∧ taken.2 ⊆ fields) schema _ ⟨List.nil_subset _, List.Subset.refl _⟩ ?_).1 h
  rintro taken ⟨hfirst, hsecond⟩ spec -
  split
  · next value hvalue =>
    refine ⟨fun other hother => ?_,
      List.Subset.trans (Table.erase_sublist _ _).subset hsecond⟩
    rcases Table.mem_set hother with rfl | hother
    · exact hsecond (Table.mem_of_get? hvalue)
    · exact hfirst hother
  · exact ⟨hfirst, hsecond⟩

/-- A filled field was set, or the record holds it and neither side configures it. -/
theorem mem_fillFrom {configured : List String} {recorded : Option Resource}
    (h : entry ∈ fillFrom configured recorded fields) :
    entry ∈ fields ∨ ∃ resource, recorded = some resource ∧ entry ∈ resource.fields ∧
      resource.configured.contains entry.1 = false := by
  unfold fillFrom at h
  cases recorded with
  | none => exact Or.inl h
  | some resource =>
    dsimp only at h
    have hfilled : ∀ more all : Bindings, more ⊆ resource.fields →
        entry ∈ more.foldl (fun all entry =>
          if configured.contains entry.1 || resource.configured.contains entry.1 ||
              Table.has all entry.1 then all
          else Table.set all entry.1 entry.2) all →
        entry ∈ all ∨ entry ∈ resource.fields ∧ resource.configured.contains entry.1 = false := by
      intro more
      induction more with
      | nil => exact fun all _ hmem => Or.inl hmem
      | cons first rest ih =>
        intro all hmore hmem
        have hrest := List.subset_of_cons_subset hmore
        rw [List.foldl_cons] at hmem
        split at hmem
        · exact ih all hrest hmem
        · next hunset =>
          rcases ih _ hrest hmem with hset | hfilled
          · rcases Table.mem_set hset with rfl | hset
            · refine Or.inr ⟨hmore List.mem_cons_self, ?_⟩
              simp only [Bool.or_eq_true, not_or, Bool.not_eq_true] at hunset
              exact hunset.1.2
            · exact Or.inl hset
          · exact Or.inr hfilled
    exact (hfilled resource.fields fields (List.Subset.refl _) h).imp_right
      fun hmem => ⟨resource, rfl, hmem⟩

theorem values_handles (fields : Bindings) :
    (Table.values fields).flatMap Value.handles = Value.handlesOfEntries fields := by
  unfold Table.values
  rw [Value.handlesOfEntries_eq, List.flatMap_map]

/-- A finished resource depends on what its body read and on what its fields refer to. -/
theorem mem_dependsOn_of_finishResource {setting : Setting} (hmode : setting.mode = .configuration)
    {key : Key} {type : ResourceType} {origin : Span} {body : EvaluatedBody} {resource : Resource}
    (h : finishResource setting key type origin body = .ok resource) (other : Key) :
    other ∈ resource.dependsOn ↔
      other ≠ key ∧ (other ∈ body.reads ∨ other ∈ Value.handlesOfEntries body.fields) := by
  obtain ⟨recorded, hrecorded, -, -, rfl⟩ := finishResource_ok_iff.1 h
  rw [hmode] at hrecorded
  cases hrecorded
  unfold finished ownFields
  rw [hmode, values_handles]
  simp only [Sorted.mem_erase, Sorted.mem_union, List.not_mem_nil, or_false]
  exact and_comm

/-- A finished resource bears what its body read, be it configuration or recorded state. -/
theorem bears_of_finishResource {setting : Setting} {key : Key} {type : ResourceType} {origin : Span}
    {body : EvaluatedBody} {resource : Resource} {keys : List Key}
    (h : finishResource setting key type origin body = .ok resource) (hkeys : keys ⊆ body.reads) :
    resource.Bears keys := by
  obtain ⟨recorded, -, -, -, rfl⟩ := finishResource_ok_iff.1 h
  intro other hother
  refine or_iff_not_imp_left.2 fun hne => Sorted.mem_erase.2 ⟨?_, hne⟩
  exact Sorted.mem_union.2 (Or.inl (Sorted.mem_union.2 (Or.inl (hkeys hother))))

/-- The fields of a finished resource refer to what those of its body refer to. -/
theorem handles_of_finishResource {setting : Setting} (hplain : setting.Plain) {key : Key}
    {type : ResourceType} {origin : Span} {body : EvaluatedBody} {resource : Resource}
    (h : finishResource setting key type origin body = .ok resource) :
    Value.handlesOfEntries resource.fields ⊆ Value.handlesOfEntries body.fields := by
  obtain ⟨recorded, -, -, -, rfl⟩ := finishResource_ok_iff.1 h
  intro other hother
  obtain ⟨entry, hentry, hother⟩ := Value.mem_handlesOfEntries.1 hother
  have hfilled : entry ∈ filledFields setting key type.schema body.fields := mem_inSchemaOrder hentry
  rcases mem_fillFrom hfilled with hown | ⟨found, hfound, hmem, hunset⟩
  · unfold ownFields at hown
    rw [hplain.mode] at hown
    exact Value.mem_handlesOfEntries.2 ⟨entry, hown, hother⟩
  · obtain ⟨current, hcurrent, hresource⟩ := Option.bind_eq_some_iff.1 hfound
    rw [hplain.current current hcurrent key found hresource entry hmem hunset] at hother
    cases hother

/-- A resource rests on what is there when everything its body read and refers to is. -/
theorem restsOn_of_finishResource {setting : Setting} (hplain : setting.Plain)
    {inventory : Inventory} {key : Key} {type : ResourceType} {origin : Span}
    {body : EvaluatedBody} {resource : Resource}
    (h : finishResource setting key type origin body = .ok resource)
    (hreads : ∀ other ∈ body.reads, inventory.has other = true)
    (hfields : ∀ other ∈ Value.handlesOfEntries body.fields, inventory.has other = true) :
    resource.RestsOn inventory where
  there other hother := by
    obtain ⟨-, hread | hheld⟩ := (mem_dependsOn_of_finishResource hplain.mode h other).1 hother
    · exact hreads other hread
    · exact hfields other hheld
  fields other hother := by
    rw [(identity_of_finishResource h).1]
    refine or_iff_not_imp_left.2 fun hne => ?_
    exact (mem_dependsOn_of_finishResource hplain.mode h other).2
      ⟨hne, Or.inr (handles_of_finishResource hplain h hother)⟩

end Finishing

/-! ## An evaluation beside itself -/

/-- An inventory compared with itself: what is registered is accounted for. -/
def Comparison.diagonal (inventory : Inventory) : Comparison :=
  ⟨inventory, inventory, fun _ key => inventory.has key = true⟩

section Diagonal

variable {inventory : Inventory} {reads reads' : List Key}

theorem not_lost_diagonal : ¬ (Comparison.diagonal inventory).Lost reads reads' :=
  fun ⟨_, hsuspect, _⟩ => hsuspect rfl

theorem Inventory.Founded.diagonal (h : inventory.Founded) :
    (Comparison.diagonal inventory).Fair where
  registry := rfl
  virtuals := rfl
  keys := rfl
  has _ := rfl
  listed key hkey := by
    obtain ⟨resource, hmem, rfl⟩ := List.mem_map.1 hkey
    exact (inventory.has_iff _).2 ⟨resource, h.oneHome.resource?_eq_some_iff.2 ⟨hmem, rfl⟩⟩
  mono _ hkey := hkey
  fields {reads key resource} _ _ hresource other hother := by
    have hresource : inventory.resource? key = some resource := hresource
    have hrests := h.rests key resource hresource
    rcases hrests.fields other hother with rfl | hother
    · obtain ⟨-, hkey⟩ := h.oneHome.keyed.key_of_resource? hresource
      exact (inventory.has_iff _).2 ⟨resource, hkey.symm ▸ hresource⟩
    · exact hrests.there other hother

theorem diagonal_records : (Comparison.diagonal inventory).Records :=
  fun _ _ hkey => hkey

theorem diagonal_reads (node : Node) : (Comparison.diagonal inventory).Reads node :=
  Or.inl diagonal_records

end Diagonal

/-- What the scope and the reads hold is there, and the scope binds a name once. -/
structure Progress.Known (p : Progress) : Prop where
  founded : p.inventory.Founded
  neat : p.scope.Neat
  scope : ∀ key ∈ p.scope.handles, p.inventory.has key = true
  reads : ∀ key ∈ p.reads, p.inventory.has key = true

section Known

variable {p q : Progress} {α : Type} {given : List Key} {held : α → List Key} {step : Step α}

theorem Progress.Known.beside (h : p.Known) : (Comparison.diagonal p.inventory).Beside p p :=
  ⟨rfl, rfl, rfl, rfl, rfl, h.scope, h.reads⟩

/-- What a body of its own starts from. -/
theorem Progress.Known.bare (h : p.Known) :
    Progress.Known { p with reads := [], credentials := none } :=
  ⟨h.founded, h.neat, h.scope, nofun⟩

/-- A step that can be compared with itself holds only what is there. -/
theorem Progress.Known.run (h : p.Known)
    (hstep : step.Twin (Comparison.diagonal p.inventory) given held)
    (hgiven : ∀ key ∈ given, p.inventory.has key = true) {outcome : Except Interrupt α}
    (hrun : step.run p = (outcome, q)) :
    q.inventory = p.inventory ∧ q.Known ∧
      ∀ a, outcome = .ok a → ∀ key ∈ held a, p.inventory.has key = true := by
  have halike := hstep.alike p p h.beside hgiven
  have hinventory := hstep.quiet.inventory p
  have hneat := hstep.quiet.neat p h.neat
  rw [hrun] at halike hinventory hneat
  rcases halike with hlost | ⟨-, hafter, hheld⟩
  · exact absurd hlost not_lost_diagonal
  · refine ⟨hinventory, ⟨?_, hneat, ?_, ?_⟩, hheld⟩
    · rw [hinventory]
      exact h.founded
    · rw [hinventory]
      exact hafter.held
    · rw [hinventory]
      exact hafter.read

end Known

/-- After a statement the scope holds what is there, and a resource that was not there before rests
on what was and bears what the instance around it depends on. -/
structure Progress.Settled (p : Progress) (inherited : List Key) (q : Progress) : Prop where
  neat : q.scope.Neat
  scope : ∀ key ∈ q.scope.handles, p.inventory.has key = true
  resources : ∀ key resource, q.inventory.resource? key = some resource →
    p.inventory.resource? key = some resource ∨
      resource.key = key ∧ resource.RestsOn p.inventory ∧ resource.Bears inherited

section Settled

variable {virtuals : Table TypeName VirtualType} {e : Evaluator} {frame : Frame} {p q : Progress}

theorem Progress.Settled.of_inventory {between : Progress} {inherited : List Key}
    (h : between.Settled inherited q) (hinventory : between.inventory = p.inventory) :
    p.Settled inherited q := by
  refine ⟨h.neat, ?_, ?_⟩
  · rw [← hinventory]
    exact h.scope
  · rw [← hinventory]
    exact h.resources

theorem quiet_settled {node : Node} (htypes : typesIn node = []) (hp : p.Known)
    (hrun : (runStatement e node frame).run p = (.ok (), q)) :
    p.Settled frame.inherited q := by
  have htwin := runStatement_twin hp.founded.diagonal e htypes (Or.inl diagonal_records) frame
  obtain ⟨hinventory, hq, -⟩ := hp.run htwin nofun hrun
  refine ⟨hq.neat, hinventory ▸ hq.scope, fun key resource hresource => Or.inl ?_⟩
  rwa [hinventory] at hresource

theorem register_settled {resource : Resource} (hfounded : p.inventory.Founded)
    (hneat : p.scope.Neat) (hscope : ∀ key ∈ p.scope.handles, p.inventory.has key = true)
    (hroom : frame.file < p.inventory.files.length) (hrests : resource.RestsOn p.inventory)
    {inherited : List Key} (hbears : resource.Bears inherited)
    (hrun : (register frame resource).run p = (.ok (), q)) :
    p.Settled inherited q := by
  obtain ⟨-, rfl⟩ := register_eq_ok hrun
  refine ⟨hneat, hscope, fun key found hfound => ?_⟩
  rw [Inventory.resource?_insertAt hfounded.oneHome.distinct hroom] at hfound
  split at hfound
  · next hkey =>
    cases hfound
    exact Or.inr ⟨hkey, hrests, hbears⟩
  · exact Or.inl hfound

/-- What a frame brings along is there. -/
structure Frame.Fits (frame : Frame) (inventory : Inventory) : Prop where
  room : frame.file < inventory.files.length
  inherited : ∀ key ∈ frame.inherited, inventory.has key = true

theorem declareResource_settled {type : ResourceType} {name : String} {source : List Node}
    {span : Span} (hplain : e.setting.Plain) (hp : p.Known) (hframe : frame.Fits p.inventory)
    (hsource : typesInAll source = [])
    (hrun : (declareResource e frame type name source span
      (runMarked e source { frame with inResource := true })).run p = (.ok (), q)) :
    p.Settled frame.inherited q := by
  obtain ⟨key, body, resource, between, -, hbody, hfinish, hregister⟩ :=
    declareResource_eq_ok hrun
  have hquiet := resourceBody_quiet frame (runMarked_quiet e hsource { frame with inResource := true })
  have hinventory := hquiet.inventory p
  have hscope := still_resourceBody frame (runMarked e source { frame with inResource := true }) p
  rw [hbody] at hinventory hscope
  obtain ⟨reads, reads', hreads, -, hlost | ⟨-, hread, hheld⟩⟩ :=
    resourceBody_twin hp.founded.diagonal frame hsource diagonal_records hp.bare.beside hbody hbody
  · exact absurd hlost not_lost_diagonal
  · have hrests : resource.RestsOn p.inventory := by
      refine restsOn_of_finishResource hplain hfinish (fun key hkey => ?_) hheld
      rw [hreads, Sorted.mem_union] at hkey
      exact hkey.elim (hread key) (hframe.inherited key)
    have hbears : resource.Bears frame.inherited := by
      refine bears_of_finishResource hfinish fun other hother => ?_
      rw [hreads]
      exact Sorted.mem_union.2 (Or.inr hother)
    refine Progress.Settled.of_inventory (register_settled ?_ ?_ ?_ ?_ ?_ ?_ hregister) hinventory
    · rw [hinventory]
      exact hp.founded
    · rw [hscope]
      exact hp.neat
    · rw [hinventory, hscope]
      exact hp.scope
    · rw [hinventory]
      exact hframe.room
    · rw [hinventory]
      exact ⟨hrests.there, hrests.fields⟩
    · exact hbears

/-- The arguments of an instance hold what is there, and so does what its body inherits. -/
theorem arguments_known {source : List Node} {inner : Frame} (hp : p.Known)
    (hframe : frame.Fits p.inventory) (hsource : typesInAll source = []) {arguments : Scope}
    {reads : List Key} {credentials : Option String} {between : Progress}
    (hrun : (Step.collecting (Step.inScope Scope.child
      (Step.body (runStatements e source inner)))).run p =
        (.ok (arguments, reads, credentials), between)) :
    between.inventory = p.inventory ∧ between.scope = p.scope ∧
      Progress.Known { between with scope := Scope.withValues arguments.values } ∧
      ∀ name span, (frame.below name span reads).Fits p.inventory := by
  have hdiagonal := hp.founded.diagonal
  have hsteps : ∀ step ∈ runStatements e source inner,
      step.Twin (Comparison.diagonal p.inventory) [] (fun _ => []) := by
    intro step hstep
    rw [runStatements_eq_map] at hstep
    obtain ⟨node, hnode, rfl⟩ := List.mem_map.1 hstep
    exact runStatement_twin hdiagonal e (typesInAll_eq_nil.1 hsource node hnode)
      (Or.inl diagonal_records) inner
  have hchild := (Step.composes_twin hdiagonal).assembles.inChild hsteps
  have hneat := ((Step.composes_twin hdiagonal).assembles.body hsteps).quiet.neat_collected hp.neat hrun
  have hinventory := hchild.quiet.collecting.inventory p
  have hscope := still_collecting
    (Step.still_inScope Scope.child (Step.body (runStatements e source inner))) p
  have hreads : ((Step.collecting (Step.inScope Scope.child
      (Step.body (runStatements e source inner)))).run p).2.reads = p.reads := rfl
  rw [hrun] at hinventory hscope hreads
  dsimp only at hinventory hscope hreads
  rcases hchild.collecting hp.bare.beside hrun hrun with hlost | ⟨-, -, -, hread, hheld⟩
  · exact absurd hlost not_lost_diagonal
  · refine ⟨hinventory, hscope, ⟨?_, Scope.neat_withValues hneat.values, ?_, ?_⟩,
      fun name span => ⟨hframe.room, fun key hkey => ?_⟩⟩
    · rw [hinventory]
      exact hp.founded
    · rw [hinventory, Scope.handles_withValues]
      exact fun key hkey => hheld key (Scope.mem_handles.2 (Or.inl hkey))
    · rw [hinventory, hreads]
      exact hp.reads
    · unfold Frame.below at hkey
      rw [Sorted.mem_union] at hkey
      exact hkey.elim (hframe.inherited key) (hread key)

theorem reading_known {node : Node} {span : Span} (hp : p.Known) {value : Value}
    (hrun : (e.reading frame span fun view => evaluate view node).run p = (.ok value, q)) :
    q.inventory = p.inventory ∧ q.Known := by
  have htwin : (e.reading frame span fun view => evaluate view node).Twin
      (Comparison.diagonal p.inventory) [] Value.handles :=
    (Step.composes_twin hp.founded.diagonal).evaluating [] e frame span (diagonal_reads node)
  obtain ⟨hinventory, hq, -⟩ := hp.run htwin nofun hrun
  exact ⟨hinventory, hq⟩

theorem naming_known {node : Node} {span : Span} (hp : p.Known) {text : String}
    (hrun : (e.reading frame span fun view => do
      let value ← evaluate view node
      nameOf view value).run p = (.ok text, q)) :
    q.inventory = p.inventory ∧ q.Known := by
  have htwin := (Step.composes_twin hp.founded.diagonal).naming [] e frame span
    (diagonal_reads node)
  obtain ⟨hinventory, hq, -⟩ := hp.run htwin nofun hrun
  exact ⟨hinventory, hq⟩

end Settled

/-! ## Statements that are done at once -/

/-- A relation between the progress before a statement and after it.  It holds when nothing is
registered and when one block is, and an instance has it from the body of its template. -/
structure Carries (setting : Setting) (R : Frame → Progress → Progress → Prop) : Prop where
  idle : ∀ {frame : Frame} {p : Progress}, p.Known → R frame p p
  quiet : ∀ {e : Evaluator} {frame : Frame} {p q : Progress} {node : Node}, typesIn node = [] →
    p.Known → (runStatement e node frame).run p = (.ok (), q) → R frame p q
  declares : ∀ {e : Evaluator} {frame : Frame} {p q : Progress} {type : ResourceType}
    {name : String} {source : List Node} {span : Span}, e.setting = setting → p.Known →
      frame.Fits p.inventory → typesInAll source = [] →
        (declareResource e frame type name source span
          (runMarked e source { frame with inResource := true })).run p = (.ok (), q) → R frame p q
  of_inventory : ∀ {frame : Frame} {p between q : Progress}, between.inventory = p.inventory →
    R frame between q → R frame p q
  below : ∀ {frame : Frame} {p inner after : Progress} {name : String} {span : Span}
    {reads : List Key}, p.Known → inner.inventory = p.inventory →
      R (frame.below name span reads) inner after → R frame p { after with scope := p.scope }

section Carried

variable {setting : Setting} {R : Frame → Progress → Progress → Prop}
variable {virtuals : Table TypeName VirtualType} {e : Evaluator} {frame : Frame} {p q : Progress}

theorem Carries.instantiate (hcarries : Carries setting R) {template : VirtualType} {name : String}
    {span : Span} {source : List Node} {inner : Frame} (hp : p.Known)
    (hframe : frame.Fits p.inventory) (hsource : typesInAll source = [])
    (hexpand : ∀ reads p' q', p'.inventory = p.inventory → p'.Known →
      (frame.below name span reads).Fits p.inventory →
        (e.expand template (frame.below name span reads) span).run p' = (.ok (), q') →
          R (frame.below name span reads) p' q')
    (hrun : (instantiate e frame template name span (runStatements e source inner)).run p =
      (.ok (), q)) :
    R frame p q := by
  obtain ⟨arguments, reads, credentials, between, after, harguments, hbody, rfl⟩ :=
    instantiate_eq_ok hrun
  obtain ⟨hinventory, hscope, hknown, hfits⟩ := arguments_known hp hframe hsource harguments
  have hafter := hexpand reads { between with scope := Scope.withValues arguments.values } after
    hinventory hknown (hfits name span) hbody
  rw [hscope]
  refine hcarries.below hp ?_ hafter
  exact hinventory

theorem Carries.body (hcarries : Carries setting R) {nodes : List Node} (hp : p.Known)
    (hlength : nodes.length ≤ 1)
    (hnodes : ∀ node ∈ nodes, (runStatement e node frame).run p = (.ok (), q) → R frame p q)
    (hrun : (Step.body (runStatements e nodes frame)).run p = (.ok (), q)) :
    R frame p q := by
  rcases body_eq_ok hlength hrun with rfl | ⟨node, hnode, hrun⟩
  · exact hcarries.idle hp
  · exact hnodes node hnode hrun

/-- The body of a template is that of its statement. -/
theorem Carries.expand (hcarries : Carries setting R) {depth : Nat} {template : VirtualType}
    {span : Span} (hp : p.Known) (hlength : template.body.length ≤ 1)
    (hnodes : ∀ node ∈ template.body, ∀ depth,
      (runStatement (Evaluator.atDepth setting depth) node frame).run p = (.ok (), q) →
        R frame p q)
    (hrun : ((Evaluator.atDepth setting depth).expand template frame span).run p = (.ok (), q)) :
    R frame p q := by
  obtain ⟨depth, rfl, hbody⟩ := expand_eq_ok hrun
  exact hcarries.body hp hlength (fun node hnode => hnodes node hnode depth) hbody

theorem Carries.branches (hcarries : Carries setting R) {span : Span} {branches : List Branch}
    (hp : p.Known) (hlengths : ∀ branch ∈ branches, branch.body.length ≤ 1)
    (hbodies : ∀ branch ∈ branches, ∀ node ∈ branch.body, ∀ p', p'.inventory = p.inventory →
      p'.Known → (runStatement e node frame).run p' = (.ok (), q) → R frame p' q)
    (hrun : (runBranches e span branches frame).run p = (.ok (), q)) :
    R frame p q := by
  induction branches generalizing p with
  | nil =>
    cases hrun
    exact hcarries.idle hp
  | cons branch rest ih =>
    obtain ⟨name, arguments, body, place⟩ := branch
    have hbody : ∀ p', p'.inventory = p.inventory → p'.Known →
        (Step.body (runStatements e body frame)).run p' = (.ok (), q) → R frame p' q := by
      intro p' hinventory hknown hbody
      exact hcarries.body hknown (hlengths _ List.mem_cons_self)
        (fun node hnode => hbodies _ List.mem_cons_self node hnode p' hinventory hknown) hbody
    unfold runBranches at hrun
    split at hrun
    · exact hbody p rfl hp hrun
    · rw [run_bind_eq_ok] at hrun
      obtain ⟨value, p', hvalue, hrun⟩ := hrun
      obtain ⟨hinventory, hknown⟩ := reading_known hp hvalue
      refine hcarries.of_inventory hinventory ?_
      split at hrun
      · exact hbody p' hinventory hknown hrun
      · refine ih hknown (fun other hother => hlengths other (List.mem_cons_of_mem _ hother)) ?_ hrun
        intro other hother node hnode p'' hp''
        exact hbodies other (List.mem_cons_of_mem _ hother) node hnode p'' (hp''.trans hinventory)

/-- What is carried holds of each statement that is done at once. -/
theorem AtOnce.carried {node : Node} (h : AtOnce virtuals node) (hcarries : Carries setting R)
    (depth : Nat) {frame : Frame} {p q : Progress} (hp : p.Known) (hframe : frame.Fits p.inventory)
    (hresource : frame.inResource = false) (hvirtuals : p.inventory.virtuals = virtuals)
    (hrun : (runStatement (Evaluator.atDepth setting depth) node frame).run p = (.ok (), q)) :
    R frame p q := by
  induction h generalizing depth frame p q with
  | pair entry => exact hcarries.quiet rfl hp hrun
  | named key body span =>
    unfold runStatement at hrun
    rw [hresource] at hrun
    cases hrun
  | @expression node h => cases node <;> first | cases hrun | cases h
  | @block typeText name source span htype hsource =>
    obtain ⟨type, text, between, htypeName, hname, ⟨template, htemplate, -⟩ | ⟨found, -, -, hrun⟩⟩ :=
      block_eq_ok hrun
    · unfold Inventory.virtual? at htemplate
      rw [hvirtuals, htype type htypeName] at htemplate
      cases htemplate
    · obtain ⟨hinventory, hbetween⟩ := naming_known hp hname
      refine hcarries.of_inventory hinventory ?_
      exact hcarries.declares (Evaluator.setting_atDepth setting depth) hbetween
        (hinventory ▸ hframe) hsource hrun
  | @instance_ typeText type template name source span htype htemplate hsource hlength hbody ih =>
    obtain ⟨type', text, between, htypeName, hname, ⟨found, hfound, hrun⟩ | ⟨_, hnone, -⟩⟩ :=
      block_eq_ok hrun
    · rw [htype] at htypeName
      cases htypeName
      unfold Inventory.virtual? at hfound
      rw [hvirtuals, htemplate] at hfound
      cases hfound
      obtain ⟨hinventory, hbetween⟩ := naming_known hp hname
      refine hcarries.of_inventory hinventory ?_
      refine hcarries.instantiate hbetween (hinventory ▸ hframe) hsource ?_ hrun
      intro reads p' q' hp' hknown hfits hexpand
      refine hcarries.expand hknown hlength (fun node hnode depth hrun => ?_) hexpand
      refine ih node hnode depth hknown (hp'.symm ▸ hfits) rfl ?_ hrun
      rw [hp', hinventory, hvirtuals]
    · rw [htype] at htypeName
      cases htypeName
      unfold Inventory.virtual? at hnone
      rw [hvirtuals, htemplate] at hnone
      cases hnone
  | @directive d hname htypes => exact hcarries.quiet htypes hp hrun
  | @choice d hname hlength hlengths hinner ih =>
    have hchild : ∀ child ∈ (Node.directive d).inner, ∀ p', p'.inventory = p.inventory → p'.Known →
        (runStatement (Evaluator.atDepth setting depth) child frame).run p' = (.ok (), q) →
          R frame p' q := by
      intro child hchild p' hinventory hknown hrun
      refine ih child hchild depth hknown (hinventory ▸ hframe) hresource ?_ hrun
      rw [hinventory, hvirtuals]
    obtain ⟨name, arguments, clauses, bodyless, body, branches, span⟩ := d
    unfold runStatement runDirective at hrun
    rw [if_pos hname] at hrun
    split at hrun
    · cases hrun
    · rw [run_bind_eq_ok] at hrun
      obtain ⟨value, p', hvalue, hrun⟩ := hrun
      obtain ⟨hinventory, hknown⟩ := reading_known hp hvalue
      refine hcarries.of_inventory hinventory ?_
      split at hrun
      · exact hcarries.body hknown hlength (fun node hnode =>
          hchild node (List.mem_append_left _ hnode) p' hinventory hknown) hrun
      · refine hcarries.branches hknown hlengths (fun branch hbranch node hnode p'' hp'' => ?_) hrun
        have hmem := List.mem_flatMap.2 ⟨branch, hbranch, hnode⟩
        exact hchild node (List.mem_append_right _ hmem) p'' (hp''.trans hinventory)

theorem carries_settled (hplain : setting.Plain) :
    Carries setting fun frame p q => p.Settled frame.inherited q where
  idle hp := ⟨hp.neat, hp.scope, fun _ _ h => Or.inl h⟩
  quiet := quiet_settled
  declares hsetting hp hframe hsource hrun :=
    declareResource_settled (hsetting ▸ hplain) hp hframe hsource hrun
  of_inventory hinventory hsettled := hsettled.of_inventory hinventory
  below hp hinventory hsettled := by
    refine ⟨hp.neat, hp.scope, fun key resource hresource => ?_⟩
    rw [← hinventory]
    refine (hsettled.resources key resource hresource).imp_right
      fun ⟨hkey, hrests, hbears⟩ => ⟨hkey, hrests, fun other hother => ?_⟩
    exact hbears other (Sorted.mem_union.2 (Or.inl hother))

/-- A statement that is done at once registers only what rests on resources that were there. -/
theorem AtOnce.settled {node : Node} (h : AtOnce virtuals node) (hplain : setting.Plain)
    (depth : Nat) (hp : p.Known) (hframe : frame.Fits p.inventory)
    (hresource : frame.inResource = false) (hvirtuals : p.inventory.virtuals = virtuals)
    (hrun : (runStatement (Evaluator.atDepth setting depth) node frame).run p = (.ok (), q)) :
    p.Settled frame.inherited q :=
  h.carried (carries_settled hplain) depth hp hframe hresource hvirtuals hrun

end Carried

end Provision

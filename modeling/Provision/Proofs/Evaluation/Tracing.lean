import Provision.Proofs.Evaluation.Congruence
import Provision.Proofs.Evaluation.Founded
import Provision.Proofs.Plan.Layers

/-!
# Tracing a difference to its source

Two evaluations see inventories that differ in some resources, and from each of
these dependencies lead to one and the same resource, the source.  What a body
reads, its resource depends on.  So either a statement registers the same in both
evaluations, or what it registers depends on a resource that leads to the source.
This needs that whatever is read outside of bodies refers to no resource: the
values of a file, the guards of choices and the names of instances.
-/

namespace Provision

open Provision.Language (Node Branch Directive)

namespace Inventory

/-- Dependencies lead from the first resource to the second, if need be through others. -/
def Reaches (inventory : Inventory) : Key → Key → Prop :=
  Relation.ReflTransGen inventory.DependsOn

/-- Once there is another inventory, the resource under a key depends on one from which
dependencies lead to the source. -/
def Traces (before after : Inventory) (key source : Key) : Prop :=
  ∃ other, after.DependsOn key other ∧ before.Reaches other source

/-- Two inventories that hold the same keys, and where they differ, dependencies lead to the
source. -/
structure Tied (source : Key) (left right : Inventory) : Prop where
  left_founded : left.Founded
  right_founded : right.Founded
  registry : right.registry = left.registry
  virtuals : right.virtuals = left.virtuals
  keys : right.files.map (fun file => Table.keys file.resources) =
    left.files.map fun file => Table.keys file.resources
  differences : ∀ key, left.look key ≠ right.look key →
    left.Reaches key source ∧ right.Reaches key source

/-- From one of the keys dependencies lead to the source, in both inventories. -/
def Lead (left right : Inventory) (source : Key) (keys : List Key) : Prop :=
  ∃ start ∈ keys, left.Reaches start source ∧ right.Reaches start source

end Inventory

/-- Two inventories, and reads that account for what they lead to. -/
def Comparison.tracing (left right : Inventory) (base : List Key → List Key) : Comparison :=
  ⟨left, right, fun reads key =>
    ∃ start ∈ base reads, left.Reaches start key ∧ right.Reaches start key⟩

section Tied

variable {source key : Key} {left right : Inventory} {base : List Key → List Key}

theorem Inventory.OneHome.has_iff_mem (h : left.OneHome) :
    left.has key = true ↔ key ∈ left.resources.map Resource.key := by
  rw [left.has_iff, List.mem_map]
  exact exists_congr fun resource => h.resource?_eq_some_iff

theorem Inventory.Founded.handles_reach (h : left.Founded) {resource : Resource}
    (hresource : left.resource? key = some resource) {other : Key}
    (hother : other ∈ Value.handlesOfEntries resource.fields) :
    other = key ∨ left.DependsOn key other := by
  rw [← (h.oneHome.keyed.key_of_resource? hresource).2]
  refine ((h.rests key resource hresource).fields other hother).imp_right fun hmem => ?_
  rw [(h.oneHome.keyed.key_of_resource? hresource).2]
  exact Inventory.dependsOn_iff.2 ⟨resource, hresource, hmem⟩

/-- What is not there leads nowhere. -/
theorem Inventory.eq_of_reaches (hfresh : left.has key = false) (h : left.Reaches key source) :
    key = source := by
  cases Relation.ReflTransGen.cases_head h with
  | inl heq => exact heq
  | inr hpath =>
    obtain ⟨other, hedge, -⟩ := hpath
    obtain ⟨resource, hresource, -⟩ := Inventory.dependsOn_iff.1 hedge
    rw [(left.has_eq_false_iff key).1 hfresh] at hresource
    cases hresource

namespace Inventory

theorem Tied.resources_keys (h : Tied source left right) :
    right.resources.map Resource.key = left.resources.map Resource.key := by
  have hkeys : ∀ inventory : Inventory, inventory.OneHome → inventory.resources.map Resource.key =
      (inventory.files.map fun file => Table.keys file.resources).flatten := by
    intro inventory hhome
    unfold resources
    rw [keys_of_keyed hhome.keyed, List.flatMap_def]
  rw [hkeys right h.right_founded.oneHome, hkeys left h.left_founded.oneHome, h.keys]

theorem Tied.has (h : Tied source left right) (key : Key) : right.has key = left.has key := by
  rw [Bool.eq_iff_iff, h.right_founded.oneHome.has_iff_mem, h.left_founded.oneHome.has_iff_mem,
    h.resources_keys]

theorem Tied.length (h : Tied source left right) : right.files.length = left.files.length := by
  have hlength := congrArg List.length h.keys
  rwa [List.length_map, List.length_map] at hlength

theorem Tied.fair (h : Tied source left right)
    (hbase : ∀ {reads more : List Key}, reads ⊆ more → base reads ⊆ base more) :
    (Comparison.tracing left right base).Fair where
  registry := h.registry
  virtuals := h.virtuals
  keys := h.resources_keys
  has := h.has
  listed _ hkey := h.left_founded.oneHome.has_iff_mem.2 hkey
  mono hmore := fun ⟨start, hstart, hreach⟩ => ⟨start, hbase hmore hstart, hreach⟩
  fields {reads key resource} haccount hclear hresource other hother := by
    obtain ⟨start, hstart, hleft, hright⟩ := haccount
    have hresource : left.resource? key = some resource := hresource
    obtain ⟨resource', hresource', hfields⟩ : ∃ resource', right.resource? key = some resource' ∧
        resource'.fields = resource.fields := by
      rcases Comparison.clear_cases hclear with
        ⟨hnone, -⟩ | ⟨found, resource', hfound, hresource', -, hfields, -⟩
      · have hnone : left.resource? key = none := hnone
        rw [hnone] at hresource
        cases hresource
      · have hfound : left.resource? key = some found := hfound
        rw [hresource] at hfound
        cases hfound
        exact ⟨resource', hresource', hfields⟩
    have hother' : other ∈ Value.handlesOfEntries resource'.fields := hfields ▸ hother
    refine ⟨start, hstart, ?_, ?_⟩
    · rcases h.left_founded.handles_reach hresource hother with rfl | hedge
      · exact hleft
      · exact hleft.tail hedge
    · rcases h.right_founded.handles_reach hresource' hother' with rfl | hedge
      · exact hright
      · exact hright.tail hedge

/-- Two evaluations that have read a suspect resource have both read one that leads to the
source. -/
theorem Tied.lead_of_lost (h : Tied source left right) {reads reads' : List Key}
    (hlost : (Comparison.tracing left right base).Lost reads reads') :
    Lead left right source (base reads) ∧ Lead left right source (base reads') := by
  obtain ⟨key, hsuspect, ⟨start, hstart, hleft, hright⟩, start', hstart', hleft', hright'⟩ := hlost
  obtain ⟨hsource, hsource'⟩ := h.differences key hsuspect
  exact ⟨⟨start, hstart, hleft.trans hsource, hright.trans hsource'⟩,
    ⟨start', hstart', hleft'.trans hsource, hright'.trans hsource'⟩⟩

end Inventory

end Tied

/-! ## Two settings -/

/-- Two settings that differ in what they have recorded of the source alone. -/
structure Setting.Agree (source : Key) (setting setting' : Setting) : Prop where
  plain : setting.Plain
  plain' : setting'.Plain
  undeclared : setting'.undeclared = setting.undeclared
  recorded : ∀ key, key ≠ source →
    (setting'.current.bind fun current => current.resource? key) =
      setting.current.bind fun current => current.resource? key

/-! ## Two evaluations of a statement -/

/-- The progress of two evaluations in a frame.  What the scope holds is reached from what the frame
inherits. -/
structure Progress.Paired (source : Key) (frame : Frame) (p p' : Progress) : Prop where
  tied : Inventory.Tied source p.inventory p'.inventory
  known : p.Known
  known' : p'.Known
  fits : frame.Fits p.inventory
  fits' : frame.Fits p'.inventory
  beside : (Comparison.tracing p.inventory p'.inventory fun _ => frame.inherited).Beside p p'

/-- What was added to both of two inventories looks the same, or leads to the source in both. -/
def Inventory.AddedAlike (source : Key) (left right after after' : Inventory) : Prop :=
  ∀ key, left.has key = false → right.has key = false →
    after.has key = true → after'.has key = true → key ≠ source →
      after'.look key = after.look key ∨
        left.Traces after key source ∧ right.Traces after' key source

/-- Two evaluations of a statement end with like scopes, unless the instance around it leads to the
source, and with like additions to their inventories. -/
structure Matched (source : Key) (left right : Inventory) (inherited : List Key) (q q' : Progress) :
    Prop where
  scope : Inventory.Lead left right source inherited ∨ q'.scope = q.scope ∧
    (Comparison.tracing left right fun _ => inherited).Accounts [] q.scope.handles
  added : Inventory.AddedAlike source left right q.inventory q'.inventory

section Statements

variable {source : Key} {setting setting' : Setting} {e e' : Evaluator} {frame : Frame}
variable {p p' q q' : Progress} {left right : Inventory}

theorem Progress.Paired.fair (h : Progress.Paired source frame p p') :
    (Comparison.tracing p.inventory p'.inventory fun _ => frame.inherited).Fair :=
  h.tied.fair fun _ => List.Subset.refl _

/-- When nothing was registered there is nothing to compare. -/
theorem Matched.of_inventory {inherited : List Key} (hinventory : q.inventory = left)
    (hscope : Inventory.Lead left right source inherited ∨ q'.scope = q.scope ∧
      (Comparison.tracing left right fun _ => inherited).Accounts [] q.scope.handles) :
    Matched source left right inherited q q' := by
  refine ⟨hscope, fun key hfresh _ hkey => ?_⟩
  rw [hinventory, hfresh] at hkey
  cases hkey

/-- A fresh resource that bears what leads to the source is traced to it. -/
theorem Progress.Settled.traces {inherited : List Key} (h : p.Settled inherited q) {start key : Key}
    (hstart : start ∈ inherited) (hreach : p.inventory.Reaches start source)
    (hfresh : p.inventory.has key = false) (hkey : q.inventory.has key = true)
    (hother : key ≠ source) :
    p.inventory.Traces q.inventory key source := by
  obtain ⟨resource, hresource⟩ := (q.inventory.has_iff key).1 hkey
  rcases h.resources key resource hresource with hbefore | ⟨rfl, -, hbears⟩
  · rw [(p.inventory.has_eq_false_iff key).1 hfresh] at hbefore
    cases hbefore
  · rcases hbears start hstart with rfl | hdepends
    · exact absurd (Inventory.eq_of_reaches hfresh hreach) hother
    · exact ⟨start, Inventory.dependsOn_iff.2 ⟨resource, hresource, hdepends⟩, hreach⟩

/-- When what is inherited leads to the source, so does all that is registered. -/
theorem added_of_lead {inherited inherited' : List Key} (hsettled : p.Settled inherited q)
    (hsettled' : p'.Settled inherited' q')
    (hlead : Inventory.Lead p.inventory p'.inventory source inherited)
    (hlead' : Inventory.Lead p.inventory p'.inventory source inherited') :
    Inventory.AddedAlike source p.inventory p'.inventory q.inventory q'.inventory := by
  obtain ⟨start, hstart, hreach, -⟩ := hlead
  obtain ⟨start', hstart', -, hreach'⟩ := hlead'
  refine fun key hfresh hfresh' hkey hkey' hother => Or.inr ⟨?_, ?_⟩
  · exact hsettled.traces hstart hreach hfresh hkey hother
  · exact hsettled'.traces hstart' hreach' hfresh' hkey' hother

/-- A statement that declares nothing and refers to nothing leaves like scopes. -/
theorem quiet_matched {node : Node} (h : Progress.Paired source frame p p')
    (hsame : e'.setting.undeclared = e.setting.undeclared) (htypes : typesIn node = [])
    (hreads : node.Everywhere Node.NotReference)
    (hrun : (runStatement e node frame).run p = (.ok (), q))
    (hrun' : (runStatement e' node frame).run p' = (.ok (), q')) :
    Matched source p.inventory p'.inventory frame.inherited q q' := by
  rw [runStatement_congr hsame htypes] at hrun'
  have htwin := runStatement_twin h.fair e htypes (Or.inr hreads) frame
  have hinventory := htwin.quiet.inventory p
  have halike := htwin.alike p p' h.beside nofun
  rw [hrun, hrun'] at halike
  rw [hrun] at hinventory
  refine Matched.of_inventory hinventory ?_
  rcases halike with hlost | ⟨-, hafter, -⟩
  · exact Or.inl (h.tied.lead_of_lost hlost).1
  · exact Or.inr ⟨hafter.scope, hafter.held⟩

/-- A progress with another scope, which holds what the frame leads to, at the start of a body. -/
theorem Progress.Paired.bare (h : Progress.Paired source frame p p') {between between' : Progress}
    (hinventory : between.inventory = p.inventory) (hscope : between.scope = p.scope)
    (hinventory' : between'.inventory = p'.inventory) (hscope' : between'.scope = p'.scope) :
    (Comparison.tracing p.inventory p'.inventory fun reads => frame.inherited ++ reads).Beside
      { between with reads := [], credentials := none }
      { between' with reads := [], credentials := none } where
  left := hinventory
  right := hinventory'
  scope := hscope'.trans (h.beside.scope.trans hscope.symm)
  reads := rfl
  credentials := rfl
  held key hkey := by
    have hkey : key ∈ p.scope.handles := hscope ▸ hkey
    obtain ⟨start, hstart, hreach⟩ := h.beside.held key hkey
    exact ⟨start, List.mem_append_left _ hstart, hreach⟩
  read := nofun

/-- The comparison in which bodies are evaluated. -/
theorem Progress.Paired.body_fair (h : Progress.Paired source frame p p') :
    (Comparison.tracing p.inventory p'.inventory fun reads => frame.inherited ++ reads).Fair :=
  h.tied.fair fun hmore key hkey => by
    rcases List.mem_append.1 hkey with hkey | hkey
    · exact List.mem_append_left _ hkey
    · exact List.mem_append_right _ (hmore hkey)

theorem tracing_records (left right : Inventory) (inherited : List Key) :
    (Comparison.tracing left right fun reads => inherited ++ reads).Records :=
  fun _ key _ => ⟨key, List.mem_append_right _ (Sorted.mem_insert.2 (Or.inl rfl)), .refl, .refl⟩

/-- What a body has read is among the dependencies of its resource, so that the resource is traced
to where the reads lead. -/
theorem traces_of_finishResource (hmode : setting.mode = .configuration) {key : Key}
    {type : ResourceType} {origin : Span} {body : EvaluatedBody} {resource : Resource}
    (hfinish : finishResource setting key type origin body = .ok resource) {start : Key}
    (hstart : start ∈ body.reads) (hreach : left.Reaches start source)
    (hfresh : left.has key = false) (hother : key ≠ source) {after : Inventory} {found : Resource}
    (hafter : after.resource? key = some found) (hdepends : found.dependsOn = resource.dependsOn) :
    left.Traces after key source := by
  refine ⟨start, Inventory.dependsOn_iff.2 ⟨found, hafter, ?_⟩, hreach⟩
  rw [hdepends]
  refine (mem_dependsOn_of_finishResource hmode hfinish start).2 ⟨?_, Or.inl hstart⟩
  rintro rfl
  exact hother (Inventory.eq_of_reaches hfresh hreach)

/-- A key that is there only after a resource was added is that of the resource. -/
theorem resource?_of_added {inventory : Inventory} (hdistinct : inventory.Distinct) {file : Nat}
    (hroom : file < inventory.files.length) {resource : Resource} {key : Key}
    (hfresh : inventory.has key = false)
    (hkey : (inventory.insertAt file resource).has key = true) :
    key = resource.key ∧ (inventory.insertAt file resource).resource? key = some resource := by
  rw [Inventory.has_insertAt hdistinct hroom, hfresh] at hkey
  obtain rfl := hkey.resolve_right Bool.false_ne_true
  exact ⟨rfl, (Inventory.resource?_insertAt hdistinct hroom _ _).trans (if_pos rfl)⟩

/-- Two blocks with the same body register what looks the same, unless their reads lead to the
source. -/
theorem declareResource_matched (h : Progress.Paired source frame p p')
    (hagree : e.setting.Agree source e'.setting) {between between' : Progress}
    (hinventory : between.inventory = p.inventory) (hscope : between.scope = p.scope)
    (hinventory' : between'.inventory = p'.inventory) (hscope' : between'.scope = p'.scope)
    {type : ResourceType} {name name' : String} {nodes : List Node} {span : Span}
    (hnodes : typesInAll nodes = [])
    (hrun : (declareResource e frame type name nodes span
      (runMarked e nodes { frame with inResource := true })).run between = (.ok (), q))
    (hrun' : (declareResource e' frame type name' nodes span
      (runMarked e' nodes { frame with inResource := true })).run between' = (.ok (), q')) :
    Matched source p.inventory p'.inventory frame.inherited q q' := by
  obtain ⟨key, body, resource, after, -, hbody, hfinish, hregister⟩ :=
    declareResource_eq_ok hrun
  obtain ⟨key', body', resource', after', -, hbody', hfinish', hregister'⟩ :=
    declareResource_eq_ok hrun'
  rw [runMarked_congr hagree.undeclared hnodes] at hbody'
  have hquiet := resourceBody_quiet frame (runMarked_quiet e hnodes { frame with inResource := true })
  have hstill := still_resourceBody frame (runMarked e nodes { frame with inResource := true })
  have hafter : after.inventory = p.inventory := by
    have hbetween := hquiet.inventory between
    rw [hbody] at hbetween
    exact hbetween.trans hinventory
  have hafter' : after'.inventory = p'.inventory := by
    have hbetween := hquiet.inventory between'
    rw [hbody'] at hbetween
    exact hbetween.trans hinventory'
  have hend : after.scope = p.scope := by
    have hbetween := hstill between
    rw [hbody] at hbetween
    exact hbetween.trans hscope
  have hend' : after'.scope = p'.scope := by
    have hbetween := hstill between'
    rw [hbody'] at hbetween
    exact hbetween.trans hscope'
  obtain ⟨-, rfl⟩ := register_eq_ok hregister
  obtain ⟨-, rfl⟩ := register_eq_ok hregister'
  obtain ⟨reads, reads', hreads, hreads', halike⟩ := resourceBody_twin h.body_fair frame hnodes
    (tracing_records _ _ _) (h.bare hinventory hscope hinventory' hscope') hbody hbody'
  refine ⟨Or.inr ⟨?_, ?_⟩, fun asked hfresh hfresh' hasked hasked' hother => ?_⟩
  · exact hend'.trans (h.beside.scope.trans hend.symm)
  · exact fun held hheld => h.beside.held held (hend ▸ hheld)
  dsimp only at hasked hasked' ⊢
  rw [hafter] at hasked ⊢
  rw [hafter'] at hasked' ⊢
  obtain ⟨hkey, hfound⟩ :=
    resource?_of_added h.known.founded.oneHome.distinct h.fits.room hfresh hasked
  obtain ⟨hkey', hfound'⟩ :=
    resource?_of_added h.known'.founded.oneHome.distinct h.fits'.room hfresh' hasked'
  obtain rfl : asked = key := hkey.trans (identity_of_finishResource hfinish).1
  obtain rfl : asked = key' := hkey'.trans (identity_of_finishResource hfinish').1
  rcases halike with hlost | ⟨rfl, -, -⟩
  · obtain ⟨⟨start, hstart, hreach, -⟩, start', hstart', -, hreach'⟩ := h.tied.lead_of_lost hlost
    have hread : start ∈ body.reads := by
      rw [hreads, Sorted.mem_union]
      exact (List.mem_append.1 hstart).symm
    have hread' : start' ∈ body'.reads := by
      rw [hreads', Sorted.mem_union]
      exact (List.mem_append.1 hstart').symm
    refine Or.inr ⟨?_, ?_⟩
    · exact traces_of_finishResource hagree.plain.mode hfinish hread hreach hfresh hother hfound rfl
    · exact traces_of_finishResource hagree.plain'.mode hfinish' hread' hreach' hfresh' hother
        hfound' rfl
  · left
    rw [finishResource_congr (hagree.plain'.mode.trans hagree.plain.mode.symm)
      (hagree.recorded asked hother), hfinish] at hfinish'
    cases hfinish'
    unfold Inventory.look
    rw [hfound, hfound']
    rfl

theorem Inventory.Lead.of_subset {keys more : List Key}
    (h : Inventory.Lead left right source keys) (hmore : keys ⊆ more) :
    Inventory.Lead left right source more :=
  let ⟨start, hstart, hreach⟩ := h
  ⟨start, hmore hstart, hreach⟩

/-- A step that refers to nothing ends alike, unless the instance around it leads to the source. -/
theorem Progress.Paired.run (h : Progress.Paired source frame p p') {α : Type} {step : Step α}
    {held : α → List Key}
    (htwin : step.Twin (Comparison.tracing p.inventory p'.inventory fun _ => frame.inherited) []
      held) {a a' : α} (hrun : step.run p = (.ok a, q)) (hrun' : step.run p' = (.ok a', q'))
    (hknown : q.Known) (hknown' : q'.Known) :
    Inventory.Lead p.inventory p'.inventory source frame.inherited ∨
      a' = a ∧ Progress.Paired source frame q q' := by
  have hinventory := htwin.quiet.inventory p
  have hinventory' := htwin.quiet.inventory p'
  have halike := htwin.alike p p' h.beside nofun
  rw [hrun] at hinventory
  rw [hrun'] at hinventory'
  rw [hrun, hrun'] at halike
  dsimp only at hinventory hinventory'
  rcases halike with hlost | ⟨hsame, hafter, -⟩
  · exact Or.inl (h.tied.lead_of_lost hlost).1
  · cases hsame
    refine Or.inr ⟨rfl, ⟨?_, hknown, hknown', ?_, ?_, ?_⟩⟩
    · rw [hinventory, hinventory']
      exact h.tied
    · rw [hinventory]
      exact h.fits
    · rw [hinventory']
      exact h.fits'
    · rw [hinventory, hinventory']
      exact hafter

/-- The body of a choice or a template holds one statement at most. -/
theorem body_matched {nodes : List Node} (hlength : nodes.length ≤ 1)
    (h : Progress.Paired source frame p p') (hleft : p.inventory = left)
    (hright : p'.inventory = right)
    (hnodes : ∀ node ∈ nodes, (runStatement e node frame).run p = (.ok (), q) →
      (runStatement e' node frame).run p' = (.ok (), q') →
        Matched source left right frame.inherited q q')
    (hrun : (Step.body (runStatements e nodes frame)).run p = (.ok (), q))
    (hrun' : (Step.body (runStatements e' nodes frame)).run p' = (.ok (), q')) :
    Matched source left right frame.inherited q q' := by
  match nodes, hlength with
  | [], _ =>
    cases hrun
    cases hrun'
    subst hleft hright
    exact Matched.of_inventory rfl (Or.inr ⟨h.beside.scope, h.beside.held⟩)
  | [node], _ =>
    rw [runStatements_eq_map, List.map_singleton, Step.body_singleton] at hrun hrun'
    exact hnodes node List.mem_cons_self hrun hrun'

/-- A guard that refers to nothing comes out alike. -/
theorem Progress.Paired.guard (h : Progress.Paired source frame p p')
    (hsame : e'.setting.undeclared = e.setting.undeclared) {condition : Node}
    (hcondition : condition.Everywhere Node.NotReference) {span : Span} {value value' : Value}
    (hrun : (e.reading frame span fun view => evaluate view condition).run p = (.ok value, q))
    (hrun' : (e'.reading frame span fun view => evaluate view condition).run p' =
      (.ok value', q')) :
    Inventory.Lead p.inventory p'.inventory source frame.inherited ∨
      value' = value ∧ Progress.Paired source frame q q' ∧
        q.inventory = p.inventory ∧ q'.inventory = p'.inventory := by
  rw [reading_congr hsame] at hrun'
  obtain ⟨hinventory, hknown⟩ := reading_known h.known hrun
  obtain ⟨hinventory', hknown'⟩ := reading_known h.known' hrun'
  have htwin := (Step.composes_twin h.fair).evaluating [] e frame span (Or.inr hcondition)
  exact (h.run htwin hrun hrun' hknown hknown').imp_right
    fun ⟨hvalue, hpaired⟩ => ⟨hvalue, hpaired, hinventory, hinventory'⟩

theorem runBranches_matched {branches : List Branch} {span : Span}
    (h : Progress.Paired source frame p p')
    (hsame : e'.setting.undeclared = e.setting.undeclared)
    (hleft : p.inventory = left) (hright : p'.inventory = right)
    (hlead : Inventory.Lead left right source frame.inherited →
      Matched source left right frame.inherited q q')
    (hguards : ∀ branch ∈ branches, ∀ node ∈ branch.arguments,
      node.Everywhere Node.NotReference)
    (hlengths : ∀ branch ∈ branches, branch.body.length ≤ 1)
    (hbodies : ∀ branch ∈ branches, ∀ node ∈ branch.body, ∀ p p',
      Progress.Paired source frame p p' → p.inventory = left → p'.inventory = right →
        (runStatement e node frame).run p = (.ok (), q) →
          (runStatement e' node frame).run p' = (.ok (), q') →
            Matched source left right frame.inherited q q')
    (hrun : (runBranches e span branches frame).run p = (.ok (), q))
    (hrun' : (runBranches e' span branches frame).run p' = (.ok (), q')) :
    Matched source left right frame.inherited q q' := by
  induction branches generalizing p p' with
  | nil =>
    cases hrun
    cases hrun'
    subst hleft hright
    exact Matched.of_inventory rfl (Or.inr ⟨h.beside.scope, h.beside.held⟩)
  | cons branch rest ih =>
    obtain ⟨name, arguments, body, place⟩ := branch
    have hbody : ∀ {p p'}, Progress.Paired source frame p p' → p.inventory = left →
        p'.inventory = right → (Step.body (runStatements e body frame)).run p = (.ok (), q) →
          (Step.body (runStatements e' body frame)).run p' = (.ok (), q') →
            Matched source left right frame.inherited q q' :=
      fun h hleft hright => body_matched (hlengths _ List.mem_cons_self) h hleft hright
        fun node hnode => hbodies _ List.mem_cons_self node hnode _ _ h hleft hright
    unfold runBranches at hrun hrun'
    cases hcondition : arguments.head? with
    | none =>
      rw [hcondition] at hrun hrun'
      exact hbody h hleft hright hrun hrun'
    | some condition =>
      rw [hcondition] at hrun hrun'
      dsimp only at hrun hrun'
      rw [run_bind_eq_ok] at hrun hrun'
      obtain ⟨value, between, hvalue, hrun⟩ := hrun
      obtain ⟨value', between', hvalue', hrun'⟩ := hrun'
      have hguard := hguards _ List.mem_cons_self condition (List.mem_of_mem_head? hcondition)
      rcases h.guard hsame hguard hvalue hvalue' with
        hlost | ⟨rfl, hpaired, hinventory, hinventory'⟩
      · rw [hleft, hright] at hlost
        exact hlead hlost
      · have hleft := hinventory.trans hleft
        have hright := hinventory'.trans hright
        split at hrun
        · next htruthy =>
          rw [if_pos htruthy] at hrun'
          exact hbody hpaired hleft hright hrun hrun'
        · next htruthy =>
          rw [if_neg htruthy] at hrun'
          exact ih hpaired hleft hright
            (fun other hother => hguards other (List.mem_cons_of_mem _ hother))
            (fun other hother => hlengths other (List.mem_cons_of_mem _ hother))
            (fun other hother => hbodies other (List.mem_cons_of_mem _ hother)) hrun hrun'

end Statements

/-- A statement that is done at once and refers to resources in bodies alone: in the bodies of its
blocks and in the arguments of its instances, but not in values, guards and names of instances. -/
inductive Inward (virtuals : Table TypeName VirtualType) : Node → Prop
  | quiet {node : Node} (hatonce : AtOnce virtuals node) (htypes : typesIn node = [])
      (hreads : node.Everywhere Node.NotReference) :
      Inward virtuals node
  | block {typeText : String} {name : Node} {nodes : List Node} {span : Span}
      (htype : ∀ type, TypeName.ofText typeText = .ok type → Table.get? virtuals type = none)
      (hnodes : typesInAll nodes = []) :
      Inward virtuals (.resource typeText name nodes span)
  | instance_ {typeText : String} {type : TypeName} {template : VirtualType} {name : Node}
      {nodes : List Node} {span : Span} (htype : TypeName.ofText typeText = .ok type)
      (htemplate : Table.get? virtuals type = some template)
      (hname : name.Everywhere Node.NotReference) (hnodes : typesInAll nodes = [])
      (hlength : template.body.length ≤ 1) (hbody : ∀ node ∈ template.body, Inward virtuals node) :
      Inward virtuals (.resource typeText name nodes span)
  | choice {d : Directive} (hname : d.name = "if")
      (hguard : ∀ node ∈ d.arguments, node.Everywhere Node.NotReference)
      (hguards : ∀ branch ∈ d.branches, ∀ node ∈ branch.arguments,
        node.Everywhere Node.NotReference)
      (hlength : d.body.length ≤ 1) (hlengths : ∀ branch ∈ d.branches, branch.body.length ≤ 1)
      (hinner : ∀ node ∈ (Node.directive d).inner, Inward virtuals node) :
      Inward virtuals (.directive d)

theorem Inward.atOnce {virtuals : Table TypeName VirtualType} {node : Node}
    (h : Inward virtuals node) :
    AtOnce virtuals node := by
  induction h with
  | quiet hatonce htypes hreads => exact hatonce
  | block htype hnodes => exact .block htype hnodes
  | instance_ htype htemplate hname hnodes hlength hbody ih =>
    exact .instance_ htype htemplate hnodes hlength ih
  | choice hname hguard hguards hlength hlengths hinner ih =>
    exact .choice hname hlength hlengths ih

section Inward

variable {source : Key} {setting setting' : Setting} {virtuals : Table TypeName VirtualType}
variable {frame : Frame} {p p' q q' : Progress}

theorem collecting_restores {α : Type} {step : Step α} {outcome : Except Interrupt _}
    (h : (Step.collecting step).run p = (outcome, q)) :
    q.reads = p.reads ∧ q.credentials = p.credentials := by
  rw [Step.collecting_run] at h
  cases h
  exact ⟨rfl, rfl⟩

/-- What the body of a template starts from when the arguments came out alike. -/
theorem Progress.Paired.below (h : Progress.Paired source frame p p') {arguments : Scope}
    {reads : List Key} {after after' : Progress} {name : String} {span : Span}
    (hinventory : after.inventory = p.inventory) (hinventory' : after'.inventory = p'.inventory)
    (hreads : after.reads = p.reads) (hreads' : after'.reads = p'.reads)
    (hcredentials : after.credentials = p.credentials)
    (hcredentials' : after'.credentials = p'.credentials)
    (hknown : Progress.Known { after with scope := Scope.withValues arguments.values })
    (hknown' : Progress.Known { after' with scope := Scope.withValues arguments.values })
    (hfits : (frame.below name span reads).Fits p.inventory)
    (hfits' : (frame.below name span reads).Fits p'.inventory)
    (hheld : (Comparison.tracing p.inventory p'.inventory fun more => frame.inherited ++ more).Accounts
      reads arguments.handles) :
    Progress.Paired source (frame.below name span reads)
      { after with scope := Scope.withValues arguments.values }
      { after' with scope := Scope.withValues arguments.values } := by
  refine ⟨?_, hknown, hknown', ?_, ?_, ⟨rfl, rfl, rfl, ?_, ?_, fun key hkey => ?_, fun key hkey => ?_⟩⟩
  · dsimp only
    rw [hinventory, hinventory']
    exact h.tied
  · dsimp only
    rwa [hinventory]
  · dsimp only
    rwa [hinventory']
  · exact hreads'.trans (h.beside.reads.trans hreads.symm)
  · exact hcredentials'.trans (h.beside.credentials.trans hcredentials.symm)
  · dsimp only at hkey ⊢
    rw [Scope.handles_withValues] at hkey
    rw [hinventory, hinventory']
    obtain ⟨start, hstart, hreach⟩ := hheld key (Scope.mem_handles.2 (Or.inl hkey))
    exact ⟨start, Sorted.mem_union.2 (List.mem_append.1 hstart), hreach⟩
  · dsimp only at hkey ⊢
    rw [hreads] at hkey
    rw [hinventory, hinventory']
    obtain ⟨start, hstart, hreach⟩ := h.beside.read key hkey
    exact ⟨start, Sorted.mem_union.2 (Or.inl hstart), hreach⟩

/-- Two instances register what looks the same, unless their arguments lead to the source. -/
theorem instantiate_matched (h : Progress.Paired source frame p p')
    (hagree : setting.Agree source setting') {depth : Nat} {template : VirtualType} {name : String}
    {nodes : List Node} {inner : Frame} {span : Span} (hnodes : typesInAll nodes = [])
    (hlength : template.body.length ≤ 1)
    (hatonce : ∀ node ∈ template.body, AtOnce virtuals node)
    (hvirtuals : p.inventory.virtuals = virtuals)
    (hbody : ∀ node ∈ template.body, ∀ depth reads p₁ p₁' q q',
      Progress.Paired source (frame.below name span reads) p₁ p₁' →
        p₁.inventory = p.inventory → p₁'.inventory = p'.inventory →
          (runStatement (Evaluator.atDepth setting depth) node (frame.below name span reads)).run p₁ =
            (.ok (), q) →
          (runStatement (Evaluator.atDepth setting' depth) node (frame.below name span reads)).run
            p₁' = (.ok (), q') →
          Matched source p.inventory p'.inventory (frame.below name span reads).inherited q q')
    (hrun : (instantiate (Evaluator.atDepth setting depth) frame template name span
      (runStatements (Evaluator.atDepth setting depth) nodes inner)).run p = (.ok (), q))
    (hrun' : (instantiate (Evaluator.atDepth setting' depth) frame template name span
      (runStatements (Evaluator.atDepth setting' depth) nodes inner)).run p' = (.ok (), q')) :
    Matched source p.inventory p'.inventory frame.inherited q q' := by
  have hsame : (Evaluator.atDepth setting' depth).setting.undeclared =
      (Evaluator.atDepth setting depth).setting.undeclared := by
    rw [Evaluator.setting_atDepth, Evaluator.setting_atDepth]
    exact hagree.undeclared
  have hsteps : runStatements (Evaluator.atDepth setting' depth) nodes inner =
      runStatements (Evaluator.atDepth setting depth) nodes inner :=
    runStatements_congr fun node hnode =>
      runStatement_congr hsame (typesInAll_eq_nil.1 hnodes node hnode) inner
  obtain ⟨arguments, reads, credentials, between, after, harguments, hexpand, rfl⟩ :=
    instantiate_eq_ok hrun
  obtain ⟨arguments', reads', credentials', between', after', harguments', hexpand', rfl⟩ :=
    instantiate_eq_ok hrun'
  rw [hsteps] at harguments'
  obtain ⟨hinventory, hscope, hknown, hfits⟩ := arguments_known h.known h.fits hnodes harguments
  obtain ⟨hinventory', hscope', hknown', hfits'⟩ :=
    arguments_known h.known' h.fits' hnodes harguments'
  refine ⟨Or.inr ⟨?_, fun key hkey => h.beside.held key (hscope ▸ hkey)⟩, ?_⟩
  · exact hscope'.trans (h.beside.scope.trans hscope.symm)
  have htwins : ∀ step ∈ runStatements (Evaluator.atDepth setting depth) nodes inner,
      step.Twin (Comparison.tracing p.inventory p'.inventory fun more => frame.inherited ++ more)
        [] (fun _ => []) := by
    intro step hstep
    rw [runStatements_eq_map] at hstep
    obtain ⟨node, hnode, rfl⟩ := List.mem_map.1 hstep
    exact runStatement_twin h.body_fair _ (typesInAll_eq_nil.1 hnodes node hnode)
      (Or.inl (tracing_records _ _ _)) inner
  rcases ((Step.composes_twin h.body_fair).assembles.inChild htwins).collecting (h.bare rfl rfl rfl rfl)
    harguments harguments' with hlost | ⟨rfl, rfl, rfl, hread, hheld⟩
  · -- what the bodies register bears the reads of the arguments
    have hbelow : ∀ more, frame.inherited ++ more ⊆ (frame.below name span more).inherited :=
      fun more key hkey => Sorted.mem_union.2 (List.mem_append.1 hkey)
    have hsettled : Progress.Settled { between with scope := Scope.withValues arguments.values }
        (frame.below name span reads).inherited after := by
      refine (carries_settled hagree.plain).expand hknown hlength
        (fun node hnode depth hrun => ?_) hexpand
      refine (hatonce node hnode).settled hagree.plain depth hknown ?_ rfl ?_ hrun
      · rw [hinventory]
        exact hfits name span
      · rw [hinventory, hvirtuals]
    have hsettled' : Progress.Settled { between' with scope := Scope.withValues arguments'.values }
        (frame.below name span reads').inherited after' := by
      refine (carries_settled hagree.plain').expand hknown' hlength
        (fun node hnode depth hrun => ?_) hexpand'
      refine (hatonce node hnode).settled hagree.plain' depth hknown' ?_ rfl ?_ hrun
      · rw [hinventory']
        exact hfits' name span
      · rw [hinventory', h.tied.virtuals, hvirtuals]
    obtain ⟨hlead, hlead'⟩ := h.tied.lead_of_lost hlost
    rw [← hinventory, ← hinventory'] at hlead hlead' ⊢
    have hadded := added_of_lead hsettled hsettled' (hlead.of_subset (hbelow reads))
      (hlead'.of_subset (hbelow reads'))
    exact hadded
  · obtain ⟨hreads, hcredentials⟩ := collecting_restores harguments
    obtain ⟨hreads', hcredentials'⟩ := collecting_restores harguments'
    have hpaired := h.below hinventory hinventory' hreads hreads' hcredentials hcredentials' hknown
      hknown' (hfits name span) (hfits' name span) hheld
    obtain ⟨below, rfl, hinner⟩ := expand_eq_ok hexpand
    obtain ⟨below', hdepth, hinner'⟩ := expand_eq_ok hexpand'
    obtain rfl := Nat.succ.inj hdepth
    have hmatched := body_matched hlength hpaired hinventory hinventory'
      (fun node hnode => hbody node hnode below reads' _ _ _ _ hpaired hinventory hinventory')
      hinner hinner'
    exact hmatched.added

/-- When the instance around a statement leads to the source, so does what the statement registers. -/
theorem AtOnce.matched_of_lead {node : Node} (h : AtOnce virtuals node)
    (hagree : setting.Agree source setting') {depth : Nat}
    (hpaired : Progress.Paired source frame p p') (hresource : frame.inResource = false)
    (hvirtuals : p.inventory.virtuals = virtuals)
    (hrun : (runStatement (Evaluator.atDepth setting depth) node frame).run p = (.ok (), q))
    (hrun' : (runStatement (Evaluator.atDepth setting' depth) node frame).run p' = (.ok (), q'))
    (hlead : Inventory.Lead p.inventory p'.inventory source frame.inherited) :
    Matched source p.inventory p'.inventory frame.inherited q q' := by
  have hsettled := h.settled hagree.plain depth hpaired.known hpaired.fits hresource hvirtuals hrun
  have hsettled' := h.settled hagree.plain' depth hpaired.known' hpaired.fits' hresource
    (hpaired.tied.virtuals.trans hvirtuals) hrun'
  exact ⟨Or.inl hlead, added_of_lead hsettled hsettled' hlead hlead⟩

/-- Two evaluations of such a statement register what looks the same, or what leads to the source
in both. -/
theorem Inward.matched {node : Node} (h : Inward virtuals node)
    (hagree : setting.Agree source setting') (depth : Nat) {frame : Frame} {p p' q q' : Progress}
    (hpaired : Progress.Paired source frame p p') (hresource : frame.inResource = false)
    (hvirtuals : p.inventory.virtuals = virtuals)
    (hrun : (runStatement (Evaluator.atDepth setting depth) node frame).run p = (.ok (), q))
    (hrun' : (runStatement (Evaluator.atDepth setting' depth) node frame).run p' = (.ok (), q')) :
    Matched source p.inventory p'.inventory frame.inherited q q' := by
  have hsame : ∀ depth, (Evaluator.atDepth setting' depth).setting.undeclared =
      (Evaluator.atDepth setting depth).setting.undeclared := by
    intro depth
    rw [Evaluator.setting_atDepth, Evaluator.setting_atDepth]
    exact hagree.undeclared
  induction h generalizing depth frame p p' q q' with
  | quiet hatonce htypes hreads => exact quiet_matched hpaired (hsame depth) htypes hreads hrun hrun'
  | @block typeText name nodes span htype hnodes =>
    obtain ⟨type, text, between, htypeName, hname, ⟨template, htemplate, -⟩ | ⟨found, -, hfound, hrun⟩⟩ :=
      block_eq_ok hrun
    · unfold Inventory.virtual? at htemplate
      rw [hvirtuals, htype type htypeName] at htemplate
      cases htemplate
    obtain ⟨type', text', between', htypeName', hname',
      ⟨template, htemplate, -⟩ | ⟨found', -, hfound', hrun'⟩⟩ := block_eq_ok hrun'
    · unfold Inventory.virtual? at htemplate
      rw [hpaired.tied.virtuals, hvirtuals, htype type' htypeName'] at htemplate
      cases htemplate
    rw [htypeName] at htypeName'
    cases htypeName'
    rw [hpaired.tied.registry, hfound] at hfound'
    cases hfound'
    obtain ⟨hinventory, -⟩ := naming_known hpaired.known hname
    obtain ⟨hinventory', -⟩ := naming_known hpaired.known' hname'
    have hscope := still_of_run (Step.still_reading _ _ _ _) hname
    have hscope' := still_of_run (Step.still_reading _ _ _ _) hname'
    refine declareResource_matched hpaired ?_ hinventory hscope hinventory' hscope' hnodes hrun hrun'
    rw [Evaluator.setting_atDepth, Evaluator.setting_atDepth]
    exact hagree
  | @instance_ typeText type template name nodes span htype htemplate hreads hnodes hlength hbody ih =>
    have hatonce : AtOnce virtuals (.resource typeText name nodes span) :=
      .instance_ htype htemplate hnodes hlength fun node hnode => (hbody node hnode).atOnce
    have hlead := hatonce.matched_of_lead hagree hpaired hresource hvirtuals hrun hrun'
    obtain ⟨type₁, text, between, htypeName, hname, ⟨found, hfound, hrun⟩ | ⟨_, hnone, -⟩⟩ :=
      block_eq_ok hrun
    · obtain ⟨type₂, text', between', htypeName', hname',
        ⟨found', hfound', hrun'⟩ | ⟨_, hnone, -⟩⟩ := block_eq_ok hrun'
      · rw [htype] at htypeName htypeName'
        cases htypeName
        cases htypeName'
        unfold Inventory.virtual? at hfound hfound'
        rw [hvirtuals, htemplate] at hfound
        rw [hpaired.tied.virtuals, hvirtuals, htemplate] at hfound'
        cases hfound
        cases hfound'
        rw [reading_congr (hsame depth)] at hname'
        obtain ⟨hinventory, hknown⟩ := naming_known hpaired.known hname
        obtain ⟨hinventory', hknown'⟩ := naming_known hpaired.known' hname'
        have htwin := (Step.composes_twin hpaired.fair).naming []
          (Evaluator.atDepth setting depth) frame span (Or.inr hreads)
        rcases hpaired.run htwin hname hname' hknown hknown' with hlost | ⟨rfl, hnamed⟩
        · exact hlead hlost
        · rw [← hinventory, ← hinventory']
          refine instantiate_matched hnamed hagree hnodes hlength
            (fun node hnode => (hbody node hnode).atOnce) (hinventory ▸ hvirtuals) ?_ hrun hrun'
          intro node hnode depth reads p₁ p₁' q q' hbelow heq heq' hrun hrun'
          rw [← heq, ← heq']
          refine ih node hnode depth hbelow rfl ?_ hrun hrun'
          rw [heq, hinventory, hvirtuals]
      · rw [htype] at htypeName'
        cases htypeName'
        unfold Inventory.virtual? at hnone
        rw [hpaired.tied.virtuals, hvirtuals, htemplate] at hnone
        cases hnone
    · rw [htype] at htypeName
      cases htypeName
      unfold Inventory.virtual? at hnone
      rw [hvirtuals, htemplate] at hnone
      cases hnone
  | @choice d hname hguard hguards hlength hlengths hinner ih =>
    have hatonce : AtOnce virtuals (.directive d) :=
      .choice hname hlength hlengths fun node hnode => (hinner node hnode).atOnce
    have hlead := hatonce.matched_of_lead hagree hpaired hresource hvirtuals hrun hrun'
    have hchild : ∀ child ∈ (Node.directive d).inner, ∀ p₁ p₁',
        Progress.Paired source frame p₁ p₁' → p₁.inventory = p.inventory →
          p₁'.inventory = p'.inventory →
            (runStatement (Evaluator.atDepth setting depth) child frame).run p₁ = (.ok (), q) →
              (runStatement (Evaluator.atDepth setting' depth) child frame).run p₁' = (.ok (), q') →
                Matched source p.inventory p'.inventory frame.inherited q q' := by
      intro child hchild p₁ p₁' h₁ heq heq' hrun hrun'
      rw [← heq, ← heq']
      refine ih child hchild depth h₁ hresource ?_ hrun hrun'
      rw [heq, hvirtuals]
    obtain ⟨name, arguments, clauses, bodyless, body, branches, span⟩ := d
    unfold runStatement runDirective at hrun hrun'
    rw [if_pos hname] at hrun hrun'
    cases hcondition : arguments.head? with
    | none =>
      rw [hcondition] at hrun
      cases hrun
    | some condition =>
      rw [hcondition] at hrun hrun'
      dsimp only at hrun hrun'
      rw [run_bind_eq_ok] at hrun hrun'
      obtain ⟨value, between, hvalue, hrun⟩ := hrun
      obtain ⟨value', between', hvalue', hrun'⟩ := hrun'
      have hreads := hguard condition (List.mem_of_mem_head? hcondition)
      rcases hpaired.guard (hsame depth) hreads hvalue hvalue' with
        hlost | ⟨rfl, hafter, hinventory, hinventory'⟩
      · exact hlead hlost
      · split at hrun
        · next htruthy =>
          rw [if_pos htruthy] at hrun'
          exact body_matched hlength hafter hinventory hinventory' (fun node hnode =>
            hchild node (List.mem_append_left _ hnode) _ _ hafter hinventory hinventory') hrun hrun'
        · next htruthy =>
          rw [if_neg htruthy] at hrun'
          refine runBranches_matched hafter (hsame depth) hinventory hinventory' hlead hguards
            hlengths (fun branch hbranch node hnode => ?_) hrun hrun'
          have hmem := List.mem_flatMap.2 ⟨branch, hbranch, hnode⟩
          exact hchild node (List.mem_append_right _ hmem)

end Inward

end Provision

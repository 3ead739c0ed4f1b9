import Provision.Proofs.Evaluation.Influence
import Provision.Proofs.Evaluation.Remaking

/-!
# What is executed is what was planned

Evaluating a declaration again with nothing changed in between gives the resource
that was planned.  Whatever a statement that is done at once registers comes from
a declaration, under the inventory that the statement found, and that inventory
is part of the final one.  The body finds there what it found before, unless an
instance has come to hide a resource that the body read.
-/

namespace Provision

open Provision.Language (Node SourceFile)

/-! ## Where resources come from -/

/-- Every resource came from its declaration, under an inventory that this one has kept. -/
def Inventory.Explained (recorded : Option Inventory) (inventory : Inventory) : Prop :=
  ∀ key resource, inventory.resource? key = some resource →
    ∃ d earlier, earlier.Kept inventory ∧ Declaration.Comes d recorded earlier resource

/-- A finished resource has no declaration yet. -/
theorem declaration_of_finishResource {setting : Setting} {key : Key} {type : ResourceType}
    {origin : Span} {body : EvaluatedBody} {resource : Resource}
    (h : finishResource setting key type origin body = .ok resource) :
    resource.declaration = none := by
  obtain ⟨recorded, -, -, -, rfl⟩ := finishResource_ok_iff.1 h
  rfl

/-- A resource that was not there before came from its declaration under what was there before. -/
def Progress.Registers (recorded : Option Inventory) (p q : Progress) : Prop :=
  ∀ key resource, q.inventory.resource? key = some resource →
    p.inventory.resource? key = some resource ∨
      ∃ d, Declaration.Comes d recorded p.inventory resource

theorem Progress.Registers.of_inventory {recorded : Option Inventory} {p between q : Progress}
    (h : between.Registers recorded q) (hinventory : between.inventory = p.inventory) :
    p.Registers recorded q := by
  unfold Progress.Registers
  rw [← hinventory]
  exact h

theorem carries_registers {setting : Setting} {recorded : Option Inventory}
    (hmode : setting.mode = .configuration) (hcurrent : setting.current = recorded) :
    Carries setting fun _ p q => p.Registers recorded q where
  idle _ _ _ h := Or.inl h
  quiet {e frame p q node} htypes _ hrun key resource hresource := by
    have hinventory := (runStatement_quiet e htypes frame).inventory p
    rw [hrun] at hinventory
    exact Or.inl (hinventory ▸ hresource)
  declares {e frame p q type name source span} hsetting hp hfits hsource hrun := by
    obtain ⟨key, body, resource, between, -, hbody, hfinish, hregister⟩ :=
      declareResource_eq_ok hrun
    have hquiet := resourceBody_quiet frame
      (runMarked_quiet e hsource { frame with inResource := true })
    have hinventory := hquiet.inventory p
    have hscope := still_resourceBody frame (runMarked e source { frame with inResource := true }) p
    rw [hbody] at hinventory hscope
    dsimp only at hinventory hscope
    rw [hsetting, if_pos hmode] at hregister
    obtain ⟨-, rfl⟩ := register_eq_ok hregister
    intro other found hfound
    dsimp only at hfound
    rw [hinventory, Inventory.resource?_insertAt hp.founded.oneHome.distinct hfits.room] at hfound
    split at hfound
    · cases hfound
      have hnone := declaration_of_finishResource hfinish
      obtain ⟨rfl, rfl⟩ := identity_of_finishResource hfinish
      obtain rfl := origin_of_finishResource hfinish
      have hsame : finishResource ⟨.configuration, recorded, []⟩ resource.key =
          finishResource e.setting resource.key := by
        refine finishResource_congr ?_ ?_
        · rw [hsetting, hmode]
        · rw [hsetting, hcurrent]
      refine Or.inr ⟨⟨source, between.scope.flatten, frame.qualifier, frame.inherited⟩, rfl, hsource,
        e, frame, p, body, between, rfl, rfl, hp, rfl, congrArg Scope.flatten hscope.symm, hbody, ?_⟩
      rw [← hnone, hsame, hfinish]
    · exact Or.inl hfound
  of_inventory hinventory h := h.of_inventory hinventory
  below _ hinventory h := h.of_inventory hinventory

namespace Round

variable {setup : EvaluationSetup} {virtuals : Table TypeName VirtualType}
variable {round after : Round} {task : Task} {tasks front back : List Task}

/-- A statement that gets done keeps what was there. -/
theorem Laid.kept (h : round.Laid virtuals tasks) (htask : task ∈ tasks)
    (hrun : round.attempt setup task = .ok (after, none)) :
    round.inventory.Kept after.inventory := by
  rcases h.orderly.attempt_done htask hrun with ⟨hsame, -⟩ | ⟨site, resource, hdeclares, -⟩
  · rw [hsame]
    exact Inventory.kept_refl _
  · refine ⟨fun key found hfound => ?_, ?_, ?_⟩
    · have hother : resource.key ≠ key := by
        rintro rfl
        have hfresh := h.fresh htask hdeclares
        rw [Inventory.has_eq_false_iff, hfound] at hfresh
        cases hfresh
      rw [hdeclares.resource?_after h.orderly htask, if_neg hother]
      exact hfound
    · rw [hdeclares.inventory]
      rfl
    · rw [hdeclares.inventory]
      rfl

/-- A statement that gets done leaves every resource explained. -/
theorem Laid.explained (h : round.Laid virtuals tasks) (hmode : setup.mode = .configuration)
    (htask : task ∈ tasks) (hexplained : round.inventory.Explained setup.current)
    (hrun : round.attempt setup task = .ok (after, none)) :
    after.inventory.Explained setup.current := by
  have hkept := h.kept htask hrun
  obtain ⟨q, hregisters, hinventory, -⟩ :=
    h.carried htask (fun undeclared => carries_registers hmode rfl) hrun
  intro key resource hresource
  rw [hinventory] at hresource
  rcases hregisters key resource hresource with hbefore | ⟨d, hd⟩
  · obtain ⟨d, earlier, hearlier, hd⟩ := hexplained key resource hbefore
    exact ⟨d, earlier, hearlier.trans hkept, hd⟩
  · exact ⟨d, round.inventory, hkept, hd⟩

theorem Laid.explained_run {last : Round} (h : round.Laid virtuals round.tasks)
    (hmode : setup.mode = .configuration)
    (hplain : ∀ undeclared, Setting.Plain ⟨setup.mode, setup.current, undeclared⟩)
    (hexplained : round.inventory.Explained setup.current) {bound : Nat}
    (hrun : round.run setup bound = .ok last) :
    last.inventory.Explained setup.current := by
  refine (run_keeps (fun _ round tasks => round.Laid virtuals tasks ∧
    round.inventory.Explained setup.current) ?_ ?_ ?_ [] ⟨h, hexplained⟩ hrun).2
  · rintro _ _ _ _ _ _ ⟨hlaid, hexplained⟩ hattempt
    exact ⟨hlaid.of_done hplain hattempt, hlaid.explained hmode (by simp) hexplained hattempt⟩
  · rintro _ _ _ _ _ _ _ ⟨hlaid, hexplained⟩ hattempt
    obtain rfl := hlaid.orderly.eq_of_deferred (by simp) hattempt
    exact ⟨hlaid, hexplained⟩
  · rintro _ _ _ tasks settling ⟨hlaid, hexplained⟩
    exact ⟨hlaid.congr tasks settling, hexplained⟩

/-- The result keeps what the last round holds. -/
theorem kept_result (round : Round) (indices : List Nat) :
    round.inventory.Kept (round.result indices) := by
  refine ⟨fun key resource h => (resource?_result round indices key).trans h, ?_, ?_⟩
  · exact List.foldlRecOn
      (motive := fun inventory : Inventory => inventory.registry = round.inventory.registry)
      _ _ rfl fun _ h _ _ => h
  · exact List.foldlRecOn
      (motive := fun inventory : Inventory => inventory.virtuals = round.inventory.virtuals)
      _ _ rfl fun _ h _ _ => h

end Round

theorem Inventory.Explained.result {recorded : Option Inventory} {round : Round}
    (h : round.inventory.Explained recorded) (indices : List Nat) :
    (round.result indices).Explained recorded := by
  intro key resource hresource
  rw [resource?_result] at hresource
  obtain ⟨d, earlier, hearlier, hd⟩ := h key resource hresource
  exact ⟨d, earlier, hearlier.trans (round.kept_result indices), hd⟩

/-! ## Reevaluation -/

/-- An explained resource whose declaration can be evaluated again comes out as it is. -/
theorem reevaluate_of_explained {pending current : Inventory} (hhome : pending.OneHome)
    (hexplained : pending.Explained (some current)) {key : Key}
    (hrepeatable : ∀ resource d, pending.resource? key = some resource →
      resource.declaration = some d → d.Repeatable pending) (depth : Nat) :
    reevaluate depth pending current key = (.ok (), pending) := by
  unfold reevaluate
  split
  · next resource file hresource hfile =>
    obtain ⟨d, earlier, hearlier, hcomes⟩ := hexplained key resource hresource
    obtain ⟨body, after, hrun, hinventory, hfinish⟩ := hcomes.body_again hearlier
      (hrepeatable resource d hresource hcomes.declares)
      (Evaluator.atDepth ⟨.configuration, some current, []⟩ depth) file
    obtain ⟨-, rfl⟩ := hhome.keyed.key_of_resource? hresource
    rw [hcomes.declares]
    dsimp only
    rw [hrun]
    dsimp only
    rw [hfinish, hinventory]
    dsimp only
    rw [← hcomes.declares, Inventory.insertAt_of_held hhome hresource hfile]
  · rfl

/-- When statements are done at once, evaluating a declaration again with nothing changed in between
leaves the inventory as it was planned, if the declaration can be evaluated again there. -/
theorem reevaluate_planned {registry : Registry} {current : Inventory} {files : List SourceFile}
    {start : Round} {indices : List Nat} {pending : Inventory}
    (hstart : Round.start (.empty registry) files = .ok (start, indices))
    (hatonce : ∀ task ∈ start.tasks, AtOnce start.inventory.virtuals task.node)
    (hapart : start.tasks.Pairwise fun first second =>
      (blockPlaces first.node).Disjoint (blockPlaces second.node))
    (hplain : current.PlainOutputs)
    (h : evaluateConfiguration registry (some current) files = .ok pending) {key : Key}
    (hrepeatable : ∀ resource d, pending.resource? key = some resource →
      resource.declaration = some d → d.Repeatable pending) (depth : Nat) :
    reevaluate depth pending current key = (.ok (), pending) := by
  have hsound := evaluateConfiguration_sound h
  obtain ⟨start', indices', last, hstart', hrun, rfl⟩ := evaluateFiles_eq_ok h
  rw [hstart] at hstart'
  cases hstart'
  have hlaid := start_laid hstart hatonce hapart
  have hplain : ∀ recorded, some current = some recorded → recorded.PlainOutputs := by
    rintro recorded ⟨⟩
    exact hplain
  have hnone : start.inventory.Explained (some current) := by
    intro key resource hresource
    rw [(start_spec hstart).1 key] at hresource
    cases hresource
  have hexplained := hlaid.explained_run rfl (fun _ => ⟨rfl, hplain⟩) hnone hrun
  exact reevaluate_of_explained hsound.oneHome (hexplained.result indices) hrepeatable depth

/-- An instance whose box takes over the path of the box `a` outside. -/
def wrappedBoxes (name : String) : SourceFile :=
  ⟨"main", [
    .directive ⟨"virtual", [.text "m::wrap"], [], false, [
      boxBlock 2 (.text name) [pairAt 3 "path" (.text "own"), pairAt 4 "v" (boxField 4 "a" "path")]],
      [], lineStart 1⟩,
    boxBlock 7 (.text "a") [pairAt 8 "path" (.text "outside")],
    .resource "m::wrap" (.text "i") [] (lineStart 10)]⟩

/-- The template of the instance. -/
def wrapTemplate (name : String) : VirtualType :=
  ⟨⟨"m::wrap", rfl⟩, [],
    [boxBlock 2 (.text name) [pairAt 3 "path" (.text "own"), pairAt 4 "v" (boxField 4 "a" "path")]],
    lineStart 1⟩

theorem wrappedBoxes_atOnce {name : String} {node : Node} (h : node ∈ (wrappedBoxes name).body.tail) :
    AtOnce [((wrapTemplate name).name, wrapTemplate name)] node := by
  have hplain : ∀ type, TypeName.ofText boxType.name.text = .ok type →
      Table.get? [((wrapTemplate name).name, wrapTemplate name)] type = none := by
    rintro type ⟨⟩
    rfl
  simp only [wrappedBoxes, List.tail_cons, List.mem_cons, List.not_mem_nil, or_false] at h
  rcases h with rfl | rfl
  · exact .block hplain rfl
  · refine .instance_ rfl rfl rfl (Nat.le_refl 1) fun node hnode => ?_
    obtain rfl := List.mem_singleton.1 hnode
    exact .block hplain rfl

/-- A box that has its own path and takes over the one of the box `a` can be evaluated again, as long as
its instance has no box `a` of its own. -/
theorem repeatable_of_unhidden {inventory : Inventory} {d : Declaration} {outer : String}
    (hqualifier : d.qualifier = some outer)
    (hentries : d.body.map Declaration.entryRead? = [some none, some (some (boxType.name.text, "a"))])
    (hunhidden : inventory.has (boxKey (qualify (some outer) "a")) = false) :
    d.Repeatable inventory := by
  refine Declaration.repeatable_of_entries fun node hnode => ?_
  have hread : Declaration.entryRead? node ∈ d.body.map Declaration.entryRead? :=
    List.mem_map_of_mem hnode
  rw [hentries] at hread
  simp only [List.mem_cons, List.not_mem_nil, or_false] at hread
  rcases hread with hread | hread
  · refine ⟨none, hread, fun type name hnamed => ?_⟩
    cases hnamed
  · refine ⟨_, hread, fun type name hnamed => ?_⟩
    cases hnamed
    refine ⟨rfl, fun found hfound other hother _ => ?_⟩
    cases hfound
    obtain rfl := Option.some.inj (hqualifier.symm.trans hother)
    exact hunhidden

/-- The box `b` of the instance is planned with the path of the box outside, and comes out so
again. -/
theorem reevaluate_planned_wrapped :
    ∃ pending, evaluateConfiguration boxRegistry (some (.empty boxRegistry)) [wrappedBoxes "b"] =
        .ok pending ∧
      boxText pending "i/b" = some "outside" ∧
      reevaluate instanceDepth pending (.empty boxRegistry) (boxKey "i/b") = (.ok (), pending) := by
  have hrun : (Round.start (.empty boxRegistry) [wrappedBoxes "b"]).toOption.bind (fun _ =>
      (evaluateConfiguration boxRegistry (some (.empty boxRegistry)) [wrappedBoxes "b"]).toOption.map
        fun pending => (boxText pending "i/b", pending.has (boxKey (qualify (some "i") "a")))) =
      some (some "outside", false) := by
    decide +kernel
  have hdeclared :
      (evaluateConfiguration boxRegistry (some (.empty boxRegistry)) [wrappedBoxes "b"]).toOption.bind
        (fun pending => ((pending.resource? (boxKey "i/b")).bind Resource.declaration).map fun d =>
          (d.qualifier, d.body.map Declaration.entryRead?)) =
      some (some "i", [some none, some (some (boxType.name.text, "a"))]) := by
    decide +kernel
  have htasks : (Round.start (.empty boxRegistry) [wrappedBoxes "b"]).toOption.map
      (fun started => (started.1.tasks, started.1.inventory.virtuals)) =
        some ((wrappedBoxes "b").body.tail.map fun node => ⟨0, 0, node⟩,
          [((wrapTemplate "b").name, wrapTemplate "b")]) := rfl
  obtain ⟨⟨start, indices⟩, hstart, hrun⟩ := Option.bind_eq_some_iff.1 hrun
  obtain ⟨pending, hpending, hrun⟩ := Option.map_eq_some_iff.1 hrun
  obtain ⟨htext, hunhidden⟩ := Prod.mk.inj hrun
  rw [hpending, Option.bind_some] at hdeclared
  rw [toOption_eq_some] at hstart hpending
  rw [hstart] at htasks
  obtain ⟨htasks, hvirtuals⟩ := Prod.mk.inj (Option.some.inj htasks)
  have hatonce : ∀ task ∈ start.tasks, AtOnce start.inventory.virtuals task.node := by
    intro task htask
    rw [htasks] at htask
    obtain ⟨node, hnode, rfl⟩ := List.mem_map.1 htask
    exact hvirtuals ▸ wrappedBoxes_atOnce hnode
  have hapart : start.tasks.Pairwise fun first second =>
      (blockPlaces first.node).Disjoint (blockPlaces second.node) := by
    rw [htasks]
    simp [wrappedBoxes, boxBlock, blockPlaces, lineStart]
  refine ⟨pending, hpending, htext, reevaluate_planned hstart hatonce hapart ?_ hpending ?_ _⟩
  · intro key resource hresource
    cases hresource
  · intro resource d hresource hd
    rw [hresource, Option.bind_some, hd] at hdeclared
    obtain ⟨hqualifier, hentries⟩ := Prod.mk.inj (Option.some.inj hdeclared)
    exact repeatable_of_unhidden hqualifier hentries hunhidden

/-- A box with the name of the one outside is planned with the path of that one.  It hides it by the
time it is evaluated again, and takes over its own path. -/
theorem hiding_box_comes_out_differently :
    ∃ pending again,
      evaluateConfiguration boxRegistry (some (.empty boxRegistry)) [wrappedBoxes "a"] = .ok pending ∧
      reevaluate instanceDepth pending (.empty boxRegistry) (boxKey "i/a") = (.ok (), again) ∧
      boxText pending "i/a" = some "outside" ∧ boxText again "i/a" = some "own" := by
  have hrun :
      (evaluateConfiguration boxRegistry (some (.empty boxRegistry)) [wrappedBoxes "a"]).toOption.map
        (fun pending =>
          ((reevaluate instanceDepth pending (.empty boxRegistry) (boxKey "i/a")).1.toOption.isSome,
            boxText pending "i/a",
            boxText (reevaluate instanceDepth pending (.empty boxRegistry) (boxKey "i/a")).2 "i/a")) =
      some (true, some "outside", some "own") := by
    decide +kernel
  obtain ⟨pending, hpending, hrun⟩ := Option.map_eq_some_iff.1 hrun
  rw [toOption_eq_some] at hpending
  cases hagain : reevaluate instanceDepth pending (.empty boxRegistry) (boxKey "i/a") with
  | mk outcome again =>
    rw [hagain] at hrun
    obtain ⟨houtcome, hrun⟩ := Prod.mk.inj hrun
    obtain ⟨hbefore, hafter⟩ := Prod.mk.inj hrun
    cases outcome with
    | ok done => exact ⟨pending, again, hpending, hagain, hbefore, hafter⟩
    | error e => cases houtcome

end Provision

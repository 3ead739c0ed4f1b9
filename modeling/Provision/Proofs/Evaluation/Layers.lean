import Provision.Proofs.Evaluation.Founded
import Provision.Proofs.Evaluation.History
import Provision.Proofs.Plan.Layers

/-!
# Evaluated resources lie in layers

A resource that is registered for the first time depends on resources that are
there already.  When no key is registered twice, the resources therefore lie in
layers: there is no cycle, and a plan that creates them has an order.  A loop that
is tried again registers its resources a second time; these see what the first
attempt left behind, each other included.
-/

namespace Provision

open Provision.Language (Node SourceFile)

section Insert

variable {inventory : Inventory} {resource : Resource} {file : Nat}

theorem Resource.RestsOn.mono (h : resource.RestsOn inventory) {after : Inventory}
    (hgrown : ∀ key, inventory.has key = true → after.has key = true) :
    resource.RestsOn after :=
  ⟨fun key hkey => hgrown key (h.there key hkey), h.fields⟩

theorem Inventory.Founded.insertAt (h : inventory.Founded) (hroom : file < inventory.files.length)
    (hrests : resource.RestsOn inventory) :
    (inventory.insertAt file resource).Founded := by
  have hgrown : ∀ key, inventory.has key = true →
      (inventory.insertAt file resource).has key = true :=
    fun key hkey => (has_insertAt h.oneHome.distinct hroom resource key).2 (Or.inr hkey)
  refine ⟨oneHome_insertAt h.oneHome file resource, fun key found hfound => ?_⟩
  rw [resource?_insertAt h.oneHome.distinct hroom] at hfound
  split at hfound
  · cases hfound
    exact hrests.mono hgrown
  · exact (h.rests key found hfound).mono hgrown

/-- What resources depend on is there. -/
theorem Inventory.Founded.has_of_dependsOn (h : inventory.Founded) {key other : Key}
    (hedge : inventory.DependsOn key other) : inventory.has other = true := by
  obtain ⟨resource, hresource, hother⟩ := dependsOn_iff.1 hedge
  exact (h.rests key resource hresource).there other hother

/-- A resource that was not there goes above all that it depends on. -/
theorem Inventory.Founded.layered_insertAt (h : inventory.Founded) (hlayered : inventory.Layered)
    (hroom : file < inventory.files.length) (hrests : resource.RestsOn inventory)
    (hfresh : inventory.has resource.key = false) :
    (inventory.insertAt file resource).Layered := by
  refine hlayered.insertAt h.oneHome.distinct hroom (fun hself => ?_) fun key hedge => ?_
  · rw [hrests.there _ hself] at hfresh
    cases hfresh
  · rw [h.has_of_dependsOn hedge] at hfresh
    cases hfresh

end Insert

namespace Round

variable {setup : EvaluationSetup} {virtuals : Table TypeName VirtualType}
variable {round after : Round} {task : Task} {tasks front back : List Task}

/-- What is there was declared by statements that are done, rests on what is there, and lies in
layers. -/
structure Laid (virtuals : Table TypeName VirtualType) (round : Round) (tasks : List Task) :
    Prop where
  orderly : round.Orderly virtuals tasks
  founded : round.inventory.Founded
  layered : round.inventory.Layered
  neat : ∀ scope ∈ round.scopes, scope.Neat
  scopes : ∀ scope ∈ round.scopes, ∀ key ∈ scope.handles, round.inventory.has key = true
  declared : ∀ key, round.inventory.has key = true → ∃ site,
    Table.get? round.declared key = some site ∧ ∀ task ∈ tasks, site.location ∉ blockPlaces task.node
  apart : tasks.Pairwise fun first second =>
    (blockPlaces first.node).Disjoint (blockPlaces second.node)

/-- A statement that is left declares a resource that is not there yet. -/
theorem Laid.fresh (h : round.Laid virtuals tasks) (htask : task ∈ tasks) {site : Site}
    {resource : Resource} (hdeclares : round.Declares task site resource after) :
    round.inventory.has resource.key = false := by
  by_contra hhas
  rw [Bool.not_eq_false] at hhas
  obtain ⟨first, hfirst, hplaces⟩ := h.declared resource.key hhas
  have hclash := hdeclares.clash
  unfold Progress.clash at hclash
  have hdeclared : Table.get? (round.progress task).declared resource.key = some first := hfirst
  rw [hdeclared] at hclash
  dsimp only at hclash
  split at hclash
  · next heq => exact hplaces task htask (heq ▸ hdeclares.place)
  · cases hclash

theorem Laid.known (h : round.Laid virtuals tasks) (task : Task) : (round.progress task).Known := by
  refine ⟨h.founded, ?_, fun key hkey => ?_, nofun⟩
  · unfold progress
    cases hscope : round.scopes[task.source]? with
    | none => exact Scope.neat_withValues List.nodup_nil
    | some scope => exact h.neat scope (List.mem_of_getElem? hscope)
  · unfold progress at hkey
    cases hscope : round.scopes[task.source]? with
    | none =>
      rw [hscope] at hkey
      cases hkey
    | some scope =>
      rw [hscope] at hkey
      exact h.scopes scope (List.mem_of_getElem? hscope) key hkey

/-- What is carried holds of a statement that gets done. -/
theorem Laid.carried (h : round.Laid virtuals tasks) (htask : task ∈ tasks)
    {R : Frame → Progress → Progress → Prop}
    (hcarries : ∀ undeclared, Carries ⟨setup.mode, setup.current, undeclared⟩ R)
    (hrun : round.attempt setup task = .ok (after, none)) :
    ∃ q, R { file := task.file } (round.progress task) q ∧ after.inventory = q.inventory ∧
      after.scopes = round.scopes.set task.source q.scope := by
  rw [attempt_eq] at hrun
  split at hrun
  · next q hq =>
    cases hrun
    have hfits : ({ file := task.file } : Frame).Fits (round.progress task).inventory :=
      ⟨h.orderly.room task htask, nofun⟩
    exact ⟨q, (h.orderly.atOnce task htask).carried (hcarries _) setup.depth (h.known task) hfits rfl
      h.orderly.virtuals_eq hq, rfl, rfl⟩
  · cases hrun
  · cases hrun

/-- A statement that gets done settles what it may. -/
theorem Laid.settled (h : round.Laid virtuals tasks) (htask : task ∈ tasks)
    (hplain : ∀ undeclared, Setting.Plain ⟨setup.mode, setup.current, undeclared⟩)
    (hrun : round.attempt setup task = .ok (after, none)) :
    ∃ q, (round.progress task).Settled [] q ∧ after.inventory = q.inventory ∧
      after.scopes = round.scopes.set task.source q.scope :=
  h.carried htask (fun undeclared => carries_settled (hplain undeclared)) hrun

/-- The scopes after a statement hold what is there. -/
theorem Laid.scopes_set (h : round.Laid virtuals tasks) {q : Progress}
    (hsettled : (round.progress task).Settled [] q)
    (hgrown : ∀ key, round.inventory.has key = true → after.inventory.has key = true)
    (hscopes : after.scopes = round.scopes.set task.source q.scope) :
    ∀ scope ∈ after.scopes, ∀ key ∈ scope.handles, after.inventory.has key = true := by
  intro scope hscope key hkey
  rw [hscopes] at hscope
  rcases List.mem_or_eq_of_mem_set hscope with hscope | rfl
  · exact hgrown key (h.scopes scope hscope key hkey)
  · exact hgrown key (hsettled.scope key hkey)

theorem Laid.neat_set (h : round.Laid virtuals tasks) {q : Progress}
    (hsettled : (round.progress task).Settled [] q)
    (hscopes : after.scopes = round.scopes.set task.source q.scope) :
    ∀ scope ∈ after.scopes, scope.Neat := by
  intro scope hscope
  rw [hscopes] at hscope
  rcases List.mem_or_eq_of_mem_set hscope with hscope | rfl
  · exact h.neat scope hscope
  · exact hsettled.neat

/-- A statement that gets done lays its resource above those that were there. -/
theorem Laid.of_done (h : round.Laid virtuals (front ++ task :: back))
    (hplain : ∀ undeclared, Setting.Plain ⟨setup.mode, setup.current, undeclared⟩)
    (hrun : round.attempt setup task = .ok (after, none)) :
    after.Laid virtuals (front ++ back) := by
  have htask : task ∈ front ++ task :: back := by simp
  have hrest : (front ++ back).Sublist (front ++ task :: back) :=
    (List.sublist_cons_self task back).append_left front
  have horderly := (h.orderly.of_done htask hrun).subset hrest.subset
  have hapart := h.apart.sublist hrest
  obtain ⟨q, hsettled, hinventory, hscopes⟩ := h.settled htask hplain hrun
  have hneat := h.neat_set hsettled hscopes
  rcases h.orderly.attempt_done htask hrun with
    ⟨hsame, hdeclared, -⟩ | ⟨site, resource, hdeclares, -⟩
  · have hgrown : ∀ key, round.inventory.has key = true → after.inventory.has key = true := by
      rw [hsame]
      exact fun _ hkey => hkey
    refine ⟨horderly, hsame ▸ h.founded, hsame ▸ h.layered, hneat,
      h.scopes_set hsettled hgrown hscopes, fun key hkey => ?_, hapart⟩
    rw [hsame] at hkey
    obtain ⟨site, hsite, hplaces⟩ := h.declared key hkey
    exact ⟨site, hdeclared ▸ hsite, fun other hother => hplaces other (hrest.subset hother)⟩
  · have hfresh := h.fresh htask hdeclares
    have hroom := h.orderly.room task htask
    have hgrown : ∀ key, round.inventory.has key = true → after.inventory.has key = true :=
      fun key hkey => (hdeclares.has_after h.orderly htask key).2 (Or.inr hkey)
    have hrests : resource.RestsOn round.inventory := by
      have hregistered : q.inventory.resource? resource.key = some resource := by
        rw [← hinventory, hdeclares.resource?_after h.orderly htask, if_pos rfl]
      refine ((hsettled.resources _ _ hregistered).resolve_left fun hbefore => ?_).2.1
      have hhas : round.inventory.has resource.key = true :=
        (Inventory.has_iff _ _).2 ⟨resource, hbefore⟩
      rw [hfresh] at hhas
      cases hhas
    refine ⟨horderly, ?_, ?_, hneat, h.scopes_set hsettled hgrown hscopes, fun key hkey => ?_, hapart⟩
    · rw [hdeclares.inventory]
      exact h.founded.insertAt hroom hrests
    · rw [hdeclares.inventory]
      exact h.founded.layered_insertAt h.layered hroom hrests hfresh
    · rw [hdeclares.declared, Table.get?_set]
      by_cases hsame : resource.key = key
      · -- the place of the block is not one of those that are left
        refine ⟨site, if_pos hsame, fun other hother hplace => ?_⟩
        have hapart := (List.pairwise_middle fun hd => List.disjoint_symm hd).1 h.apart
        exact List.rel_of_pairwise_cons hapart hother hdeclares.place hplace
      · have hbefore := ((hdeclares.has_after h.orderly htask key).1 hkey).resolve_left (Ne.symm hsame)
        obtain ⟨first, hfirst, hplaces⟩ := h.declared key hbefore
        exact ⟨first, (if_neg hsame).trans hfirst,
          fun other hother => hplaces other (hrest.subset hother)⟩

/-- Which pass it is makes no difference. -/
theorem Laid.congr (h : round.Laid virtuals tasks) (rest : List Task) (settling : Bool) :
    Laid virtuals { round with tasks := rest, settling := settling } tasks :=
  ⟨⟨h.orderly.virtuals_eq, h.orderly.atOnce, h.orderly.room, h.orderly.distinct,
    h.orderly.origins⟩, h.founded, h.layered, h.neat, h.scopes, h.declared, h.apart⟩

end Round

/-- Nothing is bound at the start. -/
theorem start_scopes {inventory : Inventory} {files : List SourceFile} {start : Round}
    {indices : List Nat} (h : Round.start inventory files = .ok (start, indices)) :
    ∀ scope ∈ start.scopes, scope = {} := by
  unfold Round.start at h
  obtain ⟨taken, -, h⟩ := bind_eq_ok.1 h
  cases h
  intro scope hscope
  obtain ⟨-, -, rfl⟩ := List.mem_map.1 hscope
  rfl

theorem start_laid {registry : Registry} {files : List SourceFile} {start : Round}
    {indices : List Nat} (h : Round.start (.empty registry) files = .ok (start, indices))
    (hatonce : ∀ task ∈ start.tasks, AtOnce start.inventory.virtuals task.node)
    (hapart : start.tasks.Pairwise fun first second =>
      (blockPlaces first.node).Disjoint (blockPlaces second.node)) :
    start.Laid start.inventory.virtuals start.tasks := by
  obtain ⟨hnone, -⟩ := start_spec h
  have hempty : ∀ key, start.inventory.has key ≠ true := by
    intro key
    simp [Inventory.has, hnone key]
  refine ⟨start_orderly h hatonce, ⟨?_, ?_⟩, ⟨fun _ => 0, ?_⟩, ?_, ?_, ?_, hapart⟩
  · exact (Round.start_sound (Inventory.sound_empty registry) h).oneHome
  · intro key resource hresource
    rw [hnone key] at hresource
    cases hresource
  · intro key other hedge
    obtain ⟨resource, hresource, -⟩ := Inventory.dependsOn_iff.1 hedge
    rw [hnone key] at hresource
    cases hresource
  · intro scope hscope
    rw [start_scopes h scope hscope]
    exact Scope.neat_withValues List.nodup_nil
  · intro scope hscope key hkey
    rw [start_scopes h scope hscope] at hkey
    cases hkey
  · exact fun key hkey => (hempty key hkey).elim

/-- The rounds of an evaluation whose statements are done at once stay in layers. -/
theorem Round.Laid.run {setup : EvaluationSetup} {virtuals : Table TypeName VirtualType}
    {round last : Round} (h : round.Laid virtuals round.tasks)
    (hplain : ∀ undeclared, Setting.Plain ⟨setup.mode, setup.current, undeclared⟩) {bound : Nat}
    (hrun : round.run setup bound = .ok last) :
    last.Laid virtuals [] := by
  refine run_keeps (fun _ round tasks => round.Laid virtuals tasks) ?_ ?_ ?_ [] h hrun
  · exact fun _ _ _ _ _ _ hlaid hattempt => hlaid.of_done hplain hattempt
  · intro _ _ _ _ _ _ _ hlaid hattempt
    obtain rfl := hlaid.orderly.eq_of_deferred (by simp) hattempt
    exact hlaid
  · exact fun _ _ _ tasks settling hlaid => hlaid.congr tasks settling

/-- The dependencies in the result are those in the last round. -/
theorem dependsOn_result (round : Round) (indices : List Nat) :
    (round.result indices).DependsOn = round.inventory.DependsOn := by
  funext key other
  unfold Inventory.DependsOn Inventory.needsOf
  rw [resource?_result]

/-- When statements are done at once, no resource of the result depends on itself through others,
and the plan that creates them all has an order. -/
theorem evaluateConfiguration_acyclic {registry : Registry} {current : Option Inventory}
    {files : List SourceFile} {start : Round} {indices : List Nat} {result : Inventory}
    (hstart : Round.start (.empty registry) files = .ok (start, indices))
    (hatonce : ∀ task ∈ start.tasks, AtOnce start.inventory.virtuals task.node)
    (hapart : start.tasks.Pairwise fun first second =>
      (blockPlaces first.node).Disjoint (blockPlaces second.node))
    (hplain : ∀ recorded, current = some recorded → recorded.PlainOutputs)
    (h : evaluateConfiguration registry current files = .ok result) :
    (∀ key, ¬ Relation.TransGen result.DependsOn key key) ∧
      ∀ other failures, ∃ plan, diff result (.empty other) failures = .ok plan := by
  have hsound := evaluateConfiguration_sound h
  obtain ⟨start', indices', last, hstart', hrun, rfl⟩ := evaluateFiles_eq_ok h
  rw [hstart] at hstart'
  cases hstart'
  have hlaid := (start_laid hstart hatonce hapart).run (fun _ => ⟨rfl, hplain⟩) hrun
  have hlayered : (last.result indices).Layered := by
    unfold Inventory.Layered
    rw [dependsOn_result]
    exact hlaid.layered
  refine ⟨hlayered.acyclic, fun other failures => ?_⟩
  refine exists_diff_of_layered hsound.oneHome (Inventory.sound_empty other).oneHome hlayered ?_
    failures
  exact ⟨fun _ => 0, fun key other hedge => by cases hedge⟩

/-- A record of one box, with the sum that its provider computed. -/
def recordedBox (sum : String) : Inventory :=
  ⟨boxRegistry, [⟨⟨"main"⟩, [], [], [], [(boxKey "a",
    { key := boxKey "a", type := boxType, fields := [("path", .text "a"), ("sum", .text sum)],
      configured := ["path"], origin := lineStart 1 })]⟩], [], []⟩

theorem recordedBox_plain (sum : String) : (recordedBox sum).PlainOutputs := by
  intro key resource hresource entry hentry _
  obtain ⟨file, hfile, hfound⟩ := List.exists_of_findSome?_eq_some hresource
  cases List.mem_singleton.1 hfile
  cases List.mem_singleton.1 (Table.mem_of_get? hfound)
  simp only [List.mem_cons, List.not_mem_nil, or_false] at hentry
  rcases hentry with rfl | rfl <;> rfl

/-- A box that holds the sum of another one. -/
def summingBoxes : SourceFile :=
  ⟨"main", [
    boxBlock 1 (.text "b") [pairAt 2 "path" (.text "b"), pairAt 3 "v" (boxField 3 "a" "sum")],
    boxBlock 5 (.text "a") [pairAt 6 "path" (.text "a")]]⟩

theorem evaluateConfiguration_acyclic_boxes :
    ∃ start indices result, Round.start (.empty boxRegistry) [summingBoxes] = .ok (start, indices) ∧
      evaluateConfiguration boxRegistry (some (recordedBox "one")) [summingBoxes] = .ok result ∧
      result.DependsOn (boxKey "b") (boxKey "a") ∧
      (∀ key, ¬ Relation.TransGen result.DependsOn key key) ∧
      ∀ other failures, ∃ plan, diff result (.empty other) failures = .ok plan := by
  have hrun : (Round.start (.empty boxRegistry) [summingBoxes]).toOption.bind (fun started =>
      (evaluateConfiguration boxRegistry (some (recordedBox "one")) [summingBoxes]).toOption.map
        fun result => (result.needsOf (boxKey "b")).contains (boxKey "a")) = some true := by
    decide +kernel
  have htasks : (Round.start (.empty boxRegistry) [summingBoxes]).toOption.map
      (fun started => (started.1.tasks, started.1.inventory.virtuals)) =
        some (summingBoxes.body.map fun node => ⟨0, 0, node⟩, []) := rfl
  obtain ⟨⟨start, indices⟩, hstart, hrun⟩ := Option.bind_eq_some_iff.1 hrun
  obtain ⟨result, hresult, hedge⟩ := Option.map_eq_some_iff.1 hrun
  rw [toOption_eq_some] at hstart hresult
  rw [hstart] at htasks
  obtain ⟨htasks, hvirtuals⟩ := Prod.mk.inj (Option.some.inj htasks)
  have hatonce : ∀ task ∈ start.tasks, AtOnce start.inventory.virtuals task.node := by
    intro task htask
    rw [htasks] at htask
    rw [hvirtuals]
    simp only [summingBoxes, List.map_cons, List.map_nil, List.mem_cons, List.not_mem_nil,
      or_false] at htask
    rcases htask with rfl | rfl
    · exact .block (fun _ _ => rfl) rfl
    · exact .block (fun _ _ => rfl) rfl
  have hapart : start.tasks.Pairwise fun first second =>
      (blockPlaces first.node).Disjoint (blockPlaces second.node) := by
    rw [htasks]
    simp [summingBoxes, boxBlock, blockPlaces, lineStart]
  have hplain : ∀ recorded, some (recordedBox "one") = some recorded → recorded.PlainOutputs := by
    rintro recorded heq
    cases heq
    exact recordedBox_plain "one"
  refine ⟨start, indices, result, hstart, hresult, List.contains_iff_mem.1 hedge, ?_⟩
  exact evaluateConfiguration_acyclic hstart hatonce hapart hplain hresult

/-- Boxes whose values are those of all boxes so far, in a loop that has to wait in its last
round. -/
def listingBoxes : SourceFile :=
  ⟨"main", [
    loopAt 1 ["a", "b", "c"] [
      boxBlock 2 (variableAt 2 "n") [pairAt 3 "path" (variableAt 3 "n"),
        pairAt 4 "v" (.ref boxType.name.text none ["path"] (lineStart 4)),
        whenNamed 5 "c" [pairAt 6 "w" (variableAt 6 "late")]]],
    pairAt 9 "late" (.text "x")]⟩

/-- When the loop is tried again, the first two boxes see each other, so that they depend on each
other, and the plan that creates them has no order. -/
theorem cycle_of_listing_boxes :
    ∃ result, evaluateConfiguration boxRegistry none [listingBoxes] = .ok result ∧
      result.DependsOn (boxKey "a") (boxKey "b") ∧ result.DependsOn (boxKey "b") (boxKey "a") ∧
      ∃ stuck, diff result (.empty boxRegistry) [] = .error (.cycle stuck) := by
  have hrun : (evaluateConfiguration boxRegistry none [listingBoxes]).toOption.map (fun result =>
      (result.needsOf (boxKey "a"), result.needsOf (boxKey "b"),
        match diff result (.empty boxRegistry) [] with
        | .error (.cycle _) => true
        | _ => false)) = some ([boxKey "b"], [boxKey "a"], true) := by
    decide +kernel
  obtain ⟨result, hresult, hrun⟩ := Option.map_eq_some_iff.1 hrun
  rw [toOption_eq_some] at hresult
  obtain ⟨hfirst, hrun⟩ := Prod.mk.inj hrun
  obtain ⟨hsecond, hcycle⟩ := Prod.mk.inj hrun
  refine ⟨result, hresult, ?_, ?_, ?_⟩
  · unfold Inventory.DependsOn
    rw [hfirst]
    exact List.mem_cons_self
  · unfold Inventory.DependsOn
    rw [hsecond]
    exact List.mem_cons_self
  · split at hcycle
    · next stuck hdiff => exact ⟨stuck, hdiff⟩
    · cases hcycle

end Provision

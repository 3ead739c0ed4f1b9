import Provision.Proofs.Evaluation.GivingUp

/-!
# The history of an evaluation

An evaluation is a sequence of attempts at statements.  What every attempt keeps,
told by the attempts before it and the statements still to be done, holds at the
end.  When statements are done at once, resources come from attempts that
succeeded alone.  A loop that is deferred half-way leaves the resources of its
first iterations, and they stay even if no later attempt registers them.
-/

namespace Provision

open Provision.Language (Node SourceFile)

namespace Round

/-! ## Attempts -/

/-- The attempts of a sweep, each with the round that it starts from. -/
def tries (setup : EvaluationSetup) : Round → List Task → List (Round × Task)
  | _, [] => []
  | round, task :: rest =>
    (round, task) ::
      match round.attempt setup task with
      | .ok (after, _) => after.tries setup rest
      | .error _ => []

/-- The attempts of an evaluation, pass after pass. -/
def history (setup : EvaluationSetup) : (bound : Nat) → Round → List (Round × Task)
  | 0, _ => []
  | bound + 1, round =>
    round.tries setup round.tasks ++
      match round.pass setup with
      | .again after => after.history setup bound
      | _ => []

/-- Whether an attempt gets its statement done. -/
def succeeds (setup : EvaluationSetup) (attempt : Round × Task) : Bool :=
  match attempt.1.attempt setup attempt.2 with
  | .ok (_, none) => true
  | _ => false

/-- The keys that an attempt registers: what is declared by it when nothing was before. -/
def registers (setup : EvaluationSetup) (attempt : Round × Task) : List Key :=
  match { attempt.1 with declared := [] }.attempt setup attempt.2 with
  | .ok (after, _) => Table.keys after.declared
  | .error _ => []

variable {setup : EvaluationSetup} {round after last : Round} {tasks : List Task} {task : Task}
variable {deferred : List Deferred} {past : List (Round × Task)}

theorem succeeds_of_done (h : round.attempt setup task = .ok (after, none)) :
    succeeds setup (round, task) = true := by
  unfold succeeds
  rw [h]

theorem succeeds_of_deferred {d : Deferred} (h : round.attempt setup task = .ok (after, some d)) :
    succeeds setup (round, task) = false := by
  unfold succeeds
  rw [h]

section Keeping

variable (inv : List (Round × Task) → Round → List Task → Prop)
  (hdone : ∀ past round front task back after, inv past round (front ++ task :: back) →
    round.attempt setup task = .ok (after, none) → inv (past ++ [(round, task)]) after (front ++ back))
  (hdeferred : ∀ past round front task back after d, inv past round (front ++ task :: back) →
    round.attempt setup task = .ok (after, some d) →
      inv (past ++ [(round, task)]) after (front ++ task :: back))

include hdone hdeferred

theorem sweep_keeps (front : List Task) (h : inv past round (front ++ tasks))
    (hsweep : round.sweep setup tasks = .ok (after, deferred)) :
    inv (past ++ round.tries setup tasks) after (front ++ deferred.map Deferred.task) := by
  induction tasks generalizing past round front deferred with
  | nil =>
    cases hsweep
    rwa [tries, List.append_nil]
  | cons task rest ih =>
    rw [sweep_cons] at hsweep
    obtain ⟨⟨between, first⟩, hfirst, hsweep⟩ := bind_eq_ok.1 hsweep
    obtain ⟨⟨swept, others⟩, hrest, hsweep⟩ := bind_eq_ok.1 hsweep
    cases hsweep
    rw [tries, hfirst, List.append_cons]
    cases first with
    | none => exact ih front (hdone _ _ _ _ _ _ h hfirst) hrest
    | some d =>
      have hnext : inv (past ++ [(round, task)]) between (front ++ [task] ++ rest) := by
        rw [List.append_assoc, List.singleton_append]
        exact hdeferred _ _ _ _ _ _ _ h hfirst
      have hshape : front ++ [task] ++ others.map Deferred.task =
          front ++ (d :: others).map Deferred.task := by
        rw [List.append_assoc, List.singleton_append, List.map_cons, task_of_deferred hfirst]
      exact hshape ▸ ih (front ++ [task]) hnext hrest

variable (hpass : ∀ past round rest tasks settling, inv past round rest →
  inv past { round with tasks := tasks, settling := settling } rest)

include hpass

/-- What every attempt keeps holds after a whole run, in which all statements got done. -/
theorem run_keeps {bound : Nat} (past : List (Round × Task)) (h : inv past round round.tasks)
    (hrun : round.run setup bound = .ok last) :
    inv (past ++ round.history setup bound) last [] := by
  induction bound generalizing past round with
  | zero => cases hrun
  | succ bound ih =>
    have hresult := passes_pass setup round
    rw [run] at hrun
    rw [history]
    cases hround : round.pass setup with
    | failed e =>
      rw [hround] at hrun
      cases hrun
    | stuck _ _ =>
      rw [hround] at hrun
      cases hrun
    | finished done =>
      rw [hround] at hrun hresult
      cases hrun
      cases hresult with
      | @finished swept hsweep =>
        have hlast := sweep_keeps inv hdone hdeferred [] h hsweep
        rw [List.append_nil]
        exact hpass _ _ _ [] swept.settling hlast
    | again next =>
      rw [hround] at hrun hresult
      rw [← List.append_assoc]
      cases hresult with
      | again hsweep hne hless =>
        have hlast := sweep_keeps inv hdone hdeferred [] h hsweep
        exact ih _ (hpass _ _ _ _ _ hlast) hrun
      | settles hsweep hne hall hsettling =>
        have hlast := sweep_keeps inv hdone hdeferred [] h hsweep
        exact ih _ (hpass _ _ _ _ _ hlast) hrun

end Keeping

/-! ## Rounds whose statements are done at once -/

/-- The statements that are left are done at once, in files that are there, and the resources stand
where they were declared. -/
structure Orderly (virtuals : Table TypeName VirtualType) (round : Round) (tasks : List Task) :
    Prop where
  virtuals_eq : round.inventory.virtuals = virtuals
  atOnce : ∀ task ∈ tasks, AtOnce virtuals task.node
  room : ∀ task ∈ tasks, task.file < round.inventory.files.length
  distinct : round.inventory.Distinct
  origins : ∀ key site resource, Table.get? round.declared key = some site →
    round.inventory.resource? key = some resource → resource.origin = site.origin

/-- An attempt registers a resource that no other declaration stands in the way of. -/
structure Declares (round : Round) (task : Task) (site : Site) (resource : Resource)
    (after : Round) : Prop where
  clash : (round.progress task).clash site resource.key = none
  origin : resource.origin = site.origin
  place : site.location ∈ blockPlaces task.node
  inventory : after.inventory = round.inventory.insertAt task.file resource
  declared : after.declared = Table.set round.declared resource.key site

section Orderly

variable {virtuals : Table TypeName VirtualType}

/-- A declaration that is allowed after others is allowed without them. -/
theorem Orderly.clash_fresh (h : round.Orderly virtuals tasks) {site : Site} {key : Key}
    (hclash : (round.progress task).clash site key = none) :
    ({ round.progress task with declared := [] } : Progress).clash site key = none := by
  unfold Progress.clash progress at *
  dsimp only at *
  rw [Table.get?_nil]
  cases hresource : round.inventory.resource? key with
  | none => rfl
  | some existing =>
    have horigin : existing.origin = site.origin := by
      cases hdeclared : Table.get? round.declared key with
      | none => simpa [hdeclared, hresource] using hclash
      | some first =>
        obtain rfl : first = site := by simpa [hdeclared] using hclash
        exact h.origins key first existing hdeclared hresource
    exact if_pos horigin

theorem registers_eq {q : Progress}
    (h : (runStatement (setup.evaluator (round.undeclared task)) task.node
      { file := task.file }).run { round.progress task with declared := [] } = (.ok (), q)) :
    registers setup (round, task) = Table.keys q.declared := by
  have hrun : (runStatement (setup.evaluator (undeclared { round with declared := [] } task))
      task.node { file := task.file }).run (progress { round with declared := [] } task) =
        (.ok (), q) := h
  unfold registers
  dsimp only
  rw [attempt_eq, hrun]
  rfl

/-- An attempt that succeeds leaves the inventory alone or registers one resource. -/
theorem Orderly.attempt_done (h : round.Orderly virtuals tasks) (htask : task ∈ tasks)
    (hrun : round.attempt setup task = .ok (after, none)) :
    (after.inventory = round.inventory ∧ after.declared = round.declared ∧
        registers setup (round, task) = []) ∨
      ∃ site resource, round.Declares task site resource after ∧
        registers setup (round, task) = [resource.key] := by
  obtain ⟨upshot, hwithin, hresult⟩ :=
    (h.atOnce task htask).statement ⟨setup.mode, setup.current, round.undeclared task⟩ setup.depth
      { file := task.file } (round.progress task) rfl h.virtuals_eq
  have hhere : upshot.Result (round.progress task)
      ((runStatement (setup.evaluator (round.undeclared task)) task.node
        { file := task.file }).run (round.progress task)) := hresult round.declared
  rw [attempt_eq] at hrun
  split at hrun
  · next q hq =>
    cases hrun
    rw [hq] at hhere
    cases hhere with
    | passes hinventory hdeclared =>
      refine Or.inl ⟨hinventory, hdeclared, ?_⟩
      have hfresh := hresult []
      generalize hq' : (runStatement _ task.node { file := task.file }).run
        { round.progress task with declared := [] } = result at hfresh
      cases hfresh with
      | passes _ hset =>
        rw [registers_eq hq', hset]
        rfl
    | @registers file site resource _ hclash hinventory hdeclared hscope =>
      obtain ⟨⟨rfl, hplace⟩, horigin⟩ := hwithin
      refine Or.inr ⟨site, resource, ⟨hclash, horigin, hplace, hinventory, hdeclared⟩, ?_⟩
      have hfresh := hresult []
      generalize hq' : (runStatement _ task.node { file := task.file }).run
        { round.progress task with declared := [] } = result at hfresh
      cases hfresh with
      | registers _ _ hset _ =>
        rw [registers_eq hq', hset]
        rfl
      | clashes hnone => exact (hnone (h.clash_fresh hclash)).elim
  · cases hrun
  · cases hrun

theorem Declares.resource?_after (h : round.Orderly virtuals tasks) (htask : task ∈ tasks)
    {site : Site} {resource : Resource} (hdeclares : round.Declares task site resource after)
    (key : Key) :
    after.inventory.resource? key =
      if resource.key = key then some resource else round.inventory.resource? key := by
  rw [hdeclares.inventory]
  exact Inventory.resource?_insertAt h.distinct (h.room task htask) resource key

theorem Orderly.of_done (h : round.Orderly virtuals tasks) (htask : task ∈ tasks)
    (hrun : round.attempt setup task = .ok (after, none)) :
    after.Orderly virtuals tasks := by
  rcases h.attempt_done htask hrun with ⟨hinventory, hdeclared, -⟩ | ⟨site, resource, hdeclares, -⟩
  · refine ⟨?_, h.atOnce, ?_, ?_, ?_⟩
    · rw [hinventory, h.virtuals_eq]
    · rw [hinventory]
      exact h.room
    · rw [hinventory]
      exact h.distinct
    · rw [hinventory, hdeclared]
      exact h.origins
  · refine ⟨?_, h.atOnce, ?_, ?_, ?_⟩
    · rw [hdeclares.inventory]
      exact h.virtuals_eq
    · rw [hdeclares.inventory, Inventory.length_insertAt]
      exact h.room
    · rw [hdeclares.inventory]
      exact Inventory.distinct_insertAt h.distinct _ _
    · intro key other found hother hfound
      rw [hdeclares.declared, Table.get?_set] at hother
      rw [hdeclares.resource?_after h htask] at hfound
      by_cases hkey : resource.key = key
      · rw [if_pos hkey] at hother hfound
        cases hother
        cases hfound
        exact hdeclares.origin
      · rw [if_neg hkey] at hother hfound
        exact h.origins key other found hother hfound

theorem Orderly.subset (h : round.Orderly virtuals tasks) {others : List Task}
    (hsubset : ∀ task ∈ others, task ∈ tasks) :
    round.Orderly virtuals others :=
  ⟨h.virtuals_eq, fun task htask => h.atOnce task (hsubset task htask),
    fun task htask => h.room task (hsubset task htask), h.distinct, h.origins⟩

theorem Orderly.eq_of_deferred (h : round.Orderly virtuals tasks) (htask : task ∈ tasks)
    {d : Deferred} (hrun : round.attempt setup task = .ok (after, some d)) :
    after = round :=
  attempt_deferred (h.virtuals_eq ▸ h.atOnce task htask) hrun

theorem Declares.has_after (h : round.Orderly virtuals tasks) (htask : task ∈ tasks)
    {site : Site} {resource : Resource} (hdeclares : round.Declares task site resource after)
    (key : Key) :
    after.inventory.has key = true ↔ key = resource.key ∨ round.inventory.has key = true := by
  rw [hdeclares.inventory]
  exact Inventory.has_insertAt h.distinct (h.room task htask) resource key

end Orderly

end Round

/-! ## The start of an evaluation -/

section Start

variable {registry : Registry} {inventory other : Inventory} {files : List SourceFile}
variable {start : Round} {indices : List Nat}

theorem Inventory.resource?_of_shelved (h : inventory.shelved = other.shelved) (key : Key) :
    inventory.resource? key = other.resource? key := by
  have hlook : ∀ inventory : Inventory, inventory.resource? key =
      inventory.shelved.findSome? fun shelf => Table.get? shelf.2 key := by
    intro inventory
    unfold resource? shelved
    rw [List.findSome?_map]
    rfl
  rw [hlook, hlook, h]

theorem Inventory.resource?_ensureFile (inventory : Inventory) (path : Path) (key : Key) :
    (inventory.ensureFile path).1.resource? key = inventory.resource? key := by
  unfold resource?
  rcases files_ensureFile inventory path with hfiles | hfiles
  · rw [hfiles]
  · rw [hfiles, List.findSome?_append]
    cases inventory.files.findSome? fun file => file.resource? key <;> rfl

theorem length_ensureFile (inventory : Inventory) (path : Path) :
    inventory.files.length ≤ (inventory.ensureFile path).1.files.length := by
  rcases inventory.files_ensureFile path with hfiles | hfiles
  · rw [hfiles]
  · rw [hfiles, List.length_append]
    omega

/-- Making room for files adds no resource, and every file has its position. -/
theorem ensureFiles_room (inventory : Inventory) (files : List SourceFile) :
    (∀ key, (ensureFiles inventory files).1.resource? key = inventory.resource? key) ∧
      inventory.files.length ≤ (ensureFiles inventory files).1.files.length ∧
      ∀ index ∈ (ensureFiles inventory files).2,
        index < (ensureFiles inventory files).1.files.length := by
  induction files generalizing inventory with
  | nil => exact ⟨fun _ => rfl, Nat.le_refl _, fun index h => nomatch h⟩
  | cons file rest ih =>
    obtain ⟨hresource, hlength, hindices⟩ := ih (inventory.ensureFile ⟨file.path⟩).1
    obtain ⟨hindex, -⟩ := inventory.ensureFile_index ⟨file.path⟩
    refine ⟨fun key => (hresource key).trans (inventory.resource?_ensureFile _ key),
      (length_ensureFile inventory _).trans hlength, fun index hmem => ?_⟩
    rcases List.mem_cons.1 hmem with rfl | hmem
    · exact Nat.lt_of_lt_of_le hindex hlength
    · exact hindices index hmem

theorem file_of_tasksOf {sources : List (SourceFile × Nat)} {task : Task}
    (h : task ∈ tasksOf sources) :
    ∃ source ∈ sources, task.file = source.2 ∧ task.node ∈ source.1.body := by
  unfold tasksOf at h
  obtain ⟨⟨source, position⟩, hsource, htask⟩ := List.mem_flatMap.1 h
  obtain ⟨node, hnode, rfl⟩ := List.mem_map.1 htask
  exact ⟨source, List.fst_mem_of_mem_zipIdx hsource, rfl, (List.mem_filter.1 hnode).1⟩

/-- The round that the first pass starts from. -/
theorem start_spec (h : Round.start (.empty registry) files = .ok (start, indices)) :
    (∀ key, start.inventory.resource? key = none) ∧
      (∀ task ∈ start.tasks, task.file < start.inventory.files.length) ∧
      start.inventory.Distinct ∧ start.declared = [] := by
  have hsound := Round.start_sound (Inventory.sound_empty registry) h
  unfold Round.start at h
  obtain ⟨taken, htaken, h⟩ := bind_eq_ok.1 h
  obtain ⟨hresource, -, hindices⟩ := ensureFiles_room (.empty registry) files
  obtain ⟨hshelved, -⟩ := shelved_takeAllDefinitions htaken
  have hlength := congrArg List.length hshelved
  unfold Inventory.shelved at hlength
  rw [List.length_map, List.length_map] at hlength
  cases h
  refine ⟨fun key => ?_, fun task htask => ?_, hsound.oneHome.distinct, rfl⟩
  · show taken.resource? key = none
    rw [Inventory.resource?_of_shelved hshelved, hresource]
    rfl
  · obtain ⟨source, hsource, hfile, -⟩ := file_of_tasksOf htask
    show task.file < taken.files.length
    rw [hlength, hfile]
    exact hindices _ (List.of_mem_zip hsource).2

theorem start_orderly (h : Round.start (.empty registry) files = .ok (start, indices))
    (hatonce : ∀ task ∈ start.tasks, AtOnce start.inventory.virtuals task.node) :
    start.Orderly start.inventory.virtuals start.tasks := by
  obtain ⟨-, hroom, hdistinct, hdeclared⟩ := start_spec h
  refine ⟨rfl, hatonce, hroom, hdistinct, fun key site resource hsite => ?_⟩
  rw [hdeclared] at hsite
  cases hsite

theorem resource?_result (round : Round) (indices : List Nat) (key : Key) :
    (round.result indices).resource? key = round.inventory.resource? key := by
  unfold Round.result
  generalize round.scopes.zip indices = entries
  generalize round.inventory = inventory
  induction entries generalizing inventory with
  | nil => rfl
  | cons entry rest ih =>
    rw [List.foldl_cons, ih]
    apply Inventory.resource?_modifyFile
    intro file
    rfl

theorem evaluateFiles_eq_ok {setup : EvaluationSetup} {result : Inventory}
    (h : evaluateFiles setup inventory files = .ok result) :
    ∃ start indices last, Round.start inventory files = .ok (start, indices) ∧
      start.run setup (passBound start.tasks) = .ok last ∧ result = last.result indices := by
  unfold evaluateFiles at h
  obtain ⟨⟨start, indices⟩, hstart, h⟩ := bind_eq_ok.1 h
  obtain ⟨last, hlast, h⟩ := bind_eq_ok.1 h
  cases h
  exact ⟨start, indices, last, hstart, hlast, rfl⟩

end Start

/-! ## Where resources come from -/

/-- When statements are done at once, the result holds what the attempts that succeeded have
registered, and nothing else. -/
theorem evaluateFiles_held {setup : EvaluationSetup} {registry : Registry} {files : List SourceFile}
    {start : Round} {indices : List Nat} {result : Inventory}
    (hstart : Round.start (.empty registry) files = .ok (start, indices))
    (hatonce : ∀ task ∈ start.tasks, AtOnce start.inventory.virtuals task.node)
    (h : evaluateFiles setup (.empty registry) files = .ok result) (key : Key) :
    result.has key = true ↔
      ∃ attempt ∈ start.history setup (passBound start.tasks),
        Round.succeeds setup attempt = true ∧ key ∈ Round.registers setup attempt := by
  obtain ⟨start', indices', last, hstart', hrun, rfl⟩ := evaluateFiles_eq_ok h
  obtain ⟨rfl, rfl⟩ : start = start' ∧ indices = indices' := by
    rw [hstart] at hstart'
    cases hstart'
    exact ⟨rfl, rfl⟩
  have hkeeps := Round.run_keeps (fun past round tasks =>
    round.Orderly start.inventory.virtuals tasks ∧ ∀ key, round.inventory.has key = true ↔
      ∃ attempt ∈ past, Round.succeeds setup attempt = true ∧
        key ∈ Round.registers setup attempt) ?_ ?_ ?_ [] ?_ hrun
  · obtain ⟨-, hheld⟩ := hkeeps
    have hhas : (last.result indices).has key = last.inventory.has key := by
      unfold Inventory.has
      rw [resource?_result]
    rw [hhas, hheld key, List.nil_append]
  · -- an attempt that succeeds
    rintro past round front task back after ⟨horderly, hheld⟩ hattempt
    have htask : task ∈ front ++ task :: back := by simp
    have hrest : ∀ other ∈ front ++ back, other ∈ front ++ task :: back := by
      intro other hother
      simp only [List.mem_append, List.mem_cons] at hother ⊢
      tauto
    refine ⟨(horderly.of_done htask hattempt).subset hrest, fun key => ?_⟩
    simp only [List.mem_append, List.mem_singleton, or_and_right, exists_or, exists_eq_left,
      Round.succeeds_of_done hattempt, true_and]
    rcases horderly.attempt_done htask hattempt with
      ⟨hinventory, -, hregisters⟩ | ⟨site, resource, hdeclares, hregisters⟩
    · rw [hinventory, hregisters, hheld]
      simp
    · rw [hdeclares.has_after horderly htask, hregisters, List.mem_singleton, hheld, or_comm]
  · -- a deferred attempt
    rintro past round front task back after d ⟨horderly, hheld⟩ hattempt
    obtain rfl := horderly.eq_of_deferred (by simp) hattempt
    refine ⟨horderly, fun key => ?_⟩
    simp only [List.mem_append, List.mem_singleton, or_and_right, exists_or, exists_eq_left,
      Round.succeeds_of_deferred hattempt, Bool.false_eq_true, false_and, or_false]
    exact hheld key
  · -- the end of a pass
    rintro past round rest tasks settling ⟨horderly, hheld⟩
    exact ⟨⟨horderly.virtuals_eq, horderly.atOnce, horderly.room, horderly.distinct,
      horderly.origins⟩, hheld⟩
  · refine ⟨start_orderly hstart hatonce, fun key => ?_⟩
    obtain ⟨hnone, -⟩ := start_spec hstart
    simp [Inventory.has, hnone key]

/-- The key of the box with a name. -/
def boxKey (name : String) : Key :=
  ⟨boxType.name, name⟩

/-- A box that refers to a later one, and a choice that has to wait for its condition. -/
def chosenBoxes : SourceFile :=
  ⟨"main", [
    boxBlock 1 (.text "b") [pairAt 2 "path" (.text "b"), pairAt 3 "v" (boxField 3 "a" "path")],
    .directive ⟨"if", [variableAt 5 "wanted"], [], false,
      [boxBlock 6 (.text "a") [pairAt 7 "path" (.text "a")]], [], lineStart 5⟩,
    pairAt 10 "wanted" (.bool true)]⟩

theorem chosenBoxes_atOnce {node : Node} (h : node ∈ chosenBoxes.body) : AtOnce [] node := by
  simp only [chosenBoxes, List.mem_cons, List.not_mem_nil, or_false] at h
  rcases h with rfl | rfl | rfl
  · exact .block (fun _ _ => rfl) rfl
  · refine .choice rfl (Nat.le_refl 1) (fun branch hbranch => nomatch hbranch) fun node hnode => ?_
    obtain rfl := List.mem_singleton.1 hnode
    exact .block (fun _ _ => rfl) rfl
  · exact .pair _

/-- Six attempts evaluate the boxes, and what is there comes from the three that succeeded. -/
theorem evaluateFiles_held_boxes :
    ∃ start indices result, Round.start (.empty boxRegistry) [chosenBoxes] = .ok (start, indices) ∧
      evaluateFiles boxSetup (.empty boxRegistry) [chosenBoxes] = .ok result ∧
      (start.history boxSetup (passBound start.tasks)).map (Round.succeeds boxSetup) =
        [false, false, true, false, true, true] ∧
      ∀ key, result.has key = true ↔
        ∃ attempt ∈ start.history boxSetup (passBound start.tasks),
          Round.succeeds boxSetup attempt = true ∧ key ∈ Round.registers boxSetup attempt := by
  have hrun : (Round.start (.empty boxRegistry) [chosenBoxes]).toOption.bind (fun started =>
      (evaluateFiles boxSetup (.empty boxRegistry) [chosenBoxes]).toOption.map fun _ =>
        (started.1.history boxSetup (passBound started.1.tasks)).map (Round.succeeds boxSetup)) =
      some [false, false, true, false, true, true] := by decide +kernel
  have htasks : (Round.start (.empty boxRegistry) [chosenBoxes]).toOption.map
      (fun started => (started.1.tasks, started.1.inventory.virtuals)) =
        some (chosenBoxes.body.map fun node => ⟨0, 0, node⟩, []) := rfl
  obtain ⟨⟨start, indices⟩, hstart, hrun⟩ := Option.bind_eq_some_iff.1 hrun
  obtain ⟨result, hresult, hhistory⟩ := Option.map_eq_some_iff.1 hrun
  rw [toOption_eq_some] at hstart hresult
  rw [hstart] at htasks
  obtain ⟨htasks, hvirtuals⟩ := Prod.mk.inj (Option.some.inj htasks)
  refine ⟨start, indices, result, hstart, hresult, hhistory,
    evaluateFiles_held hstart (fun task htask => ?_) hresult⟩
  rw [htasks] at htask
  obtain ⟨node, hnode, rfl⟩ := List.mem_map.1 htask
  exact hvirtuals ▸ chosenBoxes_atOnce hnode

/-- A loop over names that are bound twice; its second box has to wait until they are bound
anew. -/
def renamedBoxes : SourceFile :=
  ⟨"main", [
    pairAt 1 "names" (.list [.text "a"]),
    .directive ⟨"for", [.text "n"], [⟨"in", [variableAt 2 "names"]⟩], false,
      [boxBlock 3 (variableAt 3 "n") [pairAt 4 "path" (variableAt 4 "n")],
        boxBlock 6 (.text "last") [pairAt 7 "path" (variableAt 7 "late")]], [], lineStart 2⟩,
    pairAt 10 "names" (.list [.text "b"]),
    pairAt 11 "late" (.text "z")]⟩

/-- The first attempt at the loop registers the box `a` and is deferred; the one that succeeds
registers `b` instead, and yet `a` is there in the end. -/
theorem ghost_of_renamed_boxes :
    ∃ start indices result, Round.start (.empty boxRegistry) [renamedBoxes] = .ok (start, indices) ∧
      evaluateFiles boxSetup (.empty boxRegistry) [renamedBoxes] = .ok result ∧
      result.has (boxKey "a") = true ∧
      ∀ attempt ∈ start.history boxSetup (passBound start.tasks),
        Round.succeeds boxSetup attempt = true → boxKey "a" ∉ Round.registers boxSetup attempt := by
  have hrun : (Round.start (.empty boxRegistry) [renamedBoxes]).toOption.bind (fun started =>
      (evaluateFiles boxSetup (.empty boxRegistry) [renamedBoxes]).toOption.map fun result =>
        (result.has (boxKey "a"),
          (started.1.history boxSetup (passBound started.1.tasks)).all fun attempt =>
            !Round.succeeds boxSetup attempt ||
              !(Round.registers boxSetup attempt).contains (boxKey "a"))) =
      some (true, true) := by decide +kernel
  obtain ⟨⟨start, indices⟩, hstart, hrun⟩ := Option.bind_eq_some_iff.1 hrun
  obtain ⟨result, hresult, hrun⟩ := Option.map_eq_some_iff.1 hrun
  obtain ⟨hheld, hghost⟩ := Prod.mk.inj hrun
  rw [toOption_eq_some] at hstart hresult
  refine ⟨start, indices, result, hstart, hresult, hheld, fun attempt hattempt hsucceeds => ?_⟩
  have hnone := List.all_eq_true.1 hghost attempt hattempt
  simpa [hsucceeds] using hnone

end Provision

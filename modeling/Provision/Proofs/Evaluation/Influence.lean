import Provision.Proofs.Evaluation.Layers
import Provision.Proofs.Evaluation.Tracing

/-!
# What an output influences

Configuration is evaluated twice, with records that differ in the outputs of one
resource alone.  When statements refer to resources in bodies alone, and the two
evaluations get the same statements done with the same keys, every resource that
comes out differently leads to the one with the outputs.  A value that a file
binds outside of bodies carries an output along without a trace.
-/

namespace Provision

open Provision.Language (Node SourceFile)

/-! ## Additions to tied inventories -/

theorem Table.keys_erase {κ ν : Type} [DecidableEq κ] (table : Table κ ν) (key : κ) :
    (table.erase key).keys = table.keys.erase key := by
  induction table with
  | nil => rfl
  | cons pair rest ih =>
    obtain ⟨k, v⟩ := pair
    unfold keys at ih ⊢
    by_cases hk : k = key
    · simp [erase, hk]
    · simp [erase, hk, ih]

namespace Inventory

variable {source : Key} {left right : Inventory} {file : Nat} {resource resource' : Resource}

/-- The keys after a resource was added depend on the keys before alone. -/
theorem keys_insertAt (hkeys : right.files.map (fun file => Table.keys file.resources) =
      left.files.map fun file => Table.keys file.resources)
    (hkey : resource'.key = resource.key) :
    (right.insertAt file resource').files.map (fun file => Table.keys file.resources) =
      (left.insertAt file resource).files.map fun file => Table.keys file.resources := by
  apply List.ext_getElem?
  intro position
  have hhere := congrArg (fun keys => keys[position]?) hkeys
  simp only [List.getElem?_map, insertAt, List.getElem?_mapIdx, Option.map_map] at hhere ⊢
  cases hleft : left.files[position]? with
  | none =>
    rw [hleft] at hhere
    rw [Option.map_eq_none_iff.1 hhere]
    rfl
  | some shelf =>
    rw [hleft, Option.map_some, Option.map_eq_some_iff] at hhere
    obtain ⟨shelf', hright, hshelf⟩ := hhere
    rw [hright, Option.map_some, Option.map_some, Function.comp_apply, Function.comp_apply]
    by_cases hposition : position = file
    · rw [if_pos hposition, if_pos hposition]
      unfold FileScope.insert
      rw [Table.keys_set, Table.keys_set, hshelf, hkey]
    · rw [if_neg hposition, if_neg hposition]
      unfold FileScope.remove
      rw [Table.keys_erase, Table.keys_erase, hshelf, hkey]

/-- Adding a resource that was not there cuts no path. -/
theorem reaches_insertAt (hdistinct : left.Distinct) (hroom : file < left.files.length)
    (hfresh : left.has resource.key = false) {key other : Key} (h : left.Reaches key other) :
    (left.insertAt file resource).Reaches key other := by
  refine Relation.ReflTransGen.mono (fun first second hedge => ?_) _ _ h
  rw [dependsOn_insertAt hdistinct hroom, if_neg ?_]
  · exact hedge
  · rintro rfl
    obtain ⟨found, hfound, -⟩ := dependsOn_iff.1 hedge
    rw [(left.has_eq_false_iff _).1 hfresh] at hfound
    cases hfound

theorem look_insertAt (hdistinct : left.Distinct) (hroom : file < left.files.length) {key : Key}
    (hkey : key ≠ resource.key) :
    (left.insertAt file resource).look key = left.look key := by
  unfold look
  rw [resource?_insertAt hdistinct hroom, if_neg (Ne.symm hkey)]

/-- Tied inventories stay tied when what is added to both is alike. -/
theorem Tied.insertAt (h : Tied source left right) (hroom : file < left.files.length)
    (hkey : resource'.key = resource.key) (hfresh : left.has resource.key = false)
    (hleft : (left.insertAt file resource).Founded)
    (hright : (right.insertAt file resource').Founded)
    (hadded : AddedAlike source left right (left.insertAt file resource)
      (right.insertAt file resource')) :
    Tied source (left.insertAt file resource) (right.insertAt file resource') := by
  have hdistinct := h.left_founded.oneHome.distinct
  have hdistinct' := h.right_founded.oneHome.distinct
  have hroom' : file < right.files.length := h.length.symm ▸ hroom
  have hfresh' : right.has resource'.key = false := by
    rw [hkey, h.has]
    exact hfresh
  have hmono : ∀ {key}, left.Reaches key source → (left.insertAt file resource).Reaches key source :=
    reaches_insertAt hdistinct hroom hfresh
  have hmono' : ∀ {key}, right.Reaches key source →
      (right.insertAt file resource').Reaches key source :=
    reaches_insertAt hdistinct' hroom' hfresh'
  refine ⟨hleft, hright, h.registry, h.virtuals, keys_insertAt h.keys hkey, fun key hdiffer => ?_⟩
  by_cases hadd : key = resource.key
  · subst hadd
    by_cases hsource : resource.key = source
    · exact ⟨hsource ▸ .refl, hsource ▸ .refl⟩
    have hhas : (left.insertAt file resource).has resource.key = true :=
      (has_insertAt hdistinct hroom _ _).2 (Or.inl rfl)
    have hhas' : (right.insertAt file resource').has resource.key = true :=
      (has_insertAt hdistinct' hroom' _ _).2 (Or.inl hkey.symm)
    rcases hadded resource.key hfresh (hkey ▸ hfresh') hhas hhas' hsource with
      hsame | ⟨⟨other, hedge, hreach⟩, other', hedge', hreach'⟩
    · exact absurd hsame.symm hdiffer
    · exact ⟨.head hedge (hmono hreach), .head hedge' (hmono' hreach')⟩
  · rw [look_insertAt hdistinct hroom hadd, look_insertAt hdistinct' hroom' (hkey ▸ hadd)] at hdiffer
    obtain ⟨hreach, hreach'⟩ := h.differences key hdiffer
    exact ⟨hmono hreach, hmono' hreach'⟩

end Inventory

/-! ## Two evaluations at the same pace -/

namespace Round

/-- What an attempt comes to: whether it gets its statement done, and the keys it registers. -/
def outcome (setup : EvaluationSetup) (attempt : Round × Task) : Bool × List Key :=
  (succeeds setup attempt, registers setup attempt)

/-- Two rounds that hold tied inventories and the same bindings, in which nothing refers to
resources, with the same statements left. -/
structure Twins (source : Key) (virtuals : Table TypeName VirtualType) (round round' : Round)
    (tasks : List Task) : Prop where
  left : round.Laid virtuals tasks
  right : round'.Laid virtuals tasks
  tied : Inventory.Tied source round.inventory round'.inventory
  inward : ∀ task ∈ tasks, Inward virtuals task.node
  scopes : round'.scopes = round.scopes
  plain : ∀ scope ∈ round.scopes, scope.handles = []
  unfinished : round'.unfinished = round.unfinished
  settling : round'.settling = round.settling

end Round

/-- Two setups that differ in what they have recorded of the source alone. -/
structure EvaluationSetup.Agree (source : Key) (setup setup' : EvaluationSetup) : Prop where
  depth : setup'.depth = setup.depth
  settings : ∀ undeclared, Setting.Agree source ⟨setup.mode, setup.current, undeclared⟩
    ⟨setup'.mode, setup'.current, undeclared⟩

namespace Round

section Twins

variable {source : Key} {virtuals : Table TypeName VirtualType} {setup setup' : EvaluationSetup}
variable {round round' after after' last last' : Round} {task : Task}
variable {tasks front back : List Task} {deferred deferred' : List Deferred}

theorem run_of_done (h : round.attempt setup task = .ok (after, none)) :
    ∃ q, (runStatement (setup.evaluator (round.undeclared task)) task.node
        { file := task.file }).run (round.progress task) = (.ok (), q) ∧
      after.inventory = q.inventory ∧ after.scopes = round.scopes.set task.source q.scope ∧
      after.unfinished = Table.erase round.unfinished (statementSpan task.node) ∧
      after.settling = round.settling := by
  rw [attempt_eq] at h
  split at h
  · next q hq =>
    cases h
    exact ⟨q, hq, rfl, rfl, rfl, rfl⟩
  · cases h
  · cases h

theorem Twins.undeclared (h : Twins source virtuals round round' tasks) (task : Task) :
    round'.undeclared task = round.undeclared task := by
  unfold Round.undeclared
  rw [h.settling, h.unfinished]

theorem Twins.paired (h : Twins source virtuals round round' tasks) (htask : task ∈ tasks) :
    Progress.Paired source { file := task.file } (round.progress task) (round'.progress task) := by
  refine ⟨h.tied, h.left.known task, h.right.known task, ⟨h.left.orderly.room task htask, nofun⟩,
    ⟨h.right.orderly.room task htask, nofun⟩, rfl, rfl, ?_, rfl, rfl, fun key hkey => ?_, nofun⟩
  · unfold progress
    rw [h.scopes]
  · unfold progress at hkey
    dsimp only at hkey
    cases hscope : round.scopes[task.source]? with
    | none =>
      rw [hscope] at hkey
      cases hkey
    | some scope =>
      rw [hscope, Option.getD_some, h.plain scope (List.mem_of_getElem? hscope)] at hkey
      cases hkey

/-- The same statement is done in both rounds, with the same keys. -/
theorem Twins.of_done (h : Twins source virtuals round round' (front ++ task :: back))
    (hagree : setup.Agree source setup') (hrun : round.attempt setup task = .ok (after, none))
    (hrun' : round'.attempt setup' task = .ok (after', none))
    (hkeys : registers setup' (round', task) = registers setup (round, task)) :
    Twins source virtuals after after' (front ++ back) := by
  have htask : task ∈ front ++ task :: back := by simp
  have hrest : (front ++ back).Sublist (front ++ task :: back) :=
    (List.sublist_cons_self task back).append_left front
  have hleft := h.left.of_done (fun undeclared => (hagree.settings undeclared).plain) hrun
  have hright := h.right.of_done (fun undeclared => (hagree.settings undeclared).plain') hrun'
  obtain ⟨q, hq, hinventory, hscopes, hunfinished, hsettling⟩ := run_of_done hrun
  obtain ⟨q', hq', hinventory', hscopes', hunfinished', hsettling'⟩ := run_of_done hrun'
  unfold EvaluationSetup.evaluator at hq hq'
  rw [h.undeclared, hagree.depth] at hq'
  have hmatched := (h.inward task htask).matched (hagree.settings (round.undeclared task)) setup.depth
    (h.paired htask) rfl h.left.orderly.virtuals_eq hq hq'
  obtain ⟨hscope, hheld⟩ : q'.scope = q.scope ∧ q.scope.handles = [] := by
    rcases hmatched.scope with ⟨start, hstart, -⟩ | ⟨hsame, hheld⟩
    · cases hstart
    · refine ⟨hsame, List.eq_nil_iff_forall_not_mem.2 fun key hkey => ?_⟩
      obtain ⟨start, hstart, -⟩ := hheld key hkey
      cases hstart
  refine ⟨hleft, hright, ?_, fun other hother => h.inward other (hrest.subset hother), ?_, ?_, ?_, ?_⟩
  · rcases h.left.orderly.attempt_done htask hrun with
      ⟨hsame, -, hnone⟩ | ⟨site, resource, hdeclares, hone⟩
    · rcases h.right.orderly.attempt_done htask hrun' with
        ⟨hsame', -, -⟩ | ⟨site', resource', -, hone'⟩
      · rw [hsame, hsame']
        exact h.tied
      · rw [hnone, hone'] at hkeys
        cases hkeys
    · rcases h.right.orderly.attempt_done htask hrun' with
        ⟨-, -, hnone'⟩ | ⟨site', resource', hdeclares', hone'⟩
      · rw [hone, hnone'] at hkeys
        cases hkeys
      · rw [hone, hone', List.cons.injEq] at hkeys
        have hadded := hmatched.added
        rw [← hinventory, ← hinventory', hdeclares.inventory, hdeclares'.inventory] at hadded
        rw [hdeclares.inventory, hdeclares'.inventory]
        exact h.tied.insertAt (h.left.orderly.room task htask) hkeys.1 (h.left.fresh htask hdeclares)
          (hdeclares.inventory ▸ hleft.founded) (hdeclares'.inventory ▸ hright.founded) hadded
  · rw [hscopes, hscopes', h.scopes, hscope]
  · intro scope hmem
    rw [hscopes] at hmem
    rcases List.mem_or_eq_of_mem_set hmem with hmem | rfl
    · exact h.plain scope hmem
    · exact hheld
  · rw [hunfinished, hunfinished', h.unfinished]
  · rw [hsettling, hsettling', h.settling]

theorem Twins.of_deferred (h : Twins source virtuals round round' tasks) (htask : task ∈ tasks)
    {d d' : Deferred} (hrun : round.attempt setup task = .ok (after, some d))
    (hrun' : round'.attempt setup' task = .ok (after', some d')) :
    Twins source virtuals after after' tasks := by
  obtain rfl := h.left.orderly.eq_of_deferred htask hrun
  obtain rfl := h.right.orderly.eq_of_deferred htask hrun'
  exact h

/-- The rounds stay tied while the same statements get done. -/
theorem Twins.sweep (front : List Task) (h : Twins source virtuals round round' (front ++ tasks))
    (hagree : setup.Agree source setup') (hsweep : round.sweep setup tasks = .ok (after, deferred))
    (hsweep' : round'.sweep setup' tasks = .ok (after', deferred'))
    (hlike : (round.tries setup tasks).map (outcome setup) =
      (round'.tries setup' tasks).map (outcome setup')) :
    deferred'.map Deferred.task = deferred.map Deferred.task ∧
      Twins source virtuals after after' (front ++ deferred.map Deferred.task) := by
  induction tasks generalizing round round' front deferred deferred' with
  | nil =>
    cases hsweep
    cases hsweep'
    exact ⟨rfl, h⟩
  | cons task rest ih =>
    rw [sweep_cons] at hsweep hsweep'
    obtain ⟨⟨between, first⟩, hfirst, hsweep⟩ := bind_eq_ok.1 hsweep
    obtain ⟨⟨between', first'⟩, hfirst', hsweep'⟩ := bind_eq_ok.1 hsweep'
    obtain ⟨⟨swept, others⟩, hrest, hsweep⟩ := bind_eq_ok.1 hsweep
    obtain ⟨⟨swept', others'⟩, hrest', hsweep'⟩ := bind_eq_ok.1 hsweep'
    cases hsweep
    cases hsweep'
    rw [tries, tries, hfirst, hfirst', List.map_cons, List.map_cons, List.cons.injEq] at hlike
    obtain ⟨houtcome, hlike⟩ := hlike
    obtain ⟨hsucceeds, hkeys⟩ := Prod.mk.inj houtcome
    cases first with
    | none =>
      cases first' with
      | none => exact ih front (h.of_done hagree hfirst hfirst' hkeys.symm) hrest hrest' hlike
      | some d' =>
        rw [succeeds_of_done hfirst, succeeds_of_deferred hfirst'] at hsucceeds
        cases hsucceeds
    | some d =>
      cases first' with
      | none =>
        rw [succeeds_of_deferred hfirst, succeeds_of_done hfirst'] at hsucceeds
        cases hsucceeds
      | some d' =>
        have hnext := h.of_deferred (by simp) hfirst hfirst'
        rw [List.append_cons] at hnext
        obtain ⟨htasks, htwins⟩ := ih (front ++ [task]) hnext hrest hrest' hlike
        have htask := task_of_deferred hfirst
        have htask' := task_of_deferred hfirst'
        refine ⟨?_, ?_⟩
        · show d'.task :: others'.map Deferred.task = d.task :: others.map Deferred.task
          rw [htask, htask', htasks]
        · show Twins source virtuals swept swept' (front ++ (d.task :: others.map Deferred.task))
          rw [htask, List.append_cons]
          exact htwins

theorem length_tries (h : round.sweep setup tasks = .ok (after, deferred)) :
    (round.tries setup tasks).length = tasks.length := by
  induction tasks generalizing round after deferred with
  | nil => rfl
  | cons task rest ih =>
    rw [sweep_cons] at h
    obtain ⟨⟨between, first⟩, hfirst, h⟩ := bind_eq_ok.1 h
    obtain ⟨⟨swept, others⟩, hrest, h⟩ := bind_eq_ok.1 h
    rw [tries, hfirst, List.length_cons, List.length_cons, ih hrest]

/-- The round that the next pass starts from when statements are left. -/
def next (round after : Round) (deferred : List Deferred) : Round :=
  { after with
    tasks := deferred.map Deferred.task
    settling := decide (deferred.length = round.tasks.length) }

/-- A run that succeeds begins with a pass after which it is over, or goes on with what is left. -/
theorem run_eq_ok {bound : Nat} (h : round.run setup (bound + 1) = .ok last) :
    ∃ after deferred later, round.sweep setup round.tasks = .ok (after, deferred) ∧
      round.history setup (bound + 1) = round.tries setup round.tasks ++ later ∧
      ((deferred = [] ∧ last = { after with tasks := [] }) ∨
        deferred ≠ [] ∧ (round.next after deferred).run setup bound = .ok last ∧
          later = (round.next after deferred).history setup bound) := by
  have hpass := passes_pass setup round
  rw [Round.run] at h
  rw [history]
  cases hresult : round.pass setup with
  | failed e =>
    rw [hresult] at h
    cases h
  | stuck _ _ =>
    rw [hresult] at h
    cases h
  | finished done =>
    rw [hresult] at h hpass
    cases h
    cases hpass with
    | finished hsweep => exact ⟨_, [], _, hsweep, rfl, Or.inl ⟨rfl, rfl⟩⟩
  | again following =>
    rw [hresult] at h hpass
    dsimp only at h ⊢
    cases hpass with
    | @again after deferred hsweep hne hless =>
      have hnext : round.next after deferred =
          { after with tasks := deferred.map Deferred.task, settling := false } := by
        unfold next
        rw [decide_eq_false (Nat.ne_of_lt hless)]
      exact ⟨after, deferred, _, hsweep, rfl, Or.inr ⟨hne, hnext ▸ h, by rw [hnext]⟩⟩
    | @settles after deferred hsweep hne hall hsettling =>
      have hnext : round.next after deferred =
          { after with tasks := deferred.map Deferred.task, settling := true } := by
        unfold next
        rw [decide_eq_true hall]
      exact ⟨after, deferred, _, hsweep, rfl, Or.inr ⟨hne, hnext ▸ h, by rw [hnext]⟩⟩

/-- Two runs that make the same attempts with the same outcomes end in tied rounds. -/
theorem Twins.run {bound : Nat} (h : Twins source virtuals round round' round.tasks)
    (htasks : round'.tasks = round.tasks) (hagree : setup.Agree source setup')
    (hrun : round.run setup bound = .ok last) (hrun' : round'.run setup' bound = .ok last')
    (hlike : (round.history setup bound).map (outcome setup) =
      (round'.history setup' bound).map (outcome setup')) :
    Twins source virtuals last last' [] := by
  induction bound generalizing round round' with
  | zero => cases hrun
  | succ bound ih =>
    obtain ⟨after, deferred, later, hsweep, hhistory, hcases⟩ := run_eq_ok hrun
    obtain ⟨after', deferred', later', hsweep', hhistory', hcases'⟩ := run_eq_ok hrun'
    rw [hhistory, hhistory', List.map_append, List.map_append] at hlike
    obtain ⟨htries, hlater⟩ := List.append_inj hlike (by
      rw [List.length_map, List.length_map, length_tries hsweep, length_tries hsweep', htasks])
    rw [htasks] at hsweep' htries
    obtain ⟨hleft, htwins⟩ := h.sweep [] hagree hsweep hsweep' htries
    have hlength := congrArg List.length hleft
    rw [List.length_map, List.length_map] at hlength
    rcases hcases with ⟨rfl, rfl⟩ | ⟨hne, hrest, rfl⟩
    · rcases hcases' with ⟨rfl, rfl⟩ | ⟨hne', -, -⟩
      · exact ⟨htwins.left.congr [] _, htwins.right.congr [] _, htwins.tied, htwins.inward,
          htwins.scopes, htwins.plain, htwins.unfinished, htwins.settling⟩
      · exact absurd (List.eq_nil_of_length_eq_zero hlength) hne'
    · rcases hcases' with ⟨rfl, -⟩ | ⟨-, hrest', rfl⟩
      · exact absurd (List.eq_nil_of_length_eq_zero hlength.symm) hne
      · refine ih ?_ hleft hrest hrest' hlater
        have hsettling : (round'.next after' deferred').settling =
            (round.next after deferred).settling := by
          unfold next
          rw [hlength, htasks]
        exact ⟨htwins.left.congr _ _, htwins.right.congr _ _, htwins.tied, htwins.inward,
          htwins.scopes, htwins.plain, htwins.unfinished, hsettling⟩

end Twins

end Round

/-! ## Two records -/

/-- The value of the field `v` of a box, when it is a text. -/
def boxText (inventory : Inventory) (name : String) : Option String :=
  (inventory.resource? (boxKey name)).bind fun resource => (resource.field? "v").bind Value.asText?

end Provision

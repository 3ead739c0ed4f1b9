import Provision.Proofs.Evaluation.Sound
import Provision.Proofs.State.Opened

/-!
# Passes over recorded state

The block of a recorded resource gets done as soon as the resources in its
fields are there, and it never fails.  As long as blocks are left one of them
refers to none of the others, so no pass is made in vain, and in the end every
file holds what was recorded for it.
-/

namespace Provision

open Provision.Language (Node SourceFile)
open Retry (Verdict Machine Settles Breaks Stalls Lawful Below settles_or_breaks_or_stalls)

/-! ## What the file at a position holds -/

namespace Inventory

variable {inventory : Inventory} {resource : Resource} {index position : Nat} {key : Key}

/-- What the file at a position holds under a key. -/
def contentAt (inventory : Inventory) (position : Nat) (key : Key) : Option Content :=
  (inventory.files[position]?.bind fun file => file.resource? key).map Resource.content

theorem has_iff_contentAt :
    inventory.has key = true ↔ ∃ position content, inventory.contentAt position key = some content := by
  unfold has resource?
  rw [List.findSome?_isSome_iff]
  constructor
  · rintro ⟨file, hfile, hheld⟩
    obtain ⟨position, hposition⟩ := List.mem_iff_getElem?.1 hfile
    obtain ⟨resource, hresource⟩ := Option.isSome_iff_exists.1 hheld
    refine ⟨position, resource.content, ?_⟩
    rw [contentAt, hposition, Option.bind_some, hresource, Option.map_some]
  · rintro ⟨position, content, hcontent⟩
    obtain ⟨resource, hresource, -⟩ := Option.map_eq_some_iff.1 hcontent
    obtain ⟨file, hfile, hheld⟩ := Option.bind_eq_some_iff.1 hresource
    refine ⟨file, List.mem_of_getElem? hfile, ?_⟩
    rw [hheld]
    rfl

theorem contentAt_of_resource?_eq_none (h : inventory.resource? key = none) (position : Nat) :
    inventory.contentAt position key = none := by
  rw [Option.eq_none_iff_forall_ne_some]
  intro content hcontent
  have hhas := has_iff_contentAt.2 ⟨position, content, hcontent⟩
  rw [has, h] at hhas
  cases hhas

/-- Inserting a resource that was nowhere puts its content in one place. -/
theorem contentAt_insertAt (h : inventory.Distinct) (hindex : index < inventory.files.length)
    (hnew : inventory.resource? resource.key = none) (content : Content) :
    (inventory.insertAt index resource).contentAt position key = some content ↔
      inventory.contentAt position key = some content ∨
        (position, key, content) = (index, resource.key, resource.content) := by
  have hfile : (inventory.insertAt index resource).files[position]? =
      inventory.files[position]?.map fun file =>
        if position = index then file.insert resource else file.remove resource.key :=
    List.getElem?_mapIdx
  unfold contentAt
  rw [hfile]
  cases hposition : inventory.files[position]? with
  | none =>
    have hne : position ≠ index := by
      rintro rfl
      rw [List.getElem?_eq_getElem hindex] at hposition
      cases hposition
    simp [hne]
  | some file =>
    have hdistinct := h file (List.mem_of_getElem? hposition)
    rw [Option.map_some, Option.bind_some, Option.bind_some, resource?_changed hdistinct]
    by_cases hkey : key = resource.key
    · -- no file held the key before
      have hnone := contentAt_of_resource?_eq_none hnew position
      rw [contentAt, hposition, Option.bind_some, ← hkey] at hnone
      rw [if_pos hkey, hnone]
      by_cases hhere : position = index
      · simp [hhere, hkey, eq_comm]
      · simp [hhere]
    · rw [if_neg hkey]
      simp [hkey]

end Inventory

/-! ## What a block says -/

/-- The recorded resource that a statement restores. -/
def restoredBy? (inventory : Inventory) (task : Task) : Option Resource :=
  (statementKey task.node).bind inventory.resource?

instance (resource : Resource) (known : Inventory) : Decidable (resource.Ready known) :=
  inferInstanceAs
    (Decidable (∀ field ∈ resource.fields, ∀ key ∈ field.2.handles, known.has key = true))

/-- What a block says in a round: a file, a key and what is to stand there, once all in it is known. -/
def restoringSaid (inventory : Inventory) (task : Task) (round : Round) :
    Verdict (Nat × Key × Content) :=
  match restoredBy? inventory task with
  | none => .fails
  | some resource =>
    if resource.Ready round.inventory then .yields (task.file, resource.key, resource.content)
    else .waits

/-- A file of the round holds some content under a key. -/
def RoundShows (round : Round) (fact : Nat × Key × Content) : Prop :=
  round.inventory.contentAt fact.1 fact.2.1 = some fact.2.2

/-- Blocks that restore the resources of an inventory, each once, into so many files. -/
structure Inventory.RestoredBy (inventory : Inventory) (room : Nat) (all : List Task) : Prop where
  restores : ∀ task ∈ all, task.file < room ∧
    ∃ resource ∈ inventory.resources, task.node.bare = (resourceNode resource).bare
  once : (all.map fun task => statementKey task.node).Nodup
  complete : ∀ resource ∈ inventory.resources,
    ∃ task ∈ all, task.node.bare = (resourceNode resource).bare

/-- A round in which some blocks are left. -/
structure Restoring (inventory : Inventory) (room : Nat) (all items : List Task) (round : Round) :
    Prop where
  registry : round.inventory.registry = inventory.registry
  virtuals : round.inventory.virtuals = []
  distinct : round.inventory.Distinct
  room : round.inventory.files.length = room
  mem : ∀ task ∈ items, task ∈ all
  once : (items.map fun task => statementKey task.node).Nodup
  new : ∀ task ∈ items, ∀ key, statementKey task.node = some key →
    Table.get? round.declared key = none ∧ round.inventory.resource? key = none

section Passes

variable {inventory : Inventory} {resource : Resource} {room : Nat} {all items : List Task}
variable {task : Task} {round round' : Round} {setup : EvaluationSetup}

theorem tried_of_done {after : Progress}
    (h : (runStatement (setup.evaluator (round.undeclared task)) task.node
      { file := task.file }).run (round.progress task) = (.ok (), after)) :
    round.tried setup task = .done { round.keeping task after with
      unfinished := Table.erase round.unfinished (statementSpan task.node) } := by
  unfold Round.tried
  rw [attempt_eq, h]

theorem tried_of_waits {after : Progress} {reasons : List Deferral}
    (h : (runStatement (setup.evaluator (round.undeclared task)) task.node
      { file := task.file }).run (round.progress task) = (.error (.deferred reasons), after)) :
    round.tried setup task = .waits (round.keeping task after) := by
  unfold Round.tried
  rw [attempt_eq, h]

theorem statementKey_resourceNode {node : Node} (h : resource.key.Trimmed)
    (hbare : node.bare = (resourceNode resource).bare) :
    statementKey node = some resource.key := by
  rw [resourceNode_eq, Node.bare] at hbare
  obtain ⟨name, source, span, rfl, hname, -⟩ := Node.eq_resource_of_bare hbare
  obtain rfl := Node.eq_text_of_bare hname
  rw [statementKey, resource.key.type.ofText_text]
  dsimp only
  rw [h.make]
  rfl

/-- The block of a recorded resource restores that resource. -/
theorem restoredBy?_eq (h : inventory.Writable) (hresource : resource ∈ inventory.resources)
    (hbare : task.node.bare = (resourceNode resource).bare) :
    restoredBy? inventory task = some resource := by
  have htrimmed := (h.resources resource hresource).nameable.toTrimmed
  unfold restoredBy?
  rw [statementKey_resourceNode htrimmed hbare, Option.bind_some]
  exact h.oneHome.resource?_eq_some_iff.2 ⟨hresource, rfl⟩

/-- What the blocks of a state say: the resource of each is told once it is ready. -/
theorem Inventory.RestoredBy.said (hall : inventory.RestoredBy room all) (h : inventory.Writable)
    (htask : task ∈ all) :
    ∃ resource ∈ inventory.resources, task.node.bare = (resourceNode resource).bare ∧
      restoredBy? inventory task = some resource ∧ ∀ round,
        restoringSaid inventory task round =
          if resource.Ready round.inventory then
            .yields (task.file, resource.key, resource.content)
          else .waits := by
  obtain ⟨-, resource, hresource, hbare⟩ := hall.restores task htask
  have hrestored := restoredBy?_eq h hresource hbare
  refine ⟨resource, hresource, hbare, hrestored, fun round => ?_⟩
  unfold restoringSaid
  rw [hrestored]

/-- What is known in a round is known in every round that shows as much. -/
theorem Resource.Ready.mono (h : resource.Ready round.inventory)
    (hbelow : Below RoundShows round round') :
    resource.Ready round'.inventory := by
  intro field hfield key hkey
  obtain ⟨position, content, hcontent⟩ :=
    Inventory.has_iff_contentAt.1 (h field hfield key hkey)
  exact Inventory.has_iff_contentAt.2
    ⟨position, content, hbelow (position, key, content) hcontent⟩

theorem Inventory.RestoredBy.said_ne_fails (hall : inventory.RestoredBy room all)
    (h : inventory.Writable) (htask : task ∈ all) (round : Round) :
    restoringSaid inventory task round ≠ .fails := by
  obtain ⟨resource, -, -, -, hsaid⟩ := hall.said h htask
  rw [hsaid round]
  split <;> nofun

/-- A block whose resource is ready gets done. -/
theorem restoring_done (h : inventory.Writable) (hall : inventory.RestoredBy room all)
    {front back : List Task} {fact : Nat × Key × Content}
    (hinv : Restoring inventory room all (front ++ task :: back) round)
    (hverdict : restoringSaid inventory task round = .yields fact) :
    ∃ after, round.tried stateSetup task = .done after ∧
      Restoring inventory room all (front ++ back) after ∧
      ∀ other, RoundShows after other ↔ RoundShows round other ∨ other = fact := by
  have htask : task ∈ front ++ task :: back := by simp
  obtain ⟨resource, hresource, hbare, -, hsaid⟩ := hall.said h (hinv.mem task htask)
  rw [hsaid round] at hverdict
  split at hverdict
  · next hready =>
    cases hverdict
    have hkey := statementKey_resourceNode (h.resources resource hresource).nameable.toTrimmed hbare
    obtain ⟨hdeclared, hnew⟩ := hinv.new task htask _ hkey
    obtain ⟨restored, hrun, hrestoredKey, hcontent⟩ := recordedBlock_done (p := round.progress task) h
      hresource hbare hinv.registry hinv.virtuals hready hdeclared hnew task.file
      (round.undeclared task)
    have hindex : task.file < round.inventory.files.length := by
      rw [hinv.room]
      exact (hall.restores task (hinv.mem task htask)).1
    refine ⟨_, tried_of_done hrun, ?_, ?_⟩
    · have hsublist : (front ++ back).Sublist (front ++ task :: back) :=
        (List.sublist_cons_self task back).append_left front
      have honce := hinv.once
      rw [List.map_append, List.map_cons, List.nodup_middle, List.nodup_cons, ← List.map_append]
        at honce
      refine ⟨hinv.registry, hinv.virtuals, Inventory.distinct_insertAt hinv.distinct _ _, ?_,
        fun other hother => hinv.mem other (hsublist.subset hother), honce.2, ?_⟩
      · exact (Inventory.length_insertAt _ _ _).trans hinv.room
      · intro other hother key hotherKey
        have hne : restored.key ≠ key := by
          rintro rfl
          rw [hrestoredKey] at hotherKey
          refine honce.1 ?_
          rw [hkey, ← hotherKey]
          exact List.mem_map_of_mem hother
        obtain ⟨hundeclared, hunknown⟩ := hinv.new other (hsublist.subset hother) key hotherKey
        constructor
        · show Table.get? (Table.set round.declared restored.key _) key = none
          rw [Table.get?_set, if_neg hne, hundeclared]
        · show (round.inventory.insertAt task.file restored).resource? key = none
          rw [Inventory.resource?_insertAt hinv.distinct hindex, if_neg hne, hunknown]
    · rintro ⟨position, key, content⟩
      rw [← hrestoredKey] at hnew ⊢
      rw [← hcontent]
      exact Inventory.contentAt_insertAt hinv.distinct hindex hnew content
  · cases hverdict

/-- A block whose resource is not ready waits and changes nothing. -/
theorem restoring_waits (h : inventory.Writable) (hall : inventory.RestoredBy room all)
    (hinv : Restoring inventory room all items round) (htask : task ∈ items)
    (hverdict : restoringSaid inventory task round = .waits) :
    ∃ after, round.tried stateSetup task = .waits after ∧
      Restoring inventory room all items after ∧
      ∀ other, RoundShows after other ↔ RoundShows round other := by
  obtain ⟨resource, hresource, hbare, -, hsaid⟩ := hall.said h (hinv.mem task htask)
  rw [hsaid round] at hverdict
  split at hverdict
  · cases hverdict
  · next hready =>
    obtain ⟨reasons, hrun⟩ := recordedBlock_waits (p := round.progress task) h hresource hbare
      hinv.registry hinv.virtuals hready task.file (round.undeclared task)
    exact ⟨_, tried_of_waits hrun, ⟨hinv.registry, hinv.virtuals, hinv.distinct, hinv.room, hinv.mem,
      hinv.once, hinv.new⟩, fun _ => Iff.rfl⟩

theorem restoring_lawful (h : inventory.Writable) (hall : inventory.RestoredBy room all) :
    Lawful (roundMachine stateSetup (restoringSaid inventory)) RoundShows all
      (Restoring inventory room all) where
  mem := fun hinv => hinv.mem
  done := restoring_done h hall
  waits := restoring_waits h hall
  fails := fun hinv htask hverdict =>
    absurd hverdict (hall.said_ne_fails h (hinv.mem _ htask) _)
  next := fun hinv => ⟨⟨hinv.registry, hinv.virtuals, hinv.distinct, hinv.room, hinv.mem, hinv.once,
    hinv.new⟩, fun _ => Iff.rfl⟩
  yields_stable := by
    intro items left task round round' fact hinv hinv' hbelow htask hverdict
    obtain ⟨resource, -, -, -, hsaid⟩ := hall.said h htask
    have hverdict : restoringSaid inventory task round = .yields fact := hverdict
    show restoringSaid inventory task round' = .yields fact
    rw [hsaid] at hverdict ⊢
    split at hverdict
    · next hready => rw [if_pos (hready.mono hbelow), hverdict]
    · cases hverdict
  fails_stable := fun _ _ _ htask hverdict => absurd hverdict (hall.said_ne_fails h htask _)

/-! ## From the first pass to the last -/

/-- What a resource refers to is there, or its block is left. -/
theorem restored_or_left (h : inventory.Writable) (hall : inventory.RestoredBy room all)
    (hstage : Retry.Stage (roundMachine stateSetup (restoringSaid inventory)) RoundShows all
      (Restoring inventory room all) items round) {key : Key} (hkey : inventory.has key = true) :
    round.inventory.has key = true ∨ ∃ task ∈ items, statementKey task.node = some key := by
  obtain ⟨target, htarget⟩ := Option.isSome_iff_exists.1 hkey
  obtain ⟨hmem, rfl⟩ := h.oneHome.resource?_eq_some_iff.1 htarget
  obtain ⟨task, htask, hbare⟩ := hall.complete target hmem
  rcases hstage.settled task htask with hleft | ⟨fact, hverdict, hshown⟩
  · exact Or.inr ⟨task, hleft,
      statementKey_resourceNode (h.resources target hmem).nameable.toTrimmed hbare⟩
  · left
    obtain ⟨resource, -, -, hrestored, hsaid⟩ := hall.said h htask
    obtain rfl := Option.some.inj (hrestored.symm.trans (restoredBy?_eq h hmem hbare))
    have hverdict : restoringSaid inventory task round = .yields fact := hverdict
    rw [hsaid round] at hverdict
    split at hverdict
    · cases hverdict
      exact Inventory.has_iff_contentAt.2 ⟨_, _, hshown⟩
    · cases hverdict

/-- Among blocks that are left one does not wait, as they do not refer to each other in a circle. -/
theorem restoring_moves (h : inventory.Writable) (hgrounded : inventory.Grounded) (hall : inventory.RestoredBy room all)
    (hstage : Retry.Stage (roundMachine stateSetup (restoringSaid inventory)) RoundShows all
      (Restoring inventory room all) items round) (hne : items ≠ []) :
    ∃ task ∈ items, restoringSaid inventory task round ≠ .waits := by
  have hkeyed : ∀ task ∈ items, ∃ resource ∈ inventory.resources,
      statementKey task.node = some resource.key ∧ ∀ round,
        restoringSaid inventory task round =
          if resource.Ready round.inventory then
            .yields (task.file, resource.key, resource.content)
          else .waits := by
    intro task htask
    obtain ⟨resource, hresource, hbare, -, hsaid⟩ := hall.said h (hstage.here.mem task htask)
    exact ⟨resource, hresource,
      statementKey_resourceNode (h.resources resource hresource).nameable.toTrimmed hbare, hsaid⟩
  have hkeys : items.filterMap (fun task => statementKey task.node) ≠ [] := by
    obtain ⟨first, hfirst⟩ := List.exists_mem_of_ne_nil items hne
    obtain ⟨resource, -, hkey, -⟩ := hkeyed first hfirst
    exact List.ne_nil_of_mem (List.mem_filterMap.2 ⟨first, hfirst, hkey⟩)
  obtain ⟨key, hkey, hnone⟩ := Inventory.exists_refers_to_none hgrounded.acyclic hkeys
  obtain ⟨task, htask, htaskKey⟩ := List.mem_filterMap.1 hkey
  obtain ⟨resource, hresource, hresourceKey, hsaid⟩ := hkeyed task htask
  obtain rfl := Option.some.inj (htaskKey.symm.trans hresourceKey)
  have hready : resource.Ready round.inventory := by
    intro field hfield target htarget
    have hrefers : inventory.Refers resource.key target :=
      h.oneHome.refers_iff.2 ⟨resource, hresource, rfl, field, hfield, htarget⟩
    refine (restored_or_left h hall hstage (hgrounded.present hrefers)).resolve_right ?_
    rintro ⟨other, hother, hotherKey⟩
    exact hnone target (List.mem_filterMap.2 ⟨other, hother, hotherKey⟩) hrefers
  refine ⟨task, htask, ?_⟩
  rw [hsaid round, if_pos hready]
  nofun

/-- A block says what its resource was recorded with. -/
theorem Inventory.RestoredBy.said_yields (hall : inventory.RestoredBy room all)
    (h : inventory.Writable) (htask : task ∈ all) {fact : Nat × Key × Content}
    (hverdict : restoringSaid inventory task round = .yields fact) :
    ∃ resource ∈ inventory.resources, task.node.bare = (resourceNode resource).bare ∧
      fact = (task.file, resource.key, resource.content) := by
  obtain ⟨resource, hresource, hbare, -, hsaid⟩ := hall.said h htask
  rw [hsaid round] at hverdict
  split at hverdict
  · cases hverdict
    exact ⟨resource, hresource, hbare, rfl⟩
  · cases hverdict

/-- What a finished run shows is what its blocks were recorded with. -/
theorem content_of_settles (h : inventory.Writable) (hall : inventory.RestoredBy room all)
    (hinv : Restoring inventory room all all round)
    (hempty : ∀ position key, round.inventory.contentAt position key = none) {last : Round}
    (hsettles : Settles (roundMachine stateSetup (restoringSaid inventory)) all round last)
    (position : Nat) (key : Key) (content : Content) :
    last.inventory.contentAt position key = some content ↔
      ∃ task ∈ all, ∃ resource ∈ inventory.resources,
        task.node.bare = (resourceNode resource).bare ∧
          (position, key, content) = (task.file, resource.key, resource.content) := by
  obtain ⟨hstage, -, hbounded⟩ := hsettles.swept (restoring_lawful h hall) (.start hinv)
  constructor
  · -- a fact that is shown was said by some block
    let Said (fact : Nat × Key × Content) : Prop :=
      ∃ task ∈ all, ∃ round, restoringSaid inventory task round = .yields fact
    have habsorbs : Retry.Absorbs (roundMachine stateSetup (restoringSaid inventory)) RoundShows
        all (Restoring inventory room all) Said :=
      fun _ _ htask hverdict => ⟨_, htask, _, hverdict⟩
    intro hcontent
    obtain ⟨task, htask, before, hverdict⟩ := hbounded Said habsorbs
      (fun fact hfact => absurd ((hempty fact.1 fact.2.1).symm.trans hfact) nofun)
      (position, key, content) hcontent
    obtain ⟨resource, hresource, hbare, hfact⟩ := hall.said_yields h htask hverdict
    exact ⟨task, htask, resource, hresource, hbare, hfact⟩
  · rintro ⟨task, htask, resource, hresource, hbare, hfact⟩
    rcases hstage.settled task htask with hleft | ⟨fact, hverdict, hshown⟩
    · cases hleft
    · obtain ⟨found, hfound, hfoundBare, rfl⟩ := hall.said_yields h htask hverdict
      have hsame := (restoredBy?_eq h hfound hfoundBare).symm.trans (restoredBy?_eq h hresource hbare)
      obtain rfl := Option.some.inj hsame
      cases hfact
      exact hshown

/-- All blocks get done, and then every file holds what was recorded for it. -/
theorem restoring_run (h : inventory.Writable) (hgrounded : inventory.Grounded)
    (hall : inventory.RestoredBy room all) (hinv : Restoring inventory room all all round)
    (hempty : ∀ position key, round.inventory.contentAt position key = none)
    (htasks : round.tasks = all) :
    ∃ last, round.run stateSetup (passBound all) = .ok last ∧
      ∀ position key content, last.inventory.contentAt position key = some content ↔
        ∃ task ∈ all, ∃ resource ∈ inventory.resources,
          task.node.bare = (resourceNode resource).bare ∧
            (position, key, content) = (task.file, resource.key, resource.content) := by
  have hlawful := restoring_lawful h hall
  have hstart : Retry.Stage (roundMachine stateSetup (restoringSaid inventory)) RoundShows all
      (Restoring inventory room all) all round := .start hinv
  rcases settles_or_breaks_or_stalls (roundMachine stateSetup (restoringSaid inventory)) all round with
    ⟨last, hsettles⟩ | hbreaks | ⟨left, last, hstalls⟩
  · have hcontent := content_of_settles h hall hinv hempty hsettles
    exact ⟨{ last with tasks := [] }, run_of_settles hsettles htasks (by unfold passBound; omega),
      hcontent⟩
  · obtain ⟨task, items, failed, hbroken⟩ := hbreaks.broken hlawful hstart
    exact absurd hbroken.fails (hall.said_ne_fails h hbroken.mem failed)
  · obtain ⟨hne, hstage, -, hwaits⟩ := hstalls.swept hlawful hstart
    obtain ⟨task, htask, hmoves⟩ := restoring_moves h hgrounded hall hstage hne
    exact absurd (hwaits task htask) hmoves

/-! ## References that lead nowhere -/

/-- A key is supported when all that its resource refers to is, and so on down to resources that
refer to nothing. -/
inductive Inventory.Supports (inventory : Inventory) : Key → Prop
  | intro {key : Key} (hhas : inventory.has key = true)
      (htargets : ∀ target, inventory.Refers key target → inventory.Supports target) :
      inventory.Supports key

theorem Inventory.Supports.not_circular {key : Key} (h : inventory.Supports key) :
    ¬ Relation.TransGen inventory.Refers key key := by
  induction h with
  | intro _ _ ih =>
    intro hcircle
    obtain ⟨next, hfirst, hback⟩ := Relation.TransGen.head'_iff.1 hcircle
    exact ih next hfirst (Relation.TransGen.tail' hback hfirst)

theorem Inventory.grounded_of_supports
    (h : ∀ key, inventory.has key = true → inventory.Supports key) : inventory.Grounded := by
  have hholds {key target : Key} (hrefers : inventory.Refers key target) :
      inventory.Supports key := by
    obtain ⟨resource, hresource, -⟩ := hrefers
    exact h key (Option.isSome_iff_exists.2 ⟨resource, hresource⟩)
  constructor
  · intro key target hrefers
    cases hholds hrefers with
    | intro _ htargets =>
      cases htargets target hrefers with
      | intro hhas _ => exact hhas
  · intro key hcircle
    obtain ⟨next, hfirst, -⟩ := Relation.TransGen.head'_iff.1 hcircle
    exact (hholds hfirst).not_circular hcircle

/-- A run that gives a result gets all blocks done. -/
theorem settles_of_run (h : inventory.Writable) (hall : inventory.RestoredBy room all)
    (hinv : Restoring inventory room all all round) (htasks : round.tasks = all) {bound : Nat}
    {last : Round} (hrun : round.run stateSetup bound = .ok last) :
    ∃ settled, Settles (roundMachine stateSetup (restoringSaid inventory)) all round settled := by
  have hlawful := restoring_lawful h hall
  have hstopped : ¬ ∃ e, round.run stateSetup bound = .error e := by
    rintro ⟨e, herror⟩
    rw [herror] at hrun
    cases hrun
  rcases settles_or_breaks_or_stalls (roundMachine stateSetup (restoringSaid inventory)) all round with
    hsettles | hbreaks | ⟨left, stalled, hstalls⟩
  · exact hsettles
  · exact absurd (run_of_breaks hbreaks htasks bound) hstopped
  · obtain ⟨-, hstage, -, hwaits⟩ := hstalls.swept hlawful (.start hinv)
    obtain ⟨hnext, -⟩ := hlawful.next hstage.here
    have hidle := Retry.sweep_waiting hlawful [] (s := stalled.settled left)
      ⟨hnext.registry, hnext.virtuals, hnext.distinct, hnext.room, hnext.mem, hnext.once, hnext.new⟩
      hwaits
    exact absurd (run_of_stalls hstalls hidle htasks bound) hstopped

/-- A block gets done only when all that it refers to is there, so when all blocks get done no
reference leads nowhere. -/
theorem grounded_of_run (h : inventory.Writable) (hall : inventory.RestoredBy room all)
    (hinv : Restoring inventory room all all round)
    (hempty : ∀ position key, round.inventory.contentAt position key = none)
    (htasks : round.tasks = all) {bound : Nat} {last : Round}
    (hrun : round.run stateSetup bound = .ok last) :
    inventory.Grounded := by
  obtain ⟨settled, hsettles⟩ := settles_of_run h hall hinv htasks hrun
  obtain ⟨-, -, hbounded⟩ := hsettles.swept (restoring_lawful h hall) (.start hinv)
  let Good (fact : Nat × Key × Content) : Prop := inventory.Supports fact.2.1
  have habsorbs : Retry.Absorbs (roundMachine stateSetup (restoringSaid inventory)) RoundShows
      all (Restoring inventory room all) Good := by
    intro items task before fact _ hgood htask hverdict
    obtain ⟨resource, hresource, -, -, hsaid⟩ := hall.said h htask
    have hverdict : restoringSaid inventory task before = .yields fact := hverdict
    rw [hsaid before] at hverdict
    split at hverdict
    · next hready =>
      cases hverdict
      have hfound := h.oneHome.resource?_eq_some_iff.2 ⟨hresource, rfl⟩
      refine .intro (Option.isSome_iff_exists.2 ⟨resource, hfound⟩) fun target hrefers => ?_
      obtain ⟨found, hfound', field, hfield, htarget⟩ := hrefers
      obtain rfl := Option.some.inj (hfound.symm.trans hfound')
      obtain ⟨position, content, hshown⟩ :=
        Inventory.has_iff_contentAt.1 (hready field hfield target htarget)
      exact hgood (position, target, content) hshown
    · cases hverdict
  refine Inventory.grounded_of_supports fun key hkey => ?_
  obtain ⟨resource, hresource⟩ := Option.isSome_iff_exists.1 hkey
  obtain ⟨hmem, rfl⟩ := h.oneHome.resource?_eq_some_iff.1 hresource
  obtain ⟨task, htask, hbare⟩ := hall.complete resource hmem
  have hshown : RoundShows settled (task.file, resource.key, resource.content) :=
    (content_of_settles h hall hinv hempty hsettles _ _ _).2
      ⟨task, htask, resource, hmem, hbare, rfl⟩
  exact hbounded Good habsorbs
    (fun fact hfact => absurd ((hempty fact.1 fact.2.1).symm.trans hfact) nofun) _ hshown

end Passes

end Provision

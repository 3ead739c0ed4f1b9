import Provision.Proofs.Evaluation.Declaring
import Provision.Proofs.Evaluation.History
import Provision.Proofs.Language.Standing

/-!
# What a type query lists

A type query is answered when no other statement that is left may declare a resource
of the type.  From then on the resources of the type stay as they are, as far as they
are not the statement's own, and so the answer lists each of them that there is in the
end.  What it shows of a resource is what there is in the end, too, unless the path
leads on through a handle to a resource that another statement, deferred half-way, has
left and goes on to change.
-/

namespace Provision

open Provision.Language (Node SourceFile)

/-! ## Answers -/

namespace Recording

variable {α β : Type}

/-- What the recording comes to does not depend on what was read before. -/
def Steady (m : Recording α) : Prop :=
  ∀ reads reads', (m.run reads).1 = (m.run reads').1

theorem composes_steady (view : View) : Composes view Steady where
  pure _ _ _ := rfl
  record _ _ _ := rfl
  failWith _ _ _ _ := rfl
  waiting _ _ _ _ _ := rfl
  bind {_ _ m f} hm hf reads reads' := by
    have hfirst := hm reads reads'
    rw [run_bind, run_bind]
    generalize m.run reads = first at hfirst
    generalize m.run reads' = second at hfirst
    obtain ⟨outcome, after⟩ := first
    obtain ⟨outcome', after'⟩ := second
    cases hfirst
    rcases outcome with interrupt | a
    · rfl
    · exact hf a after after'

end Recording

/-- What a path shows of a resource. -/
def shownBy (view : View) (place : Span) (path : List String) (key : Key) :
    Except Interrupt Value :=
  ((project view place path key).run []).1

/-- The resources that a path leads through from a resource on. -/
def passedBy (view : View) (place : Span) (path : List String) (key : Key) : List Key :=
  ((project view place path key).run []).2

section Answers

variable {view : View} {other : Inventory} {place : Span} {type : TypeName} {front : String}
variable {path : List String} {key : Key} {reads after : List Key} {value : Value}

theorem run_record_bind {α : Type} (key : Key) (f : Unit → Recording α) (reads : List Key) :
    (record key >>= f).run reads = (f ()).run (Sorted.insert key reads) :=
  rfl

/-- A path leads to the same where the resources are the same that it leads through. -/
theorem follow_other (hsame : ∀ key ∈ ((follow view place value path).run reads).2,
      other.resource? key = view.inventory.resource? key) :
    (follow { view with inventory := other } place value path).run reads =
      (follow view place value path).run reads := by
  induction path generalizing value reads with
  | nil => cases value <;> rfl
  | cons segment rest ih =>
    cases value with
    | map entries => exact ih hsame
    | list items => exact ih hsame
    | resource key =>
      have hkey : other.resource? key = view.inventory.resource? key := by
        refine hsame key ?_
        rw [follow, run_record_bind]
        have hread : key ∈ Sorted.insert key reads := Sorted.mem_insert.2 (Or.inl rfl)
        cases view.inventory.resource? key with
        | none => exact hread
        | some resource =>
          dsimp only
          cases resource.type.schema.field? segment with
          | none => exact hread
          | some spec => exact follow_grows view place _ rest _ _ hread
      rw [follow, run_record_bind] at hsame
      rw [follow, follow, run_record_bind, run_record_bind]
      dsimp only
      rw [hkey]
      cases hresource : view.inventory.resource? key with
      | none => rfl
      | some resource =>
        rw [hresource] at hsame
        dsimp only at hsame ⊢
        cases hspec : resource.type.schema.field? segment with
        | none => rfl
        | some spec =>
          rw [hspec] at hsame
          exact ih hsame
    | _ => exact ih hsame

theorem shownBy_other (hsame : ∀ passed ∈ passedBy view place path key,
      other.resource? passed = view.inventory.resource? passed) :
    shownBy { view with inventory := other } place path key = shownBy view place path key := by
  unfold shownBy passedBy at *
  unfold project at *
  rw [run_record_bind] at hsame
  rw [run_record_bind, run_record_bind, follow_other hsame]

/-- A path to a field of the resource leads through no other. -/
theorem eq_of_passedBy {segment : String} {passed : Key}
    (h : passed ∈ passedBy view place [segment] key) :
    passed = key := by
  have hrecorded : ∀ passed, passed ∈ Sorted.insert key (Sorted.insert key []) → passed = key := by
    intro passed hpassed
    rcases Sorted.mem_insert.1 hpassed with rfl | hpassed
    · rfl
    · rcases Sorted.mem_insert.1 hpassed with rfl | hpassed
      · rfl
      · cases hpassed
  apply hrecorded
  unfold passedBy project at h
  rw [run_record_bind, follow, run_record_bind] at h
  cases hresource : view.inventory.resource? key with
  | none =>
    rw [hresource] at h
    exact h
  | some resource =>
    rw [hresource] at h
    dsimp only at h
    cases hspec : resource.type.schema.field? segment with
    | none =>
      rw [hspec] at h
      exact h
    | some spec =>
      rw [hspec] at h
      exact h

theorem listed_of_mapM {f : Key → Recording Value} (hf : ∀ key, (f key).Steady) {keys : List Key}
    {values : List Value} (hrun : (keys.mapM f).run reads = (.ok values, after)) :
    ∃ listed : List (Key × Value), listed.map Prod.fst = keys ∧ listed.map Prod.snd = values ∧
      ∀ entry ∈ listed, ((f entry.1).run []).1 = .ok entry.2 := by
  induction keys generalizing reads values with
  | nil =>
    rw [List.mapM_nil] at hrun
    cases hrun
    exact ⟨[], rfl, rfl, fun entry h => nomatch h⟩
  | cons key rest ih =>
    rw [List.mapM_cons, run_bind] at hrun
    split at hrun
    · next value between hfirst =>
      rw [run_bind] at hrun
      split at hrun
      · next found last hrest =>
        cases hrun
        obtain ⟨listed, hkeys, hvalues, hlisted⟩ := ih hrest
        refine ⟨(key, value) :: listed, by rw [List.map_cons, hkeys], by rw [List.map_cons, hvalues],
          fun entry hentry => ?_⟩
        rcases List.mem_cons.1 hentry with rfl | hentry
        · have hsteady := hf key [] reads
          rw [hfirst] at hsteady
          exact hsteady
        · exact hlisted entry hentry
      · cases hrun
    · cases hrun

/-- An answer tells what the path shows of each resource that was selected. -/
theorem query_answered (h : (query view place type front path).run reads = (.ok value, after)) :
    type ∉ view.undeclared ∧
      ∃ listed : List (Key × Value), value = .list (listed.map Prod.snd) ∧
        listed.map Prod.fst = selected view.inventory type front ∧
        ∀ entry ∈ listed, shownBy view place path entry.1 = .ok entry.2 := by
  unfold query at h
  split at h
  · cases h
  · next hdeclared =>
    rw [run_bind] at h
    split at h
    · next values between hvalues =>
      cases h
      obtain ⟨listed, hkeys, rfl, hlisted⟩ :=
        listed_of_mapM ((Recording.composes_steady view).project place path) hvalues
      exact ⟨hdeclared, listed, rfl, hkeys, hlisted⟩
    · cases h

theorem mem_selected {inventory : Inventory} (hkeyed : inventory.Keyed)
    (hhas : inventory.has key = true) (hfront : opensWith front key.name = true) :
    key ∈ selected inventory key.type front := by
  obtain ⟨resource, hresource⟩ := (inventory.has_iff key).1 hhas
  obtain ⟨hmem, rfl⟩ := hkeyed.key_of_resource? hresource
  refine List.mem_filter.2 ⟨List.mem_map_of_mem hmem, ?_⟩
  simpa using hfront

end Answers

/-! ## States inside an attempt -/

/-- The states that the evaluation of a statement comes to: what trying its parts makes of the state
that it starts from, in whatever order, frame and scope. -/
inductive Reaches (setting : Setting) (root : Node) (start : Progress) : Progress → Prop
  | start : Reaches setting root start start
  | tried {p after : Progress} {node : Node} {frame : Frame} {depth : Nat} {scope : Scope}
      {reads : List Key} {credentials : Option String} {outcome : Except Interrupt Unit}
      (hbefore : Reaches setting root start p)
      (hpart : PartOf start.inventory.virtuals root node)
      (hrun : (runStatement (Evaluator.atDepth setting depth) node frame).run
        { p with scope := scope, reads := reads, credentials := credentials } = (outcome, after)) :
      Reaches setting root start after

theorem Reaches.grown {setting : Setting} {root : Node} {start p : Progress}
    (h : Reaches setting root start p) :
    start.inventory.Grown p.inventory := by
  induction h with
  | start => exact .refl
  | @tried p after node frame depth scope reads credentials outcome _ _ hrun ih =>
    have hgrown := runStatement_grows (atDepth_grows setting depth) node frame
      { p with scope := scope, reads := reads, credentials := credentials }
    rw [hrun] at hgrown
    exact ih.trans hgrown

/-! ## Types that are noted as undeclared -/

/-- The types of a statement are noted under its place. -/
def Round.Notes (round : Round) (inventory : Inventory) (task : Task) : Prop :=
  ∀ type ∈ declaredTypes inventory task.node,
    ∃ types, Table.get? round.unfinished (statementSpan task.node) = some types ∧ type ∈ types

section Noting

variable {inventory : Inventory} {round after : Round} {task other : Task} {tasks : List Task}

/-- Notes the types of one statement. -/
def noting (inventory : Inventory) (table : Table Span (List TypeName)) (task : Task) :
    Table Span (List TypeName) :=
  let types := declaredTypes inventory task.node
  if types.isEmpty then table else Table.set table (statementSpan task.node) types

theorem noting_distinct {table : Table Span (List TypeName)} (h : Table.Distinct table)
    (task : Task) :
    Table.Distinct (noting inventory table task) := by
  unfold noting
  dsimp only
  split
  · exact h
  · exact Table.distinct_set h _ _

theorem get?_notingAll {table : Table Span (List TypeName)} {span : Span}
    (h : span ∉ tasks.map fun task => statementSpan task.node) :
    Table.get? (tasks.foldl (noting inventory) table) span = Table.get? table span := by
  induction tasks generalizing table with
  | nil => rfl
  | cons task rest ih =>
    rw [List.map_cons, List.mem_cons, not_or] at h
    rw [List.foldl_cons, ih h.2]
    unfold noting
    dsimp only
    split
    · rfl
    · rw [Table.get?_set, if_neg (Ne.symm h.1)]

theorem noted_of_notingAll {table : Table Span (List TypeName)}
    (hspans : (tasks.map fun task => statementSpan task.node).Nodup) (htask : task ∈ tasks)
    {type : TypeName} (htype : type ∈ declaredTypes inventory task.node) :
    Table.get? (tasks.foldl (noting inventory) table) (statementSpan task.node) =
      some (declaredTypes inventory task.node) := by
  induction tasks generalizing table with
  | nil => cases htask
  | cons first rest ih =>
    obtain ⟨hnew, hspans⟩ := List.nodup_cons.1 hspans
    rw [List.foldl_cons]
    rcases List.mem_cons.1 htask with rfl | htask
    · have hsome : (declaredTypes inventory task.node).isEmpty = false :=
        List.isEmpty_eq_false_iff_exists_mem.2 ⟨type, htype⟩
      rw [get?_notingAll hnew]
      unfold noting
      dsimp only
      rw [hsome, if_neg Bool.false_ne_true, Table.get?_set_self]
    · exact ih hspans htask

theorem distinct_notingAll {table : Table Span (List TypeName)} (h : Table.Distinct table)
    (tasks : List Task) :
    Table.Distinct (tasks.foldl (noting inventory) table) := by
  induction tasks generalizing table with
  | nil => exact h
  | cons task rest ih => exact ih (noting_distinct h task)

/-- The types of every statement are noted before the first pass. -/
theorem notes_unfinishedOf (hspans : (tasks.map fun task => statementSpan task.node).Nodup)
    (hunfinished : round.unfinished = unfinishedOf inventory tasks) (htask : task ∈ tasks) :
    round.Notes inventory task := by
  have hnoting : round.unfinished = tasks.foldl (noting inventory) [] := hunfinished
  intro type htype
  rw [hnoting]
  exact ⟨_, noted_of_notingAll hspans htask htype, htype⟩

/-- What is noted of another statement is taken for undeclared. -/
theorem Round.Notes.undeclared (h : round.Notes inventory other)
    (hspan : statementSpan other.node ≠ statementSpan task.node)
    (hsettling : round.settling = false) {type : TypeName}
    (htype : type ∈ declaredTypes inventory other.node) :
    type ∈ round.undeclared task := by
  obtain ⟨types, hnoted, hmem⟩ := h type htype
  unfold Round.undeclared undeclaredBesides
  rw [hsettling, if_neg Bool.false_ne_true, List.mem_flatMap]
  exact ⟨_, List.mem_filter.2 ⟨Table.mem_of_get? hnoted, decide_eq_true hspan⟩, hmem⟩

/-- What is noted of the statements that are left stays when another one gets done. -/
theorem Round.Notes.erase (h : round.Notes inventory other) (hdistinct : Table.Distinct round.unfinished)
    (hspan : statementSpan other.node ≠ statementSpan task.node)
    (hunfinished : after.unfinished = Table.erase round.unfinished (statementSpan task.node)) :
    after.Notes inventory other := by
  intro type htype
  rw [hunfinished, Table.get?_erase hdistinct, if_neg (Ne.symm hspan)]
  exact h type htype

end Noting

/-! ## Attempts after an answer -/

namespace Round

/-- No attempt at a statement puts another resource under a key. -/
def Leaves (setup : EvaluationSetup) (attempts : List (Round × Task)) (task : Task) (key : Key) :
    Prop :=
  ∀ other ∈ attempts, other.2 = task → ∀ after deferred,
    other.1.attempt setup task = .ok (after, deferred) →
      after.inventory.resource? key = other.1.inventory.resource? key

/-- What holds ever since an attempt: apart from its own, the statements that are left declare only
types that it took for undeclared, and a resource of another type is what it was, if the statement
itself leaves it alone. -/
structure Since (setup : EvaluationSetup) (inventory : Inventory) (past : List (Round × Task))
    (attempt : Round × Task) (round : Round) (tasks : List Task) : Prop where
  waiting : ∀ task ∈ tasks, task ≠ attempt.2 → ∀ type ∈ declaredTypes inventory task.node,
    type ∈ attempt.1.undeclared attempt.2
  kept : ∀ key : Key, key.type ∉ attempt.1.undeclared attempt.2 →
    Leaves setup past attempt.2 key →
      round.inventory.resource? key = attempt.1.inventory.resource? key

/-- A round with statements left whose types are noted, and what holds since earlier attempts. -/
structure Watched (setup : EvaluationSetup) (registry : Registry) (inventory : Inventory)
    (past : List (Round × Task)) (round : Round) (tasks : List Task) : Prop where
  sound : round.inventory.Sound registry
  virtuals : round.inventory.virtuals = inventory.virtuals
  spans : (tasks.map fun task => statementSpan task.node).Nodup
  distinct : Table.Distinct round.unfinished
  notes : ∀ task ∈ tasks, round.Notes inventory task
  soundBefore : ∀ attempt ∈ past, attempt.1.inventory.Sound registry
  since : ∀ attempt ∈ past, attempt.1.settling = false →
    Since setup inventory past attempt round tasks

section Watching

variable {setup : EvaluationSetup} {registry : Registry} {inventory : Inventory}
variable {round after : Round} {task : Task} {tasks rest front back : List Task}
variable {deferred : Option Deferred} {past : List (Round × Task)} {attempt : Round × Task}
variable {key : Key}

theorem unfinished_of_attempt (h : round.attempt setup task = .ok (after, deferred)) :
    after.unfinished = if deferred.isNone then
      Table.erase round.unfinished (statementSpan task.node) else round.unfinished := by
  rw [attempt_eq] at h
  split at h
  · cases h
    rfl
  · cases h
    rfl
  · cases h

/-- An attempt leaves the resources alone whose types the statement may not declare. -/
theorem Watched.leaves (h : Watched setup registry inventory past round tasks)
    (hnamed : registry.Named) (hrun : round.attempt setup task = .ok (after, deferred))
    (hkey : key.type ∉ declaredTypes inventory task.node) :
    after.inventory.resource? key = round.inventory.resource? key := by
  have htypes : declaredTypes round.inventory task.node = declaredTypes inventory task.node := by
    unfold declaredTypes Inventory.virtual?
    rw [h.virtuals]
  have hgrown := attempt_adds (h.sound.registry_eq ▸ hnamed) hrun
  exact (hgrown.resource?_eq h.sound.oneHome.distinct (htypes ▸ hkey)).1

theorem Leaves.of_append (h : Leaves setup (past ++ [attempt]) task key) :
    Leaves setup past task key :=
  fun other hother => h other (List.mem_append_left _ hother)

theorem Since.next (hsince : Since setup inventory past attempt round tasks)
    (h : Watched setup registry inventory past round tasks) (hnamed : registry.Named)
    (htask : task ∈ tasks) (hrun : round.attempt setup task = .ok (after, deferred))
    (hrest : rest.Sublist tasks) :
    Since setup inventory (past ++ [(round, task)]) attempt after rest := by
  refine ⟨fun other hother => hsince.waiting other (hrest.subset hother), fun key hkey hleaves => ?_⟩
  rw [← hsince.kept key hkey hleaves.of_append]
  by_cases hsame : task = attempt.2
  · exact hleaves (round, task) (List.mem_append_right _ List.mem_cons_self) hsame after deferred
      (hsame ▸ hrun)
  · exact h.leaves hnamed hrun fun htype => hkey (hsince.waiting task htask hsame _ htype)

/-- Two statements that are left stand at different places. -/
theorem Watched.span_ne (h : Watched setup registry inventory past round tasks) {other : Task}
    (hother : other ∈ tasks) (htask : task ∈ tasks) (hne : other ≠ task) :
    statementSpan other.node ≠ statementSpan task.node :=
  fun heq => hne (List.inj_on_of_nodup_map h.spans hother htask heq)

theorem Watched.next (h : Watched setup registry inventory past round tasks)
    (hnamed : registry.Named) (htask : task ∈ tasks)
    (hrun : round.attempt setup task = .ok (after, deferred)) (hrest : rest.Sublist tasks)
    (hdistinct : Table.Distinct after.unfinished)
    (hnotes : ∀ other ∈ rest, after.Notes inventory other) :
    Watched setup registry inventory (past ++ [(round, task)]) after rest := by
  have hgrown := attempt_adds (h.sound.registry_eq ▸ hnamed) hrun
  refine ⟨h.sound.grown (attempt_grown hrun), hgrown.same.2.trans h.virtuals,
    h.spans.sublist (hrest.map _), hdistinct, hnotes, fun attempt hattempt => ?_,
    fun attempt hattempt hsettling => ?_⟩
  · rcases List.mem_append.1 hattempt with hattempt | hattempt
    · exact h.soundBefore attempt hattempt
    · obtain rfl := List.mem_singleton.1 hattempt
      exact h.sound
  · rcases List.mem_append.1 hattempt with hattempt | hattempt
    · exact (h.since attempt hattempt hsettling).next h hnamed htask hrun hrest
    · obtain rfl := List.mem_singleton.1 hattempt
      refine ⟨fun other hother hne type htype => ?_, fun key _ hleaves => ?_⟩
      · have hmem := hrest.subset hother
        exact (h.notes other hmem).undeclared (h.span_ne hmem htask hne) hsettling htype
      · exact hleaves (round, task) (List.mem_append_right _ List.mem_cons_self) rfl after deferred
          hrun

theorem Watched.of_done (h : Watched setup registry inventory past round (front ++ task :: back))
    (hnamed : registry.Named) (hrun : round.attempt setup task = .ok (after, none)) :
    Watched setup registry inventory (past ++ [(round, task)]) after (front ++ back) := by
  have htask : task ∈ front ++ task :: back := List.mem_append_right _ List.mem_cons_self
  have hrest : (front ++ back).Sublist (front ++ task :: back) :=
    (List.sublist_cons_self task back).append_left front
  have hunfinished := unfinished_of_attempt hrun
  obtain ⟨honce, -⟩ := List.nodup_cons.1 (List.nodup_middle.1 (List.Nodup.of_map _ h.spans))
  refine h.next hnamed htask hrun hrest (hunfinished ▸ Table.distinct_erase h.distinct _)
    fun other hother => (h.notes other (hrest.subset hother)).erase h.distinct ?_ hunfinished
  exact h.span_ne (hrest.subset hother) htask fun heq => honce (heq ▸ hother)

theorem Watched.of_deferred (h : Watched setup registry inventory past round tasks)
    (hnamed : registry.Named) (htask : task ∈ tasks) {d : Deferred}
    (hrun : round.attempt setup task = .ok (after, some d)) :
    Watched setup registry inventory (past ++ [(round, task)]) after tasks := by
  have hunfinished : after.unfinished = round.unfinished := unfinished_of_attempt hrun
  refine h.next hnamed htask hrun (List.Sublist.refl _) (hunfinished ▸ h.distinct)
    fun other hother type htype => ?_
  rw [hunfinished]
  exact h.notes other hother type htype

end Watching

end Round

/-! ## Statements of parsed files -/

section Parsed

variable {inventory : Inventory} {file : SourceFile} {files : List SourceFile}
variable {start : Round} {indices : List Nat}

/-- The first pass has the statements of the files before it, and their types are noted. -/
theorem noted_of_start (hstart : Round.start inventory files = .ok (start, indices)) :
    start.tasks = tasksOf (files.zip indices) ∧
      start.unfinished = unfinishedOf start.inventory start.tasks := by
  obtain ⟨taken, -, hstart⟩ := bind_eq_ok.1 hstart
  cases hstart
  exact ⟨rfl, rfl⟩

theorem spans_of_parse {path source : String} (h : Language.parse path source = .ok file) :
    (file.body.map statementSpan).Nodup ∧ ∀ node ∈ file.body, (statementSpan node).file = path := by
  obtain ⟨places, hplaces, hordered⟩ := Language.parse_stands h
  have hspans : file.body.map statementSpan = places.map (Language.Cursor.spanAt path) := by
    have hspans := congrArg (List.map fun span? => Option.getD span? Span.generated) hplaces
    rw [List.map_map, List.map_map] at hspans
    exact hspans
  refine ⟨?_, fun node hnode => ?_⟩
  · rw [hspans]
    exact List.Nodup.map (Language.Cursor.spanAt_injective path) (hordered.imp fun hless => hless.ne)
  · have hmem := List.mem_map_of_mem (f := statementSpan) hnode
    rw [hspans] at hmem
    obtain ⟨place, -, hplace⟩ := List.mem_map.1 hmem
    rw [← hplace]
    rfl

theorem fst_zip_sublist {α β : Type} (items : List α) (others : List β) :
    ((items.zip others).map Prod.fst).Sublist items := by
  induction items generalizing others with
  | nil => exact List.Sublist.slnil
  | cons item rest ih =>
    cases others with
    | nil => exact List.nil_sublist _
    | cons other others => exact (ih others).cons_cons item

/-- The statements of parsed files with different paths stand at different places. -/
theorem spans_of_parsed
    (hparsed : ∀ file ∈ files, ∃ source, Language.parse file.path source = .ok file)
    (hpaths : (files.map SourceFile.path).Nodup)
    (hstart : Round.start inventory files = .ok (start, indices)) :
    (start.tasks.map fun task => statementSpan task.node).Nodup := by
  have hfiles : ∀ entry ∈ (files.zip indices).zipIdx, entry.1.1 ∈ files := fun entry hentry =>
    (List.of_mem_zip (List.fst_mem_of_mem_zipIdx hentry)).1
  have hsub : ((files.zip indices).zipIdx.map fun entry => entry.1.1.path).Sublist
      (files.map SourceFile.path) := by
    have hzip := (fst_zip_sublist files indices).map SourceFile.path
    rw [← List.zipIdx_map_fst 0 (files.zip indices), List.map_map, List.map_map] at hzip
    exact hzip
  rw [(noted_of_start hstart).1]
  unfold tasksOf
  rw [List.map_flatMap, List.nodup_flatMap]
  refine ⟨fun entry hentry => ?_, ?_⟩
  · obtain ⟨source, hsource⟩ := hparsed _ (hfiles entry hentry)
    rw [List.map_map]
    exact (spans_of_parse hsource).1.sublist (List.filter_sublist.map _)
  · refine (List.pairwise_map.1 (hpaths.sublist hsub)).imp_of_mem fun {a b} ha hb hne => ?_
    have hat : ∀ entry ∈ (files.zip indices).zipIdx, ∀ span ∈
        ((entry.1.1.body.filter fun node => !isDefinition node).map fun node =>
          (⟨entry.2, entry.1.2, node⟩ : Task)).map fun task => statementSpan task.node,
        span.file = entry.1.1.path := by
      intro entry hentry span hspan
      obtain ⟨source, hsource⟩ := hparsed _ (hfiles entry hentry)
      rw [List.map_map] at hspan
      obtain ⟨node, hnode, rfl⟩ := List.mem_map.1 hspan
      exact (spans_of_parse hsource).2 node (List.mem_filter.1 hnode).1
    exact fun span hleft hright => hne ((hat a ha span hleft).symm.trans (hat b hb span hright))

end Parsed

/-! ## Answers and what there is in the end -/

section Result

variable {setup : EvaluationSetup} {registry : Registry} {files : List SourceFile}
variable {start round : Round} {indices : List Nat} {result : Inventory} {task : Task}

theorem watched_of_evaluates (hnamed : registry.Named)
    (hstart : Round.start (.empty registry) files = .ok (start, indices))
    (hspans : (start.tasks.map fun task => statementSpan task.node).Nodup)
    (h : evaluateFiles setup (.empty registry) files = .ok result) :
    ∃ last : Round, (∀ key, result.resource? key = last.inventory.resource? key) ∧
      last.Watched setup registry start.inventory
        (start.history setup (passBound start.tasks)) [] := by
  obtain ⟨start', indices', last, hstart', hrun, rfl⟩ := evaluateFiles_eq_ok h
  obtain ⟨rfl, rfl⟩ := Prod.mk.inj (Except.ok.inj (hstart.symm.trans hstart'))
  have hunfinished := (noted_of_start hstart).2
  have hempty : Table.Distinct ([] : Table Span (List TypeName)) := List.nodup_nil
  have hfirst : start.Watched setup registry start.inventory [] start.tasks :=
    { sound := Round.start_sound (Inventory.sound_empty registry) hstart
      virtuals := rfl
      spans := hspans
      distinct := hunfinished ▸ distinct_notingAll hempty _
      notes := fun task htask => notes_unfinishedOf hspans hunfinished htask
      soundBefore := fun attempt hattempt => nomatch hattempt
      since := fun attempt hattempt => nomatch hattempt }
  refine ⟨last, fun key => resource?_result last indices key, ?_⟩
  exact Round.run_keeps (fun past round tasks =>
      round.Watched setup registry start.inventory past tasks)
    (fun _ _ _ _ _ _ hbefore hattempt => hbefore.of_done hnamed hattempt)
    (fun _ _ _ _ _ _ _ hbefore hattempt =>
      hbefore.of_deferred hnamed (List.mem_append_right _ List.mem_cons_self) hattempt)
    (fun _ _ _ _ _ hbefore => ⟨hbefore.sound, hbefore.virtuals, hbefore.spans, hbefore.distinct,
      hbefore.notes, hbefore.soundBefore, fun attempt hattempt hsettling =>
        ⟨(hbefore.since attempt hattempt hsettling).waiting,
          (hbefore.since attempt hattempt hsettling).kept⟩⟩)
    [] hfirst hrun

/-- A resource that the statement of an attempt has nothing to do with: the attempt has left what
is under the key alone up to a state, and so does every attempt at the statement. -/
structure Round.Foreign (setup : EvaluationSetup) (attempts : List (Round × Task))
    (attempt : Round × Task) (p : Progress) (key : Key) : Prop where
  before : p.inventory.resource? key = attempt.1.inventory.resource? key
  leaves : Round.Leaves setup attempts attempt.2 key

/-- A statement without blocks has nothing to do with any resource. -/
theorem Round.leaves_of_types (attempts : List (Round × Task)) (htypes : typesIn task.node = [])
    (key : Key) :
    Round.Leaves setup attempts task key := by
  rintro ⟨round, task⟩ - rfl after deferred hrun
  have hquiet := runStatement_quiet (setup.evaluator (round.undeclared task)) htypes
    { file := task.file }
  have hsame := hquiet.inventory (round.progress task)
  rw [attempt_eq] at hrun
  split at hrun
  · next q hq =>
    cases hrun
    rw [hq] at hsame
    exact congrArg (fun inventory => inventory.resource? key) hsame
  · next reasons q hq =>
    cases hrun
    rw [hq] at hsame
    exact congrArg (fun inventory => inventory.resource? key) hsame
  · cases hrun

/-- A type query that is answered while nothing settles lists every resource of the type, with the
given front of its name, that there is in the end, unless its own statement has to do with it.  It
shows of each what there is in the end, unless the path leads through another resource that the
statement has to do with, or of a type that other statements may still declare. -/
theorem evaluateFiles_lists (hnamed : registry.Named)
    (hparsed : ∀ file ∈ files, ∃ source, Language.parse file.path source = .ok file)
    (hpaths : (files.map SourceFile.path).Nodup)
    (hstart : Round.start (.empty registry) files = .ok (start, indices))
    (h : evaluateFiles setup (.empty registry) files = .ok result)
    (hattempt : (round, task) ∈ start.history setup (passBound start.tasks))
    (hsettling : round.settling = false) {p : Progress}
    (hreaches : Reaches ⟨setup.mode, setup.current, round.undeclared task⟩ task.node
      (round.progress task) p)
    {view : View} {frame : Frame} {location : Span}
    (hview : view = p.view ⟨setup.mode, setup.current, round.undeclared task⟩ frame location)
    {place : Span} {type : TypeName} {front : String} {path : List String} {reads after : List Key}
    {value : Value} (hanswer : (query view place type front path).run reads = (.ok value, after)) :
    ∃ listed : List (Key × Value), value = .list (listed.map Prod.snd) ∧
      ∀ key, result.has key = true → key.type = type → opensWith front key.name = true →
        Round.Foreign setup (start.history setup (passBound start.tasks)) (round, task) p key →
          ∃ found, (key, found) ∈ listed ∧
            ((∀ passed ∈ passedBy view place path key, passed = key ∨
                passed.type ∉ round.undeclared task ∧
                  Round.Foreign setup (start.history setup (passBound start.tasks)) (round, task) p
                    passed) →
              shownBy { view with inventory := result } place path key = .ok found) := by
  obtain ⟨last, hresult, hwatched⟩ :=
    watched_of_evaluates hnamed hstart (spans_of_parsed hparsed hpaths hstart) h
  have hsince := hwatched.since (round, task) hattempt hsettling
  have hsound := (hwatched.soundBefore (round, task) hattempt).grown hreaches.grown
  subst hview
  -- what the statement has nothing to do with is final, when its type is declared
  have hsame : ∀ key, key.type ∉ round.undeclared task →
      Round.Foreign setup (start.history setup (passBound start.tasks)) (round, task) p key →
        result.resource? key = p.inventory.resource? key := by
    intro key hkey hforeign
    rw [hresult, hsince.kept key hkey hforeign.leaves, hforeign.before]
  obtain ⟨hdeclared, listed, hvalue, hkeys, hshown⟩ := query_answered hanswer
  refine ⟨listed, hvalue, fun key hhas htype hfront hforeign => ?_⟩
  subst htype
  have hhere : p.inventory.has key = true := by
    unfold Inventory.has at hhas ⊢
    rw [← hsame key hdeclared hforeign]
    exact hhas
  have hmem : key ∈ listed.map Prod.fst := hkeys ▸ mem_selected hsound.oneHome.keyed hhere hfront
  obtain ⟨⟨key, found⟩, hentry, rfl⟩ := List.mem_map.1 hmem
  refine ⟨found, hentry, fun hpassed => ?_⟩
  rw [shownBy_other]
  · exact hshown _ hentry
  · intro passed hmem
    rcases hpassed passed hmem with rfl | ⟨hdeclared', hforeign'⟩
    · exact hsame _ hdeclared hforeign
    · exact hsame passed hdeclared' hforeign'

/-! ### Boxes that are listed -/

/-- What the expressions of a statement see before anything in it is evaluated. -/
def Round.openingView (setup : EvaluationSetup) (round : Round) (task : Task) : View :=
  (round.progress task).view ⟨setup.mode, setup.current, round.undeclared task⟩
    { file := task.file } (statementSpan task.node)

/-- A list of all boxes, and an instance of a template that is defined elsewhere. -/
def askingText : String :=
  "boxes: $(m::box | path)\nm::wrap i\nend\n"

/-- A template with a box in it, and a loop over two names. -/
def declaringText : String :=
  "@virtual 'm::wrap'\n  m::box own\n    path: own\n  end\n@end\n" ++
    "@for n in [a, b]\n  m::box $(n)\n    path: $(n)\n  end\n@end\n"

/-- The list waits for the instance and for the loop in the other file, and has the boxes of
both. -/
theorem evaluateFiles_lists_boxes :
    ∃ asking declaring start indices result round task, ∃ listed : List (Key × Value),
      Language.parse "asking" askingText = .ok asking ∧
      Language.parse "declaring" declaringText = .ok declaring ∧
      Round.start (.empty boxRegistry) [asking, declaring] = .ok (start, indices) ∧
      evaluateFiles boxSetup (.empty boxRegistry) [asking, declaring] = .ok result ∧
      (round, task) ∈ start.history boxSetup (passBound start.tasks) ∧ round.settling = false ∧
      ((query (round.openingView boxSetup task) (lineStart 1) boxType.name "" ["path"]).run []).1 =
        .ok (.list (listed.map Prod.snd)) ∧
      textsOf (.list (listed.map Prod.snd)) = ["own", "a", "b"] ∧
      ∀ key, result.has key = true → key.type = boxType.name → ∃ found, (key, found) ∈ listed ∧
        shownBy { round.openingView boxSetup task with inventory := result } (lineStart 1) ["path"]
          key = .ok found := by
  have hrun : (Language.parse "asking" askingText).toOption.bind (fun asking =>
      (Language.parse "declaring" declaringText).toOption.bind fun declaring =>
        (Round.start (.empty boxRegistry) [asking, declaring]).toOption.bind fun started =>
          (evaluateFiles boxSetup (.empty boxRegistry) [asking, declaring]).toOption.bind fun _ =>
            (started.1.history boxSetup (passBound started.1.tasks))[3]?.bind fun attempt =>
              ((query (attempt.1.openingView boxSetup attempt.2) (lineStart 1) boxType.name ""
                  ["path"]).run []).1.toOption.map fun value =>
                (attempt.1.settling, typesIn attempt.2.node, textsOf value)) =
      some (false, [], ["own", "a", "b"]) := by decide +kernel
  obtain ⟨asking, hasking, hrun⟩ := Option.bind_eq_some_iff.1 hrun
  obtain ⟨declaring, hdeclaring, hrun⟩ := Option.bind_eq_some_iff.1 hrun
  obtain ⟨⟨start, indices⟩, hstart, hrun⟩ := Option.bind_eq_some_iff.1 hrun
  obtain ⟨result, hresult, hrun⟩ := Option.bind_eq_some_iff.1 hrun
  obtain ⟨⟨round, task⟩, hattempt, hrun⟩ := Option.bind_eq_some_iff.1 hrun
  obtain ⟨value, hvalue, hrun⟩ := Option.map_eq_some_iff.1 hrun
  obtain ⟨hsettling, hrun⟩ := Prod.mk.inj hrun
  obtain ⟨htypes, htexts⟩ := Prod.mk.inj hrun
  rw [toOption_eq_some] at hasking hdeclaring hstart hresult hvalue
  have hparsed : ∀ file ∈ [asking, declaring],
      ∃ source, Language.parse file.path source = .ok file := by
    intro file hfile
    simp only [List.mem_cons, List.not_mem_nil, or_false] at hfile
    rcases hfile with rfl | rfl
    · exact ⟨askingText, (Language.path_of_parse hasking).symm ▸ hasking⟩
    · exact ⟨declaringText, (Language.path_of_parse hdeclaring).symm ▸ hdeclaring⟩
  have hpaths : ([asking, declaring].map SourceFile.path).Nodup := by
    rw [List.map_cons, List.map_cons, Language.path_of_parse hasking,
      Language.path_of_parse hdeclaring]
    decide
  have hmem := List.mem_of_getElem? hattempt
  obtain ⟨listed, rfl, hlists⟩ := evaluateFiles_lists (Registry.named_empty.addType boxType) hparsed
    hpaths hstart hresult hmem hsettling .start rfl (Prod.ext hvalue rfl)
  refine ⟨asking, declaring, start, indices, result, round, task, listed, hasking, hdeclaring,
    hstart, hresult, hmem, hsettling, hvalue, htexts, fun key hhas htype => ?_⟩
  obtain ⟨found, hfound, hshown⟩ := hlists key hhas htype rfl
    ⟨rfl, Round.leaves_of_types _ htypes key⟩
  exact ⟨found, hfound, hshown fun passed hpassed => Or.inl (eq_of_passedBy hpassed)⟩

/-- A lantern has a path and a field that changes in place. -/
def lanternType : ResourceType :=
  ⟨⟨"m::lantern", rfl⟩, [⟨"path", false, false, true, false⟩, ⟨"v", true, true, false, false⟩], {}⟩

/-- A loop over two lanterns that is deferred at the second, a box that holds the first, a list of
what the boxes hold, and a variable that is bound anew before the loop is tried again. -/
def lanternText : String :=
  "x: a\n@for n in [l, k]\n  m::lantern $(n)\n    path: $(x)\n" ++
    "    @if $(n) == k\n      v: $(late)\n    @end\n  end\n@end\n" ++
    "m::box b\n  path: b\n  v: $(m::lantern l)\nend\n" ++
    "paths: $(m::box | v.path)\nx: b\nlate: z\n"

/-- The list has the path of the lantern that the deferred loop has left, and in the end the
lantern has another. -/
theorem stale_path_listed :
    ∃ file start indices result round task value,
      Language.parse "main" lanternText = .ok file ∧
      Round.start (.empty (boxRegistry.addType lanternType)) [file] = .ok (start, indices) ∧
      evaluateFiles boxSetup (.empty (boxRegistry.addType lanternType)) [file] = .ok result ∧
      (round, task) ∈ start.history boxSetup (passBound start.tasks) ∧ round.settling = false ∧
      typesIn task.node = [] ∧
      ((query (round.openingView boxSetup task) (statementSpan task.node) boxType.name ""
        ["v", "path"]).run []).1 = .ok value ∧
      textsOf value = ["a"] ∧ result.has (boxKey "b") = true ∧
      ∃ found, shownBy { round.openingView boxSetup task with inventory := result }
        (statementSpan task.node) ["v", "path"] (boxKey "b") = .ok found ∧
          found.asText? = some "b" := by
  have hrun : (Language.parse "main" lanternText).toOption.bind (fun file =>
      (Round.start (.empty (boxRegistry.addType lanternType)) [file]).toOption.bind fun started =>
        (evaluateFiles boxSetup (.empty (boxRegistry.addType lanternType)) [file]).toOption.bind
          fun result =>
            (started.1.history boxSetup (passBound started.1.tasks))[3]?.bind fun attempt =>
              ((query (attempt.1.openingView boxSetup attempt.2) (statementSpan attempt.2.node)
                  boxType.name "" ["v", "path"]).run []).1.toOption.bind fun value =>
                (shownBy { attempt.1.openingView boxSetup attempt.2 with inventory := result }
                    (statementSpan attempt.2.node) ["v", "path"] (boxKey "b")).toOption.map
                  fun found => (attempt.1.settling, typesIn attempt.2.node, textsOf value,
                    result.has (boxKey "b"), found.asText?)) =
      some (false, [], ["a"], true, some "b") := by decide +kernel
  obtain ⟨file, hfile, hrun⟩ := Option.bind_eq_some_iff.1 hrun
  obtain ⟨⟨start, indices⟩, hstart, hrun⟩ := Option.bind_eq_some_iff.1 hrun
  obtain ⟨result, hresult, hrun⟩ := Option.bind_eq_some_iff.1 hrun
  obtain ⟨⟨round, task⟩, hattempt, hrun⟩ := Option.bind_eq_some_iff.1 hrun
  obtain ⟨value, hvalue, hrun⟩ := Option.bind_eq_some_iff.1 hrun
  obtain ⟨found, hfound, hrun⟩ := Option.map_eq_some_iff.1 hrun
  simp only [Prod.mk.injEq] at hrun
  obtain ⟨hsettling, htypes, htexts, hhas, htext⟩ := hrun
  rw [toOption_eq_some] at hfile hstart hresult hvalue hfound
  exact ⟨file, start, indices, result, round, task, value, hfile, hstart, hresult,
    List.mem_of_getElem? hattempt, hsettling, htypes, hvalue, htexts, hhas, found, hfound, htext⟩

end Result

end Provision

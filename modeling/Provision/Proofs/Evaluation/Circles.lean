import Provision.Proofs.Evaluation.History
import Provision.Proofs.Evaluation.Keeping
import Provision.Proofs.Graph.Cycles

/-!
# Circles of stuck declarations

When an evaluation gives up, it shows cycles of the keys that stuck statements
declare.  Each key on a cycle waits for the next one, and some cycle is shown when
declarations wait for each other in a circle.  A declaration that is evaluated again
is the only one that can get stuck, and as its own resource is there, it does not
wait for itself.
-/

namespace Provision

open Relation (TransGen)
open Provision.Language (Node SourceFile)

/-- A stuck statement that declares the first key waits for the second one, which a stuck statement
declares as well. -/
structure DefersOn (stuck : List StuckStatement) (key target : Key) : Prop where
  waits : ∃ statement ∈ stuck, statement.key = some key ∧
    ∃ deferral ∈ statement.deferrals, deferral.reason = .resource target
  declared : ∃ statement ∈ stuck, statement.key = some target

/-! ## Edges -/

section Edges

variable {stuck : List StuckStatement} {declared : List Key} {key target : Key}

/-- The declared keys that a statement waits for. -/
def StuckStatement.targets (declared : List Key) (statement : StuckStatement) : List Key :=
  statement.deferrals.filterMap fun d =>
    match d.reason with
    | .resource target => if target ∈ declared then some target else none
    | _ => none

theorem StuckStatement.mem_targets {statement : StuckStatement} :
    target ∈ statement.targets declared ↔
      (∃ deferral ∈ statement.deferrals, deferral.reason = .resource target) ∧
        target ∈ declared := by
  unfold targets
  rw [List.mem_filterMap]
  constructor
  · rintro ⟨⟨span, reason⟩, hdeferral, htarget⟩
    cases reason with
    | resource other =>
      obtain ⟨hdeclared, heq⟩ := Option.ite_none_right_eq_some.1 htarget
      cases heq
      exact ⟨⟨_, hdeferral, rfl⟩, hdeclared⟩
    | _ => cases htarget
  · rintro ⟨⟨⟨span, reason⟩, hdeferral, rfl⟩, hdeclared⟩
    exact ⟨_, hdeferral, if_pos hdeclared⟩

/-- The edges with those of one more statement. -/
def StuckStatement.join (declared : List Key) (edges : Graph.Edges Key)
    (statement : StuckStatement) : Graph.Edges Key :=
  match statement.key with
  | none => edges
  | some key =>
    Table.set edges key (Sorted.union ((Table.get? edges key).getD []) (statement.targets declared))

theorem StuckStatement.leads_join {edges : Graph.Edges Key} {statement : StuckStatement} :
    Graph.Leads (statement.join declared edges) key target ↔
      Graph.Leads edges key target ∨
        statement.key = some key ∧ target ∈ statement.targets declared := by
  unfold join Graph.Leads
  cases hkey : statement.key with
  | none => exact ⟨Or.inl, fun h => h.resolve_right fun h => nomatch h.1⟩
  | some own =>
    dsimp only
    rw [Table.get?_set, Option.some_inj]
    by_cases hown : own = key
    · subst hown
      rw [if_pos rfl, Option.getD_some, Sorted.mem_union]
      exact or_congr_right (and_iff_right rfl).symm
    · rw [if_neg hown]
      exact ⟨Or.inl, fun h => h.resolve_right fun h => hown h.1⟩

theorem leads_joinAll {edges : Graph.Edges Key} :
    Graph.Leads (stuck.foldl (StuckStatement.join declared) edges) key target ↔
      Graph.Leads edges key target ∨
        ∃ statement ∈ stuck, statement.key = some key ∧ target ∈ statement.targets declared := by
  induction stuck generalizing edges with
  | nil => exact ⟨Or.inl, fun h => h.resolve_right fun ⟨_, h, _⟩ => nomatch h⟩
  | cons first rest ih =>
    rw [List.foldl_cons, ih, StuckStatement.leads_join, List.exists_mem_cons_iff, or_assoc]

/-- The edges lead from each stuck declaration to those that it waits for. -/
theorem leads_waitingEdges :
    Graph.Leads (waitingEdges stuck) key target ↔ DefersOn stuck key target := by
  have hfold : waitingEdges stuck =
      stuck.foldl (StuckStatement.join (stuck.filterMap StuckStatement.key)) [] := rfl
  have hnone : ¬ Graph.Leads ([] : Graph.Edges Key) key target := nofun
  rw [hfold, leads_joinAll, or_iff_right hnone]
  simp only [StuckStatement.mem_targets, List.mem_filterMap]
  constructor
  · rintro ⟨statement, hstatement, hkey, hwaits, hdeclared⟩
    exact ⟨⟨statement, hstatement, hkey, hwaits⟩, hdeclared⟩
  · rintro ⟨⟨statement, hstatement, hkey, hwaits⟩, hdeclared⟩
    exact ⟨statement, hstatement, hkey, hwaits, hdeclared⟩

end Edges

/-- Giving up shows cycles of the declarations that got stuck. -/
theorem reports_ofStuck (stuck : List StuckStatement) :
    Graph.Reports (DefersOn stuck) (Graph.cycles (waitingEdges stuck)) := by
  have hedges : Graph.Leads (waitingEdges stuck) = DefersOn stuck := by
    funext key target
    exact propext leads_waitingEdges
  exact hedges ▸ Graph.reports_cycles (waitingEdges stuck)

/-- An evaluation fails with an account of stuck statements only where it gives up. -/
theorem cycles_eq_of_evaluateFiles {setup : EvaluationSetup} {inventory : Inventory}
    {files : List SourceFile} {stuck : List StuckStatement} {cycles : List (List Key)}
    (h : evaluateFiles setup inventory files = .error (.unresolvable stuck cycles)) :
    cycles = Graph.cycles (waitingEdges stuck) := by
  unfold evaluateFiles at h
  cases hstart : Round.start inventory files with
  | error e =>
    rw [hstart] at h
    cases h
    exact (failsAs_start inventory files _ hstart).elim
  | ok started =>
    obtain ⟨start, indices⟩ := started
    rw [hstart, ok_bind] at h
    dsimp only at h
    cases hrun : start.run setup (passBound start.tasks) with
    | ok last =>
      rw [hrun] at h
      cases h
    | error e =>
      rw [hrun] at h
      cases h
      rcases Round.run_error start.remaining_le_passBound (Nat.succ_pos _) hrun with
        hcause | ⟨last, statements, -, heq⟩
      · exact hcause.elim
      · unfold EvalError.ofStuck at heq
        cases heq
        rfl

/-! ## Evaluating a declaration again -/

/-- The inventory has the resource, in one of so many files. -/
structure Inventory.Stocks (count : Nat) (key : Key) (inventory : Inventory) : Prop where
  distinct : inventory.Distinct
  length : inventory.files.length = count
  has : inventory.has key = true

theorem Inventory.Stocks.insertAt {inventory : Inventory} {count index : Nat} {key : Key}
    (h : inventory.Stocks count key) (hindex : index < count) (resource : Resource) :
    (inventory.insertAt index resource).Stocks count key where
  distinct := distinct_insertAt h.distinct index resource
  length := (length_insertAt inventory index resource).trans h.length
  has := (has_insertAt h.distinct (h.length ▸ hindex) resource key).2 (Or.inr h.has)

/-- The resource stays in the inventory and is not waited for. -/
def Guarantee.present (count : Nat) (key : Key) : Guarantee where
  holds := Inventory.Stocks count key
  waits reason := reason ≠ .resource key
  fails := EvalError.IsCause

/-- No deferral is added when repeated ones are left out. -/
theorem mem_of_mem_dedupeDeferrals {deferrals : List Deferral} {deferral : Deferral}
    (h : deferral ∈ dedupeDeferrals deferrals) :
    deferral ∈ deferrals := by
  have hfold : ∀ d ∈ dedupeDeferrals deferrals, d ∈ deferrals := by
    refine List.foldlRecOn (motive := fun unique : List Deferral => ∀ d ∈ unique, d ∈ deferrals)
      deferrals _ nofun fun unique hunique next hnext d hd => ?_
    split at hd
    · exact hunique d hd
    · rcases List.mem_append.1 hd with hd | hd
      · exact hunique d hd
      · exact List.mem_singleton.1 hd ▸ hnext
  exact hfold deferral h

section Again

variable {count : Nat} {key : Key}

theorem Guarantee.lawful_present : (Guarantee.present count key).Lawful where
  missing {inventory other} hinventory hother := by
    rintro ⟨⟩
    exact absurd (hinventory.has.symm.trans hother) nofun
  unnamed _ := nofun
  pending _ := nofun
  fails hlocal := hlocal.isCause

theorem runStatement_present {setting : Setting} (depth : Nat) {frame : Frame}
    (hfile : frame.file < count) (node : Node) :
    (runStatement (Evaluator.atDepth setting depth) node frame).Keeps
      (Guarantee.present count key) fun _ => True :=
  runStatement_keeps_atDepth Guarantee.lawful_present (fun frame => frame.file < count)
    (fun _ _ h => h) (fun _ _ h => h) (fun _ _ _ _ h => h)
    (fun _ _ resource hwithin hinventory _ _ _ => hinventory.insertAt hwithin resource)
    (fun _ _ => trivial) depth node hfile

/-- Evaluating a declaration again gets stuck on other resources alone, and shows no cycle. -/
theorem reevaluate_stuck {depth : Nat} {pending current after : Inventory}
    {stuck : List StuckStatement} {cycles : List (List Key)} (hdistinct : pending.Distinct)
    (h : reevaluate depth pending current key = (.error (.unresolvable stuck cycles), after)) :
    cycles = [] ∧ ∃ statement, stuck = [statement] ∧ statement.key = some key ∧
      ∀ deferral ∈ statement.deferrals, deferral.reason ≠ .resource key := by
  unfold reevaluate at h
  split at h
  · next resource file hresource hfile =>
    split at h
    · cases h
    · next declaration hdeclaration =>
      have hindex : file < pending.files.length := (List.findIdx?_eq_some_iff_findIdx_eq.1 hfile).1
      have hsteps : ∀ step ∈ runMarked (Evaluator.atDepth ⟨.configuration, some current, []⟩ depth)
          declaration.body ⟨file, declaration.qualifier, true, declaration.inherited, []⟩,
          step.2.Keeps (Guarantee.present pending.files.length key) fun _ => True := by
        intro step hstep
        rw [runMarked_eq_map] at hstep
        obtain ⟨node, -, rfl⟩ := List.mem_map.1 hstep
        exact runStatement_present depth hindex node
      have hbody := resourceBody_keeps Guarantee.lawful_present
        ⟨file, declaration.qualifier, true, declaration.inherited, []⟩ hsteps
        ⟨pending, [], Scope.withValues declaration.bindings, [], none⟩
        ⟨hdistinct, rfl, (pending.has_iff key).2 ⟨resource, hresource⟩⟩
      dsimp only at h
      generalize (resourceBody _ _).run _ = result at hbody h
      obtain ⟨outcome, between⟩ := result
      rcases outcome with (reasons | e) | body
      · cases h
        exact ⟨rfl, _, rfl, rfl, fun deferral hdeferral =>
          hbody.2 deferral (mem_of_mem_dedupeDeferrals hdeferral)⟩
      · cases h
        exact hbody.2.elim
      · dsimp only at h
        split at h
        · next error hfinish =>
          cases h
          exact (failsAs_finishResource _ _ _ _ _ _ hfinish).elim
        · cases h
  · cases h

end Again

/-- A statement that does not wait for what it declares is in no circle of its own. -/
theorem acyclic_of_lone {statement : StuckStatement} {key : Key} (hkey : statement.key = some key)
    (hother : ∀ deferral ∈ statement.deferrals, deferral.reason ≠ .resource key) (node : Key) :
    ¬ TransGen (DefersOn [statement]) node node := by
  have hnone : ∀ source target, ¬ DefersOn [statement] source target := by
    rintro source target ⟨⟨waiting, hwaiting, -, deferral, hdeferral, hreason⟩, other, hdeclared,
      htarget⟩
    obtain rfl := List.mem_singleton.1 hwaiting
    obtain rfl := List.mem_singleton.1 hdeclared
    obtain rfl := Option.some.inj (hkey.symm.trans htarget)
    exact hother deferral hdeferral hreason
  intro hcircle
  obtain ⟨target, hdefers, -⟩ := TransGen.head'_iff.1 hcircle
  exact hnone node target hdefers

/-! ## What is shown -/

/-- The search of a graph, an evaluation that gives up and a declaration that is evaluated again all
report cycles of what they look at, and none only if there is none. -/
theorem circles_reported :
    (∀ {κ : Type} [Ranked κ] [DecidableEq κ] [Ranked.Linear κ] (edges : Graph.Edges κ),
      Graph.Reports (Graph.Leads edges) (Graph.cycles edges)) ∧
    (∀ {setup : EvaluationSetup} {inventory : Inventory} {files : List SourceFile}
      {stuck : List StuckStatement} {cycles : List (List Key)},
      evaluateFiles setup inventory files = .error (.unresolvable stuck cycles) →
        Graph.Reports (DefersOn stuck) cycles) ∧
    ∀ {depth : Nat} {pending current after : Inventory} {key : Key} {stuck : List StuckStatement}
      {cycles : List (List Key)}, pending.Distinct →
      reevaluate depth pending current key = (.error (.unresolvable stuck cycles), after) →
        Graph.Reports (DefersOn stuck) cycles := by
  refine ⟨fun edges => Graph.reports_cycles edges, fun h => ?_, fun hdistinct h => ?_⟩
  · obtain rfl := cycles_eq_of_evaluateFiles h
    exact reports_ofStuck _
  · obtain ⟨rfl, statement, rfl, hkey, hother⟩ := reevaluate_stuck hdistinct h
    exact ⟨List.Pairwise.nil, nofun, iff_of_true rfl (acyclic_of_lone hkey hother)⟩

/-- Three letters in a circle, and one that leads to itself and into the circle. -/
def letterEdges : Graph.Edges String :=
  [("a", ["b"]), ("b", ["c"]), ("c", ["a"]), ("d", ["d", "a"])]

/-- A box that takes over the path of a box that is not there. -/
def loneBox : Inventory :=
  { registry := boxRegistry
    files := [{
      path := ⟨"main"⟩
      resources := [(boxKey "a", {
        key := boxKey "a"
        type := boxType
        origin := lineStart 1
        declaration := some ⟨[pairAt 2 "path" (boxField 2 "b" "path")], [], none, []⟩ })] }] }

/-- An evaluation that gets stuck reports the circles of the statements that are left over. -/
theorem unresolvable_of_stuckAt? {setup : EvaluationSetup} {inventory : Inventory}
    {files : List SourceFile} {cycles : List (List Key)}
    (h : (Round.start inventory files).toOption.bind (fun started =>
      (started.1.stuckAt? setup (passBound started.1.tasks)).map fun given =>
        Graph.cycles (waitingEdges given.2)) = some cycles) :
    ∃ stuck, evaluateFiles setup inventory files = .error (.unresolvable stuck cycles) := by
  obtain ⟨⟨start, indices⟩, hstart, h⟩ := Option.bind_eq_some_iff.1 h
  obtain ⟨⟨last, stuck⟩, hstuck, rfl⟩ := Option.map_eq_some_iff.1 h
  rw [toOption_eq_some] at hstart
  refine ⟨stuck, ?_⟩
  unfold evaluateFiles
  rw [hstart, ok_bind]
  dsimp only
  rw [Round.run_of_stuckAt? hstuck, error_bind]
  rfl

/-- Both circles of letters are found, and so is the one of the boxes that wait for each other.  The
lone box waits for another one, not for itself. -/
theorem circles_reported_boxes :
    Graph.Reports (Graph.Leads letterEdges) [["a", "b", "c"], ["d"]] ∧
    (∃ stuck, evaluateFiles boxSetup (.empty boxRegistry) [waitingBoxes] =
        .error (.unresolvable stuck [[boxKey "a", boxKey "b"]]) ∧
      Graph.Reports (DefersOn stuck) [[boxKey "a", boxKey "b"]]) ∧
    ∃ stuck after, reevaluate 0 loneBox (.empty boxRegistry) (boxKey "a") =
        (.error (.unresolvable stuck []), after) ∧
      Graph.Reports (DefersOn stuck) [] := by
  have hletters : Graph.cycles letterEdges = [["a", "b", "c"], ["d"]] := by decide +kernel
  have hboxes : ∃ stuck, evaluateFiles boxSetup (.empty boxRegistry) [waitingBoxes] =
      .error (.unresolvable stuck [[boxKey "a", boxKey "b"]]) :=
    unresolvable_of_stuckAt? (by decide +kernel)
  have hlone : ∃ stuck after, reevaluate 0 loneBox (.empty boxRegistry) (boxKey "a") =
      (.error (.unresolvable stuck []), after) := ⟨_, _, rfl⟩
  have hdistinct : loneBox.Distinct := by
    intro file hfile
    obtain rfl := List.mem_singleton.1 hfile
    exact List.nodup_singleton _
  obtain ⟨stuck, hstuck⟩ := hboxes
  obtain ⟨waiting, after, hwaiting⟩ := hlone
  exact ⟨hletters ▸ circles_reported.1 letterEdges, ⟨stuck, hstuck, circles_reported.2.1 hstuck⟩,
    waiting, after, hwaiting, circles_reported.2.2 hdistinct hwaiting⟩

end Provision

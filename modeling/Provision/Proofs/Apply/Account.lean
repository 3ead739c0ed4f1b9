import Provision.Proofs.Apply.InPlace
import Provision.Proofs.Apply.Ledger

/-!
# The account of a run

A run takes the changes of a plan in turn, group by group.  A turn is either
idle, when its group was declined or has failed before, or it executes its
change.  The report has one result for each turn: nothing is left out at the end
of an aborted group and nothing is told twice.
-/

namespace Provision

/-- How the execution of a change is told. -/
def Executed.result (executed : Executed) (change : PlannedChange) : ChangeResult :=
  match executed.outcome with
  | .ok true => resultFor change .applied executed.stages none
  | .ok false => resultFor change .skipped executed.stages change.hint
  | .error e => resultFor change .failed executed.stages (some e.message)

section Executions

variable {ω : Type} {executed : Executed} {change : PlannedChange}

@[simp] theorem Executed.result_changeId : (executed.result change).changeId = change.id := by
  unfold result
  split <;> rfl

@[simp] theorem Executed.result_kind : (executed.result change).kind = change.kind := by
  unfold result
  split <;> rfl

@[simp] theorem Executed.result_key : (executed.result change).key = change.key := by
  unfold result
  split <;> rfl

theorem Executed.result_applied_iff :
    (executed.result change).status = .applied ↔ executed.outcome = .ok true := by
  unfold result
  split <;> simp_all [resultFor]

theorem Executed.result_skipped_iff :
    (executed.result change).status = .skipped ↔ executed.outcome = .ok false := by
  unfold result
  split <;> simp_all [resultFor]

theorem Executed.result_failed_iff :
    (executed.result change).status = .failed ↔ ∃ e, executed.outcome = .error e := by
  unfold result
  split <;> simp_all [resultFor]

theorem executePlain_not_skipped (step : RunStep ω Unit) (run : Run ω) :
    ((executePlain step).run run).1.outcome ≠ .ok false := by
  rcases hresult : step.run run with ⟨outcome, after⟩
  have hstate : step.run.run run = (outcome, after) := hresult
  unfold executePlain
  rw [run_bind_state, hstate]
  cases outcome with
  | error e => exact nofun
  | ok => exact fun hok => nomatch hok

/-- Executing a change skips it exactly when it replaces a resource whose type has no workflow. -/
theorem executeChange_skipped_iff (backing : Backing ω) (change : PlannedChange) (run : Run ω) :
    ((executeChange backing change).run run).1.outcome = .ok false ↔
      change.kind = .replace ∧ run.pending.workflowFor? change.key.type = none := by
  unfold executeChange
  cases change.kind with
  | create => simpa using executePlain_not_skipped _ run
  | update => simpa using executePlain_not_skipped _ run
  | delete => simpa using executePlain_not_skipped _ run
  | replace =>
    have hget : (get : StateM (Run ω) (Run ω)).run run = (run, run) := rfl
    dsimp only
    rw [run_bind_state, hget]
    dsimp only
    cases run.pending.workflowFor? change.key.type with
    | none => exact ⟨fun _ => ⟨rfl, rfl⟩, fun _ => rfl⟩
    | some workflow =>
      refine ⟨fun hskipped => ?_, fun hnone => nomatch hnone.2⟩
      rcases hresult : (refreshDeclaration change.key).run run with ⟨outcome, between⟩
      have hstate : (refreshDeclaration change.key).run.run run = (outcome, between) := hresult
      dsimp only at hskipped
      rw [run_bind_state, hstate] at hskipped
      cases outcome with
      | error e => cases hskipped
      | ok =>
        dsimp only at hskipped
        rw [run_bind_state] at hskipped
        rcases hstages : (runStages backing change.key workflow.name workflow.stages).run between
          with ⟨⟨stages, failure⟩, after⟩
        rw [hstages] at hskipped
        cases failure <;> cases hskipped

end Executions

/-! ## Turns -/

/-- What became of one change of a plan: the run before and after, what was done in between, and
the result that tells of it. -/
structure Turn (ω : Type) where
  change : PlannedChange
  before : Run ω
  deeds : List Deed
  after : Run ω
  result : ChangeResult

namespace Turn

variable {ω : Type}

/-- The change was not attempted: the provider was not called, nothing was saved and the run is as
it was. -/
structure Idle (status : ChangeStatus) (turn : Turn ω) : Prop where
  result : turn.result = resultFor turn.change status [] none
  deeds : turn.deeds = []
  after : turn.after = turn.before

/-- The change was executed. -/
structure Attempted (backing : Backing ω) (turn : Turn ω) : Prop where
  after : turn.after = ((executeChange backing turn.change).run turn.before).2
  result : turn.result = (((executeChange backing turn.change).run turn.before).1).result turn.change
  course : Course backing turn.before turn.deeds turn.after
  executes : Executes turn.change turn.deeds

/-- The result says that the change failed. -/
def Failed (turn : Turn ω) : Prop :=
  turn.result.status = .failed

/-- The turn that leaves a change alone. -/
def idling (status : ChangeStatus) (run : Run ω) (change : PlannedChange) : Turn ω :=
  ⟨change, run, [], run, resultFor change status [] none⟩

theorem idling_idle (status : ChangeStatus) (run : Run ω) (change : PlannedChange) :
    (idling status run change).Idle status :=
  ⟨rfl, rfl, rfl⟩

theorem exists_attempted (backing : Backing ω) (change : PlannedChange) (run : Run ω) :
    ∃ turn : Turn ω, turn.change = change ∧ turn.before = run ∧ turn.Attempted backing := by
  obtain ⟨deeds, hexecutes, hcourse, -⟩ := executeChange_course backing change run
  let turn : Turn ω := ⟨change, run, deeds, ((executeChange backing change).run run).2,
    ((executeChange backing change).run run).1.result change⟩
  exact ⟨turn, rfl, rfl, rfl, rfl, hcourse, hexecutes⟩

end Turn

/-- Turns taken one after another, each from where the one before has ended. -/
inductive InTurn {ω : Type} : Run ω → List (Turn ω) → Run ω → Prop
  | nil (run : Run ω) : InTurn run [] run
  | cons {turn : Turn ω} {turns : List (Turn ω)} {after : Run ω} (hrest : InTurn turn.after turns after) :
      InTurn turn.before (turn :: turns) after

/-- The turns of some changes of an approved group: each change is executed, unless failures end
the group and one came before. -/
def Proceeds {ω : Type} (backing : Backing ω) (failFast : Bool) (turns : List (Turn ω)) : Prop :=
  ∀ front turn back, turns = front ++ turn :: back →
    (failFast = true ∧ ∃ earlier ∈ front, earlier.Failed) ∧ turn.Idle .skipped ∨
      ¬ (failFast = true ∧ ∃ earlier ∈ front, earlier.Failed) ∧ turn.Attempted backing

/-- The turns of a group, whose changes are all left alone when it is declined. -/
structure GroupTurns {ω : Type} (backing : Backing ω)
    (approve : ChangeGroup → List PlannedChange → Bool) (failFast : Bool) (plan : Plan)
    (group : ChangeGroup) (turns : List (Turn ω)) : Prop where
  changes : turns.map Turn.change = plan.changesIn group
  declined : approve group (plan.changesIn group) = false → ∀ turn ∈ turns, turn.Idle .declined
  approved : approve group (plan.changesIn group) = true → Proceeds backing failFast turns

section Turns

variable {ω : Type} {backing : Backing ω} {failFast : Bool} {run between after : Run ω}
  {turns more : List (Turn ω)} {account later : Account}

theorem InTurn.append (hfirst : InTurn run turns between) (hsecond : InTurn between more after) :
    InTurn run (turns ++ more) after := by
  induction hfirst with
  | nil => exact hsecond
  | cons _ ih => exact .cons (ih hsecond)

theorem inTurn_idling (status : ChangeStatus) (run : Run ω) (changes : List PlannedChange) :
    InTurn run (changes.map (Turn.idling status run)) run := by
  induction changes with
  | nil => exact .nil run
  | cons change rest ih =>
    have hfirst : InTurn (Turn.idling status run change).before
        (Turn.idling status run change :: rest.map (Turn.idling status run)) run := .cons ih
    exact hfirst

theorem InTurn.split {turn : Turn ω} {front back : List (Turn ω)}
    (h : InTurn run (front ++ turn :: back) after) :
    InTurn run front turn.before ∧ InTurn turn.after back after := by
  induction front generalizing run with
  | nil =>
    cases h with
    | cons hrest => exact ⟨.nil _, hrest⟩
  | cons first rest ih =>
    cases h with
    | cons hrest => exact ⟨.cons (ih hrest).1, (ih hrest).2⟩

/-- What an account and the run behind it have to do with some turns. -/
structure Tells (run : Run ω) (outcome : Account × Run ω) (turns : List (Turn ω)) : Prop where
  inTurn : InTurn run turns outcome.2
  results : outcome.1.results = turns.map Turn.result
  /-- There are error lines exactly when something failed. -/
  errors : outcome.1.errors ≠ [] ↔ ∃ turn ∈ turns, turn.Failed

theorem tells_nil (run : Run ω) : Tells run (⟨[], []⟩, run) [] :=
  ⟨.nil run, rfl, by simp⟩

theorem Tells.append (hfirst : Tells run (account, between) turns)
    (hsecond : Tells between (later, after) more) :
    Tells run (account.append later, after) (turns ++ more) := by
  constructor
  · exact hfirst.inTurn.append hsecond.inTurn
  · rw [List.map_append, ← hfirst.results, ← hsecond.results]
    rfl
  · have hnil : (account.append later).errors ≠ [] ↔ account.errors ≠ [] ∨ later.errors ≠ [] := by
      unfold Account.append
      rw [Ne, List.append_eq_nil_iff, not_and_or]
    rw [hnil, hfirst.errors, hsecond.errors]
    simp only [List.mem_append, or_and_right, exists_or]

theorem tells_idling {status : ChangeStatus} (hstatus : status ≠ .failed) (run : Run ω)
    (changes : List PlannedChange) :
    Tells run (⟨changes.map fun change => resultFor change status [] none, []⟩, run)
      (changes.map (Turn.idling status run)) := by
  constructor
  · exact inTurn_idling status run changes
  · rw [List.map_map]
    rfl
  · refine ⟨fun hne => absurd rfl hne, ?_⟩
    rintro ⟨turn, hturn, hfailed⟩
    obtain ⟨change, -, rfl⟩ := List.mem_map.1 hturn
    exact absurd hfailed hstatus

theorem proceeds_cons {turn : Turn ω} (hattempted : turn.Attempted backing)
    (hnext : ¬ (failFast = true ∧ turn.Failed) → Proceeds backing failFast turns)
    (haborted : failFast = true → turn.Failed → ∀ other ∈ turns, other.Idle .skipped) :
    Proceeds backing failFast (turn :: turns) := by
  intro front other back heq
  cases front with
  | nil =>
    obtain ⟨rfl, rfl⟩ := List.cons.inj heq
    refine Or.inr ⟨?_, hattempted⟩
    rintro ⟨-, earlier, hmem, -⟩
    cases hmem
  | cons first rest =>
    obtain ⟨rfl, rfl⟩ := List.cons.inj heq
    by_cases habort : failFast = true ∧ turn.Failed
    · refine Or.inl ⟨⟨habort.1, turn, List.mem_cons_self, habort.2⟩, ?_⟩
      exact haborted habort.1 habort.2 other (List.mem_append_right _ List.mem_cons_self)
    · have hfront : (failFast = true ∧ ∃ earlier ∈ turn :: rest, earlier.Failed) ↔
          failFast = true ∧ ∃ earlier ∈ rest, earlier.Failed := by
        rw [List.exists_mem_cons_iff]
        tauto
      rw [hfront]
      exact hnext habort rest other back rfl

/-- The changes of an approved group are taken in turn. -/
theorem runChanges_turns (backing : Backing ω) (failFast : Bool) (group : ChangeGroup)
    (changes : List PlannedChange) (run : Run ω) :
    ∃ turns, turns.map Turn.change = changes ∧ Proceeds backing failFast turns ∧
      Tells run ((runChanges backing failFast group changes).run run) turns := by
  induction changes generalizing run with
  | nil =>
    exact ⟨[], rfl, fun front turn back heq => by simp at heq, tells_nil run⟩
  | cons change rest ih =>
    obtain ⟨turn, rfl, rfl, hattempted⟩ := Turn.exists_attempted backing change run
    obtain ⟨turns, hchanges, hproceeds, htells⟩ := ih turn.after
    have hafter := hattempted.after
    have hresult := hattempted.result
    rcases hexecute : (executeChange backing turn.change).run turn.before with ⟨executed, between⟩
    rw [hexecute] at hafter hresult
    obtain rfl : turn.after = between := hafter
    have hone (errors : List String) (herrors : errors ≠ [] ↔ turn.Failed) :
        Tells turn.before (⟨[turn.result], errors⟩, turn.after) [turn] :=
      ⟨.cons (.nil _), rfl, by simpa using herrors⟩
    rw [runChanges, run_bind_state, hexecute]
    dsimp only
    cases houtcome : executed.outcome with
    | ok applied =>
      have hunfailed : ¬ turn.Failed := by
        unfold Turn.Failed
        rw [hresult, Executed.result_failed_iff, houtcome]
        rintro ⟨e, he⟩
        cases he
      have hproceed : Proceeds backing failFast (turn :: turns) :=
        proceeds_cons hattempted (fun _ => hproceeds) fun _ hfailed => absurd hfailed hunfailed
      have hquiet := hone [] ⟨fun hne => absurd rfl hne, fun hfailed => absurd hfailed hunfailed⟩
      rw [hresult, Executed.result, houtcome] at hquiet
      refine ⟨turn :: turns, by rw [List.map_cons, hchanges], hproceed, ?_⟩
      cases applied <;> exact hquiet.append htells
    | error e =>
      have hfailed : turn.Failed := by
        unfold Turn.Failed
        rw [hresult, Executed.result_failed_iff, houtcome]
        exact ⟨e, rfl⟩
      have hloud (line : String) (lines : List String) :=
        hone (line :: lines) ⟨fun _ => hfailed, fun _ => List.cons_ne_nil _ _⟩
      rw [hresult, Executed.result, houtcome] at hloud
      dsimp only
      cases failFast with
      | false =>
        refine ⟨turn :: turns, by rw [List.map_cons, hchanges], ?_, (hloud _ []).append htells⟩
        exact proceeds_cons hattempted (fun _ => hproceeds)
          fun hfast => absurd hfast Bool.false_ne_true
      | true =>
        refine ⟨turn :: rest.map (Turn.idling .skipped turn.after), ?_, ?_,
          (hloud _ [_]).append (tells_idling (by decide) turn.after rest)⟩
        · rw [List.map_cons, List.map_map]
          exact congrArg _ (List.map_id rest)
        · refine proceeds_cons hattempted (fun hgo => absurd ⟨rfl, hfailed⟩ hgo)
            fun _ _ other hother => ?_
          obtain ⟨skipped, -, rfl⟩ := List.mem_map.1 hother
          exact Turn.idling_idle _ _ _

theorem runGroup_turns (backing : Backing ω) (approve : ChangeGroup → List PlannedChange → Bool)
    (failFast : Bool) (plan : Plan) (group : ChangeGroup) (run : Run ω) :
    ∃ turns, GroupTurns backing approve failFast plan group turns ∧
      Tells run ((runGroup backing approve failFast plan group).run run) turns := by
  unfold runGroup
  dsimp only
  by_cases hempty : (plan.changesIn group).isEmpty = true
  · rw [if_pos hempty]
    refine ⟨[], ⟨(List.isEmpty_iff.1 hempty).symm, fun _ turn hturn => ?_,
      fun _ front turn back heq => by simp at heq⟩, tells_nil run⟩
    exact absurd hturn List.not_mem_nil
  · rw [if_neg hempty]
    by_cases happroved : approve group (plan.changesIn group) = true
    · rw [if_pos happroved]
      obtain ⟨turns, hchanges, hproceeds, htells⟩ :=
        runChanges_turns backing failFast group (plan.changesIn group) run
      refine ⟨turns, ⟨hchanges, fun hdeclined => ?_, fun _ => hproceeds⟩, htells⟩
      rw [happroved] at hdeclined
      cases hdeclined
    · rw [if_neg happroved]
      refine ⟨(plan.changesIn group).map (Turn.idling .declined run), ⟨?_, ?_, ?_⟩,
        tells_idling (by decide) run _⟩
      · rw [List.map_map]
        exact List.map_id _
      · intro _ turn hturn
        obtain ⟨change, -, rfl⟩ := List.mem_map.1 hturn
        exact Turn.idling_idle _ _ _
      · exact fun hyes => absurd hyes happroved

theorem runGroups_turns (backing : Backing ω) (approve : ChangeGroup → List PlannedChange → Bool)
    (failFast : Bool) (plan : Plan) (groups : List ChangeGroup) (run : Run ω) :
    ∃ parts, List.Forall₂ (GroupTurns backing approve failFast plan) groups parts ∧
      Tells run ((runGroups backing approve failFast plan groups).run run) parts.flatten := by
  induction groups generalizing run with
  | nil =>
    exact ⟨[], .nil, tells_nil run⟩
  | cons group rest ih =>
    obtain ⟨turns, hturns, htells⟩ := runGroup_turns backing approve failFast plan group run
    rcases hrun : (runGroup backing approve failFast plan group).run run with ⟨account, between⟩
    rw [hrun] at htells
    obtain ⟨parts, hparts, hlater⟩ := ih between
    refine ⟨turns :: parts, .cons hturns hparts, ?_⟩
    rw [runGroups, run_bind_state, hrun, List.flatten_cons]
    exact htells.append hlater

/-- The turns of a plan, group by group. -/
theorem applyPlan_turns (backing : Backing ω) (approve : ChangeGroup → List PlannedChange → Bool)
    (failFast : Bool) (plan : Plan) (run : Run ω) :
    ∃ parts, List.Forall₂ (GroupTurns backing approve failFast plan) ChangeGroup.all parts ∧
      InTurn run parts.flatten (applyPlan backing approve failFast plan run).2 ∧
      (applyPlan backing approve failFast plan run).1.results = parts.flatten.map Turn.result ∧
      ((applyPlan backing approve failFast plan run).1.errors ≠ [] ↔
        ∃ turn ∈ parts.flatten, turn.Failed) := by
  obtain ⟨parts, hparts, htells⟩ :=
    runGroups_turns backing approve failFast plan ChangeGroup.all run
  exact ⟨parts, hparts, htells.inTurn, htells.results, htells.errors⟩

/-- A turn of a group leaves its change alone, for a reason other than success or failure, or
executes it. -/
theorem GroupTurns.idle_or_attempted {approve : ChangeGroup → List PlannedChange → Bool}
    {plan : Plan} {group : ChangeGroup}
    (h : GroupTurns backing approve failFast plan group turns) {turn : Turn ω} (hturn : turn ∈ turns) :
    (∃ status, (status = .declined ∨ status = .skipped) ∧ turn.Idle status) ∨
      turn.Attempted backing := by
  cases happroved : approve group (plan.changesIn group) with
  | false => exact Or.inl ⟨_, Or.inl rfl, h.declined happroved turn hturn⟩
  | true =>
    obtain ⟨front, back, heq⟩ := List.append_of_mem hturn
    rcases h.approved happroved front turn back heq with ⟨-, hidle⟩ | ⟨-, hattempted⟩
    · exact Or.inl ⟨_, Or.inr rfl, hidle⟩
    · exact Or.inr hattempted

/-- The result of a turn names the change by its number, its kind and its key. -/
theorem GroupTurns.names {approve : ChangeGroup → List PlannedChange → Bool}
    {plan : Plan} {group : ChangeGroup}
    (h : GroupTurns backing approve failFast plan group turns) {turn : Turn ω} (hturn : turn ∈ turns) :
    turn.result.changeId = turn.change.id ∧ turn.result.kind = turn.change.kind ∧
      turn.result.key = turn.change.key := by
  rcases h.idle_or_attempted hturn with ⟨status, -, hidle⟩ | hattempted
  · rw [hidle.result]
    exact ⟨rfl, rfl, rfl⟩
  · rw [hattempted.result]
    simp

theorem GroupTurns.workflowFor?_eq {approve : ChangeGroup → List PlannedChange → Bool}
    {plan : Plan} {group : ChangeGroup}
    (h : GroupTurns backing approve failFast plan group turns) {turn : Turn ω} (hturn : turn ∈ turns) :
    turn.after.pending.workflowFor? = turn.before.pending.workflowFor? := by
  rcases h.idle_or_attempted hturn with ⟨status, -, hidle⟩ | hattempted
  · rw [hidle.after]
  · exact hattempted.course.workflowFor?_eq

/-- What no turn changes is the same before each of them as it was at first. -/
theorem InTurn.before_eq {β : Type} (look : Run ω → β) (h : InTurn run turns after)
    (hkept : ∀ turn ∈ turns, look turn.after = look turn.before) {turn : Turn ω}
    (hturn : turn ∈ turns) :
    look turn.before = look run := by
  induction h with
  | nil => cases hturn
  | cons _ ih =>
    rcases List.mem_cons.1 hturn with rfl | hrest
    · rfl
    · rw [ih (fun other hother => hkept other (List.mem_cons_of_mem _ hother)) hrest]
      exact hkept _ List.mem_cons_self

theorem exists_part {α β : Type} {r : α → List β → Prop} {groups : List α} {parts : List (List β)}
    (h : List.Forall₂ r groups parts) {b : β} (hb : b ∈ parts.flatten) :
    ∃ group part, r group part ∧ b ∈ part := by
  obtain ⟨part, hpart, hmem⟩ := List.mem_flatten.1 hb
  obtain ⟨i, hi, rfl⟩ := List.mem_iff_getElem.1 hpart
  obtain ⟨hlength, hget⟩ := List.forall₂_iff_get.1 h
  exact ⟨_, _, hget i (hlength ▸ hi) hi, hmem⟩

theorem changes_of_parts {approve : ChangeGroup → List PlannedChange → Bool} {plan : Plan}
    {groups : List ChangeGroup} {parts : List (List (Turn ω))}
    (h : List.Forall₂ (GroupTurns backing approve failFast plan) groups parts) :
    parts.flatten.map Turn.change = groups.flatMap plan.changesIn := by
  induction h with
  | nil => rfl
  | cons hfirst _ ih => rw [List.flatten_cons, List.map_append, hfirst.changes, ih, List.flatMap_cons]

/-- Where a property tells the elements apart, exactly one has the value that a given one has. -/
theorem filter_eq_singleton {α β : Type} [DecidableEq β] {f : α → β} {items : List α}
    (h : (items.map f).Nodup) {a : α} (ha : a ∈ items) :
    items.filter (fun other => f other = f a) = [a] := by
  obtain ⟨front, back, rfl⟩ := List.append_of_mem ha
  rw [List.map_append, List.map_cons, List.nodup_middle, List.nodup_cons, ← List.map_append] at h
  have hnone (part : List α) (hpart : ∀ other ∈ part, other ∈ front ++ back) :
      part.filter (fun other => f other = f a) = [] := by
    rw [List.filter_eq_nil_iff]
    intro other hother heq
    exact h.1 (List.mem_map.2 ⟨other, hpart other hother, of_decide_eq_true heq⟩)
  rw [List.filter_append, List.filter_cons, if_pos (decide_eq_true rfl),
    hnone front fun _ => List.mem_append_left _, hnone back fun _ => List.mem_append_right _,
    List.nil_append]

/-- The results of the turns name the changes of the groups in their order. -/
theorem names_of_parts {approve : ChangeGroup → List PlannedChange → Bool} {plan : Plan}
    {groups : List ChangeGroup} {parts : List (List (Turn ω))}
    (h : List.Forall₂ (GroupTurns backing approve failFast plan) groups parts) :
    (parts.flatten.map Turn.result).map (fun result => (result.changeId, result.kind, result.key)) =
      (groups.flatMap plan.changesIn).map fun change => (change.id, change.kind, change.key) := by
  rw [← changes_of_parts h, List.map_map, List.map_map]
  apply List.map_congr_left
  intro turn hturn
  obtain ⟨group, part, hpart, hmem⟩ := exists_part h hturn
  obtain ⟨hid, hkind, hkey⟩ := hpart.names hmem
  simp only [Function.comp_apply, hid, hkind, hkey]

/-- When results name changes with distinct numbers, exactly one has the number of a change, and it
has the kind and the key of that change. -/
theorem exists_result_of_names {results : List ChangeResult} {changes : List PlannedChange}
    (hnamed : results.map (fun result => (result.changeId, result.kind, result.key)) =
      changes.map fun change => (change.id, change.kind, change.key))
    (hids : (changes.map PlannedChange.id).Nodup) {change : PlannedChange} (hchange : change ∈ changes) :
    ∃ result, results.filter (fun other => other.changeId = change.id) = [result] ∧
      result.kind = change.kind ∧ result.key = change.key := by
  have honce : (results.map ChangeResult.changeId).Nodup := by
    have hnumbers := congrArg (List.map Prod.fst) hnamed
    rw [List.map_map, List.map_map] at hnumbers
    exact hnumbers ▸ hids
  have hmem := List.mem_map_of_mem (f := fun change => (change.id, change.kind, change.key)) hchange
  rw [← hnamed] at hmem
  obtain ⟨result, hresult, hsame⟩ := List.mem_map.1 hmem
  simp only [Prod.mk.injEq] at hsame
  obtain ⟨hid, hkind, hkey⟩ := hsame
  refine ⟨result, ?_, hkind, hkey⟩
  rw [← hid]
  exact filter_eq_singleton honce hresult

/-- The report of a run accounts for every change of the plan, in the order of the groups, and only
changes of approved groups that were not aborted are executed. -/
theorem applyPlan_accounts (backing : Backing ω)
    (approve : ChangeGroup → List PlannedChange → Bool) (failFast : Bool) (plan : Plan)
    (run : Run ω) (hids : (plan.changes.map PlannedChange.id).Nodup) :
    let report := (applyPlan backing approve failFast plan run).1
    report.results.map (fun result => (result.changeId, result.kind, result.key)) =
        (ChangeGroup.all.flatMap plan.changesIn).map
          (fun change => (change.id, change.kind, change.key)) ∧
      report.results.length = plan.changes.length ∧
      (∀ change ∈ plan.changes, ∃ result,
        report.results.filter (fun other => other.changeId = change.id) = [result] ∧
          result.kind = change.kind ∧ result.key = change.key) ∧
      (report.hasFailures = true ↔ ∃ result ∈ report.results, result.status = .failed) ∧
      ∃ parts, List.Forall₂ (GroupTurns backing approve failFast plan) ChangeGroup.all parts ∧
        InTurn run parts.flatten (applyPlan backing approve failFast plan run).2 ∧
        report.results = parts.flatten.map Turn.result ∧
        ∀ turn ∈ parts.flatten, turn.Attempted backing →
          (turn.result.status = .skipped ↔ turn.change.kind = .replace ∧
            run.pending.workflowFor? turn.change.key.type = none) := by
  obtain ⟨parts, hparts, hinTurn, hresults, herrors⟩ :=
    applyPlan_turns backing approve failFast plan run
  have hperm : (ChangeGroup.all.flatMap plan.changesIn).Perm plan.changes := groups_perm plan.changes
  have hnamed := names_of_parts hparts
  rw [← hresults] at hnamed
  refine ⟨hnamed, ?_, ?_, ?_, parts, hparts, hinTurn, hresults, ?_⟩
  · have hlength := congrArg List.length hnamed
    rw [List.length_map, List.length_map] at hlength
    exact hlength.trans hperm.length_eq
  · intro change hchange
    have hdistinct := (hperm.map PlannedChange.id).nodup_iff.2 hids
    exact exists_result_of_names hnamed hdistinct (hperm.mem_iff.2 hchange)
  · have hfailed : (∃ turn ∈ parts.flatten, turn.Failed) ↔
        ∃ result ∈ (applyPlan backing approve failFast plan run).1.results,
          result.status = .failed := by
      rw [hresults]
      simp only [List.mem_map, exists_exists_and_eq_and]
      exact Iff.rfl
    unfold ApplyReport.hasFailures
    rw [Bool.or_eq_true, Bool.not_eq_true', List.isEmpty_eq_false_iff, herrors, hfailed,
      List.any_eq_true]
    simp only [decide_eq_true_eq, or_self]
  · intro turn hturn hattempted
    have hkept : ∀ other ∈ parts.flatten,
        other.after.pending.workflowFor? = other.before.pending.workflowFor? := by
      intro other hother
      obtain ⟨group, part, hpart, hmem⟩ := exists_part hparts hother
      exact hpart.workflowFor?_eq hmem
    have hbefore := hinTurn.before_eq (fun run => run.pending.workflowFor?) hkept hturn
    rw [hattempted.result, Executed.result_skipped_iff, executeChange_skipped_iff, hbefore]

/-- A backing whose provider creates nothing and changes nothing in place. -/
def stubborn : Backing (List Inventory) where
  provider := { archiving.provider with
    create := fun _ fields world => ((.error "not now", fields), world)
    update := fun _ _ pending _ world => ((.error "not now", pending), world) }
  save := archiving.save

/-- The first failure ends its group, the replacement has no workflow, and the deletions are
declined. -/
theorem applyPlan_accounts_shelves :
    ∃ plan, diff shelvesWanted shelvesRecorded [] = .ok plan ∧
      (applyPlan stubborn (fun group _ => group ≠ .delete) true plan
          ⟨shelvesWanted, shelvesRecorded, []⟩).1.results.map
            (fun result => (result.changeId, result.status)) =
        [(1, .failed), (2, .skipped), (3, .skipped), (4, .declined), (5, .declined)] ∧
      (applyPlan stubborn (fun group _ => group ≠ .delete) true plan
        ⟨shelvesWanted, shelvesRecorded, []⟩).1.results.length = plan.changes.length ∧
      (applyPlan stubborn (fun group _ => group ≠ .delete) true plan
        ⟨shelvesWanted, shelvesRecorded, []⟩).2.world = [] := by
  refine ⟨_, rfl, by decide +kernel, ?_, by decide +kernel⟩
  refine (applyPlan_accounts stubborn (fun group _ => group ≠ .delete) true _
    ⟨shelvesWanted, shelvesRecorded, []⟩ ?_).2.1
  decide +kernel

end Turns

end Provision

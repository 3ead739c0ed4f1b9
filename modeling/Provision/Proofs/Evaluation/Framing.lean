import Provision.Proofs.Evaluation.Trials

/-!
# What statements leave alone

A scope has a value and collected blocks under a name.  Statements that neither set the
name nor extend the scope with it leave the value alone, and those that fill no block of
that name leave the blocks alone, whether they get done or not.
-/

namespace Provision

open Provision.Language (Node Entry Directive)

/-! ## Deep merges -/

section Merging

variable {old new : Bindings}

/-- Maps are merged key by key. -/
theorem Value.get?_mergeEntries (h : Table.Distinct new) (old : Bindings) (key : String) :
    Table.get? (Value.mergeEntries old new) key =
      Option.merge Value.merge (Table.get? old key) (Table.get? new key) := by
  induction new generalizing old with
  | nil =>
    rw [mergeEntries]
    cases Table.get? old key <;> rfl
  | cons entry rest ih =>
    obtain ⟨first, item⟩ := entry
    obtain ⟨hfirst, hrest⟩ := List.nodup_cons.1 h
    have hset : Table.get? (mergeEntries old ((first, item) :: rest)) key =
        Table.get? (mergeEntries (Table.set old first
          (((Table.get? old first).map fun value => value.merge item).getD item)) rest) key := by
      rw [mergeEntries]
      cases Table.get? old first <;> rfl
    rw [hset, ih hrest, Table.get?_set, Table.get?]
    by_cases hkey : first = key
    · subst hkey
      have hnone : Table.get? rest first = none :=
        Option.not_isSome_iff_eq_none.1 fun hsome => hfirst (Table.mem_keys_iff.2 hsome)
      rw [hnone, if_pos rfl, if_pos rfl]
      cases Table.get? old first <;> rfl
    · rw [if_neg hkey, if_neg hkey]

/-- Extending a scope is merging into the map of its bindings. -/
theorem extendScope_eq (scope : Scope) (entries : Bindings) :
    extendScope scope entries =
      { scope with values := Value.mergeEntries scope.values entries } := by
  unfold extendScope
  induction entries generalizing scope with
  | nil => rfl
  | cons entry rest ih =>
    obtain ⟨key, item⟩ := entry
    rw [List.foldl_cons, ih, Value.mergeEntries]
    unfold Scope.get?
    dsimp only
    cases Table.get? scope.values key <;> rfl

end Merging

/-! ## What a scope has under a name -/

/-- The values that were collected under a name. -/
def Blocks.under (blocks : Blocks) (name : String) : List (List Value) :=
  (blocks.filter fun entry => entry.1 = name).map Prod.snd

/-- The value of a name, and the blocks that were collected under it. -/
def Scope.under (scope : Scope) (name : String) : Option Value × List (List Value) :=
  (scope.get? name, scope.blocks.under name)

section Under

variable {scope : Scope} {name key : String} {value : Value}

theorem Table.filter_set_of_ne {κ ν : Type} [DecidableEq κ] {table : Table κ ν} {key other : κ}
    (h : key ≠ other) (value : ν) :
    (table.set key value).filter (fun entry => entry.1 = other) =
      table.filter fun entry => entry.1 = other := by
  induction table with
  | nil => simp [Table.set, h]
  | cons entry rest ih =>
    obtain ⟨first, found⟩ := entry
    by_cases hfirst : first = key
    · subst hfirst
      simp [Table.set, h]
    · rw [Table.set, if_neg hfirst, List.filter_cons, List.filter_cons, ih]

theorem Table.filter_set_of_none {κ ν : Type} [DecidableEq κ] {table : Table κ ν} {key : κ}
    (h : table.filter (fun entry => entry.1 = key) = []) (value : ν) :
    (table.set key value).filter (fun entry => entry.1 = key) = [(key, value)] := by
  induction table with
  | nil => simp [Table.set]
  | cons entry rest ih =>
    obtain ⟨first, found⟩ := entry
    rw [List.filter_cons] at h
    split at h
    · cases h
    · next hfirst =>
      have hfirst : first ≠ key := fun heq => hfirst (decide_eq_true heq)
      rw [Table.set, if_neg hfirst, List.filter_cons, ih h, if_neg (by simpa using hfirst)]

theorem Table.get?_of_filter {κ ν : Type} [DecidableEq κ] {table : Table κ ν} {key : κ}
    (h : table.filter (fun entry => entry.1 = key) = []) :
    table.get? key = none := by
  refine Option.not_isSome_iff_eq_none.1 fun hsome => ?_
  obtain ⟨entry, hentry, hkey⟩ := List.mem_map.1 (Table.mem_keys_iff.2 hsome)
  have hmem : entry ∈ table.filter fun entry => entry.1 = key :=
    List.mem_filter.2 ⟨hentry, decide_eq_true hkey⟩
  rw [h] at hmem
  cases hmem

theorem Table.distinct_ofPairs {κ ν : Type} [DecidableEq κ] (pairs : List (κ × ν)) :
    (Table.ofPairs pairs).Distinct :=
  List.foldlRecOn pairs _ List.nodup_nil fun _ htable pair _ =>
    Table.distinct_set htable pair.1 pair.2

theorem Table.mem_of_erase {κ ν : Type} [DecidableEq κ] {table : Table κ ν} {key : κ} {entry : κ × ν}
    (h : entry ∈ table.erase key) :
    entry ∈ table := by
  induction table with
  | nil => cases h
  | cons first rest ih =>
    rw [Table.erase] at h
    split at h
    · exact List.mem_cons_of_mem _ h
    · rcases List.mem_cons.1 h with rfl | h
      · exact List.mem_cons_self
      · exact List.mem_cons_of_mem _ (ih h)

/-- Setting pairs one after another leaves the last one of each key. -/
theorem Table.get?_setAll_filter {κ ν : Type} [DecidableEq κ] (table : Table κ ν) (pairs : List (κ × ν))
    (key : κ) :
    (table.setAll pairs).get? key =
      (table.setAll (pairs.filter fun pair => pair.1 = key)).get? key := by
  have hset : ∀ first second : Table κ ν, first.get? key = second.get? key →
      (first.setAll pairs).get? key =
        (second.setAll (pairs.filter fun pair => pair.1 = key)).get? key := by
    induction pairs with
    | nil => exact fun _ _ h => h
    | cons pair rest ih =>
      intro first second h
      rw [List.filter_cons]
      split
      · refine ih _ _ ?_
        rw [Table.get?_set, Table.get?_set, h]
      · next hkey =>
        refine ih _ _ ?_
        rw [Table.get?_set, if_neg (by simpa using hkey), h]
  exact hset table table rfl

theorem under_put_of_ne (h : key ≠ name) : (scope.put key value).under name = scope.under name := by
  unfold Scope.under Scope.get? Scope.put
  dsimp only
  rw [Table.get?_set, if_neg h]

theorem under_put (scope : Scope) (name : String) (value : Value) :
    (scope.put name value).under name = (some value, (scope.under name).2) := by
  unfold Scope.under Scope.get? Scope.put
  dsimp only
  rw [Table.get?_set_self]

theorem Blocks.under_append_of_ne (h : key ≠ name) (blocks : Blocks) (values : List Value) :
    (blocks.append key values).under name = blocks.under name :=
  congrArg (List.map Prod.snd) (Table.filter_set_of_ne h _)

theorem Blocks.under_append {blocks : Blocks} (h : blocks.under name = []) (values : List Value) :
    (blocks.append name values).under name = [values] := by
  have hnone : blocks.filter (fun entry => entry.1 = name) = [] := List.map_eq_nil_iff.1 h
  unfold Blocks.append Blocks.under
  rw [Table.get?_of_filter hnone, Table.filter_set_of_none hnone]
  rfl

theorem Blocks.under_appendAll {later : Blocks} (h : later.under name = []) (blocks : Blocks) :
    (later.foldl (fun all entry => Blocks.append all entry.1 entry.2) blocks).under name =
      blocks.under name := by
  refine List.foldlRecOn (motive := fun all => Blocks.under all name = blocks.under name) later _ rfl
    fun all hall entry hentry => ?_
  have hnone := List.filter_eq_nil_iff.1 (List.map_eq_nil_iff.1 h) entry hentry
  exact (Blocks.under_append_of_ne (fun hkey => hnone (decide_eq_true hkey)) _ _).trans hall

theorem under_addBlock (h : (scope.under name).2 = []) :
    (scope.addBlock name value).under name = ((scope.under name).1, [[value]]) :=
  Prod.ext rfl (Blocks.under_append h _)

theorem under_extendScope {entries : Bindings} (h : Table.Distinct entries) (scope : Scope)
    (name : String) :
    (extendScope scope entries).under name =
      (Option.merge Value.merge (scope.get? name) (Table.get? entries name),
        (scope.under name).2) := by
  rw [extendScope_eq]
  exact Prod.ext (Value.get?_mergeEntries h scope.values name) rfl

theorem under_extendScope_blocks (scope : Scope) (entries : Bindings) (name : String) :
    ((extendScope scope entries).under name).2 = (scope.under name).2 := by
  rw [extendScope_eq]
  rfl

/-- Without blocks under a name the field is its value. -/
theorem get?_fields_of_value {found : Option Value} (h : scope.under name = (found, [])) :
    Table.get? scope.fields name = found := by
  obtain ⟨hvalue, hblocks⟩ := Prod.mk.inj h
  unfold Scope.fields
  rw [Table.get?_setAll_filter, List.filter_map]
  have hnone : scope.blocks.filter (fun entry => entry.1 = name) = [] := List.map_eq_nil_iff.1 hblocks
  show Table.get? (Table.setAll scope.values ((scope.blocks.filter fun entry => entry.1 = name).map _))
    name = found
  rw [hnone]
  exact hvalue

/-- With a single block under a name the field is the value of the block. -/
theorem get?_fields_of_block (h : (scope.under name).2 = [[value]]) :
    Table.get? scope.fields name = some value := by
  unfold Scope.fields
  rw [Table.get?_setAll_filter, List.filter_map]
  obtain ⟨⟨key, values⟩, hfilter, hvalues⟩ := List.map_eq_singleton_iff.1 h
  have hvalues : values = [value] := hvalues
  subst hvalues
  have hkey : key = name := by
    have hmem : (key, [value]) ∈ scope.blocks.filter fun entry => entry.1 = name := by
      rw [hfilter]
      exact List.mem_cons_self
    exact of_decide_eq_true (List.mem_filter.1 hmem).2
  subst hkey
  show Table.get? (Table.setAll scope.values ((scope.blocks.filter fun entry => entry.1 = key).map _))
    key = some value
  rw [hfilter]
  exact Table.get?_set_self _ _ _

end Under

/-! ## Steps that leave something alone -/

namespace Step

variable {α β γ : Type} {seen : Scope → γ}

/-- However the step ends, as much is seen of the scope as before. -/
def Leaves (seen : Scope → γ) (step : Step α) : Prop :=
  ∀ p, seen (step.run p).2.scope = seen p.scope

theorem Still.leaves {step : Step α} (h : step.Still) : step.Leaves seen :=
  fun p => congrArg seen (h p)

theorem leaves_modify {change : Progress → Progress}
    (h : ∀ p, seen (change p).scope = seen p.scope) :
    (modify change : Step Unit).Leaves seen :=
  h

theorem Leaves.bind {m : Step α} {f : α → Step β} (hm : m.Leaves seen)
    (hf : ∀ a p q, m.run p = (.ok a, q) → (f a).Leaves seen) :
    (m >>= f).Leaves seen := by
  intro p
  have hfirst := hm p
  rw [run_bind]
  cases hrun : m.run p with
  | mk outcome q =>
    rw [hrun] at hfirst
    rcases outcome with i | a
    · exact hfirst
    · exact (hf a p q hrun q).trans hfirst

theorem Leaves.tried {step : Step Unit} (h : step.Leaves seen) : step.tried.Leaves seen := by
  intro p
  rw [tried_state]
  exact h p

theorem leaves_sequence {steps : List (Step Unit)} (h : ∀ step ∈ steps, step.Leaves seen) :
    (Step.sequence steps).Leaves seen := by
  induction steps with
  | nil => exact (still_pure _).leaves
  | cons step rest ih =>
    have hrest := ih fun other hother => h other (List.mem_cons_of_mem _ hother)
    exact (h step List.mem_cons_self).bind fun _ _ _ _ => hrest

theorem leaves_pass {steps : List (Step Unit)} (h : ∀ step ∈ steps, step.Leaves seen) :
    (Step.pass steps).Leaves seen := by
  induction steps with
  | nil => exact (still_pure _).leaves
  | cons step rest ih =>
    have hrest := ih fun other hother => h other (List.mem_cons_of_mem _ hother)
    rw [pass_cons]
    refine (h step List.mem_cons_self).tried.bind fun waiting _ _ _ => ?_
    refine hrest.bind fun passed _ _ _ => ?_
    cases waiting with
    | none => exact (still_pure _).leaves
    | some reasons => exact (still_pure _).leaves

theorem leaves_settle (bound : Nat) {steps : List (Step Unit)} (h : ∀ step ∈ steps, step.Leaves seen) :
    (Step.settle bound steps).Leaves seen := by
  induction bound generalizing steps with
  | zero => exact (still_pure _).leaves
  | succ bound ih =>
    unfold Step.settle
    refine (leaves_pass h).bind ?_
    rintro ⟨left, reasons⟩ p q hpass
    dsimp only
    split
    · exact (still_pure _).leaves
    · split
      · exact fun _ => rfl
      · exact ih fun step hstep => h step (pass_subset steps p q left reasons hpass step hstep)

theorem leaves_body {steps : List (Step Unit)} (h : ∀ step ∈ steps, step.Leaves seen) :
    (Step.body steps).Leaves seen :=
  leaves_settle _ h

end Step

/-! ## Directives that extend -/

/-- The entries that an `@extends` directive merges. -/
def Evaluator.extending (e : Evaluator) (frame : Frame) (d : Directive) : Step Bindings :=
  match d.arguments.head? with
  | none => Step.fail (.invalidDirective d.span d.name "expects a map or resource to extend")
  | some source => do
    let value ← e.reading frame d.span fun view => evaluate view source
    let progress ← get
    let entries ← Step.settled (extension progress.inventory d value)
    exclude e frame d (((d.clause? "exclude").map fun clause => clause.arguments).getD []) entries

section Extending

variable {e : Evaluator} {frame : Frame} {d : Directive} {p q : Progress} {name : String}

theorem still_extending : (e.extending frame d).Still := by
  unfold Evaluator.extending
  split
  · exact Step.still_fail _
  · refine (Step.still_reading _ _ _ _).bind fun value => ?_
    refine Step.still_get.bind fun progress => ?_
    exact (Step.still_settled _).bind fun entries => still_exclude d _ _

/-- What excluding names keeps of the entries. -/
theorem exclude_keeps {P : Bindings → Prop} (hP : ∀ entries name, P entries → P (Table.erase entries name))
    {arguments : List Node} {entries left : Bindings} (h : P entries)
    (hrun : (exclude e frame d arguments entries).run p = (.ok left, q)) :
    P left := by
  induction arguments generalizing entries p with
  | nil =>
    cases hrun
    exact h
  | cons argument rest ih =>
    obtain ⟨value, _, -, hrun⟩ := run_bind_eq_ok.1 hrun
    obtain ⟨names, _, -, hrun⟩ := run_bind_eq_ok.1 hrun
    exact ih (List.foldlRecOn names _ h fun table htable name _ => hP table name htable) hrun

theorem keys_of_evaluateEntries {view : View} {written : List Entry} {pairs : List (String × Value)}
    {reads reads' : List Key}
    (hrun : (evaluateEntries view written).run reads = (.ok pairs, reads')) :
    pairs.map Prod.fst = written.map Entry.key := by
  induction written generalizing pairs reads with
  | nil =>
    cases hrun
    rfl
  | cons entry rest ih =>
    obtain ⟨key, node, span⟩ := entry
    rw [evaluateEntries] at hrun
    obtain ⟨value, _, -, hrun⟩ := run_bind_eq_ok.1 hrun
    obtain ⟨later, _, hlater, hrun⟩ := run_bind_eq_ok.1 hrun
    cases hrun
    exact congrArg (key :: ·) (ih hlater)

/-- A map that is written out extends with distinct names, each of them written. -/
theorem extending_written {written : List Entry} {entries : Bindings}
    (hmap : d.arguments.head? = some (.map written))
    (hrun : (e.extending frame d).run p = (.ok entries, q)) :
    Table.Distinct entries ∧ ∀ pair ∈ entries, ∃ entry ∈ written, entry.key = pair.1 := by
  unfold Evaluator.extending at hrun
  rw [hmap] at hrun
  obtain ⟨value, after, hvalue, hrun⟩ := run_bind_eq_ok.1 hrun
  obtain ⟨progress, _, -, hrun⟩ := run_bind_eq_ok.1 hrun
  obtain ⟨found, _, hfound, hrun⟩ := run_bind_eq_ok.1 hrun
  rw [Step.reading_run, evaluate] at hvalue
  obtain ⟨pairs, _, hpairs, hmap⟩ := run_bind_eq_ok.1 (Prod.ext (Prod.mk.inj hvalue).1 rfl)
  cases hmap
  cases (Step.settled_run_eq_ok.1 hfound).1
  refine exclude_keeps (P := fun entries => Table.Distinct entries ∧
    ∀ pair ∈ entries, ∃ entry ∈ written, entry.key = pair.1) (fun entries name h => ?_)
    ⟨Table.distinct_ofPairs pairs, fun pair hpair => ?_⟩ hrun
  · exact ⟨Table.distinct_erase h.1 name, fun pair hpair => h.2 pair (Table.mem_of_erase hpair)⟩
  · have hkey := List.mem_map_of_mem (f := Prod.fst) (Table.mem_ofPairs hpair)
    rw [keys_of_evaluateEntries hpairs] at hkey
    exact List.mem_map.1 hkey

theorem step_extends (hname : d.name = "extends") :
    e.step frame (.directive d) = e.extending frame d >>= fun entries =>
      modify fun progress => { progress with scope := extendScope progress.scope entries } := by
  have hrun : e.step frame (.directive d) = runExtends e frame d := by
    obtain ⟨name, arguments, clauses, bodyless, body, branches, span⟩ := d
    obtain rfl : name = "extends" := hname
    unfold Evaluator.step runStatement runDirective
    rw [if_neg (by decide), if_neg (by decide), if_pos rfl]
  rw [hrun]
  unfold runExtends Evaluator.extending
  cases d.arguments.head? with
  | none => rfl
  | some source => simp only [bind_assoc]

end Extending

/-! ## Names that statements set and fill -/

/-- The statement can give the name a value in the scope around it. -/
inductive Sets (name : String) : Node → Prop
  | pair {entry : Entry} (hkey : entry.key = name) : Sets name (.pair entry)
  | extends {d : Directive} (hname : d.name = "extends")
      (hentries : ∀ written, d.arguments.head? = some (.map written) →
        ∃ entry ∈ written, entry.key = name) : Sets name (.directive d)
  | choice {d : Directive} {nodes : List Node} {child : Node} (hname : d.name = "if")
      (hoffers : Offers d nodes) (hchild : child ∈ nodes) (h : Sets name child) :
      Sets name (.directive d)

/-- The statement can fill a block of that name for the scope around it. -/
inductive Fills (name : String) : Node → Prop
  | block {key : String} {source : List Node} {span : Span} (hkey : key = name) :
      Fills name (.block key source span)
  | choice {d : Directive} {nodes : List Node} {child : Node} (hname : d.name = "if")
      (hoffers : Offers d nodes) (hchild : child ∈ nodes) (h : Fills name child) :
      Fills name (.directive d)
  | loop {d : Directive} {child : Node} (hname : d.name = "for") (hchild : child ∈ d.body)
      (h : Fills name child) : Fills name (.directive d)

section Framing

variable {e : Evaluator} {name : String}

theorem leaves_choice {γ : Type} {seen : Scope → γ} {frame : Frame} {d : Directive}
    (hname : d.name = "if")
    (h : ∀ nodes, Offers d nodes → ∀ child ∈ nodes, (runStatement e child frame).Leaves seen) :
    (runStatement e (.directive d) frame).Leaves seen := by
  unfold runStatement
  rw [runDirective_choice hname]
  refine still_chosen.leaves.bind fun nodes p q hchosen => Step.leaves_body fun step hstep => ?_
  rw [runStatements_eq_step] at hstep
  obtain ⟨child, hchild, rfl⟩ := List.mem_map.1 hstep
  exact h nodes (offered_of_chosen hchosen) child hchild

theorem step_loop {frame : Frame} {d : Directive} (hname : d.name = "for") :
    runStatement e (.directive d) frame = e.rounds frame d >>= fun found =>
      runIterations frame d.span found.1 (fun inner => Step.sequence (runStatements e d.body inner)) 0
        found.2 >>= fun blocks =>
          modify fun progress => { progress with scope := progress.scope.extendBlocks blocks } := by
  unfold runStatement
  rw [runDirective_loop hname, runLoop_eq]

/-- A directive that neither chooses, loops nor extends leaves the scope alone. -/
theorem still_directive {frame : Frame} {d : Directive} (hchoice : d.name ≠ "if")
    (hloop : d.name ≠ "for") (hextends : d.name ≠ "extends") :
    (runStatement e (.directive d) frame).Still := by
  obtain ⟨name, arguments, clauses, bodyless, body, branches, span⟩ := d
  unfold runStatement runDirective
  rw [if_neg hchoice, if_neg hloop, if_neg hextends]
  split
  · unfold runCredentials
    split
    · exact Step.still_fail _
    · split
      · exact Step.still_fail _
      · refine (Step.still_reading _ _ _ _).bind fun value => ?_
        split
        · exact fun _ => rfl
        · exact Step.still_fail _
  · repeat' split
    all_goals exact Step.still_fail _

/-- Statements that are spared leave alone what is seen of a scope if pairs, blocks, loops and
extensions do that are spared, and what is in a spared choice is spared. -/
theorem leaves_spared {γ : Type} {seen : Scope → γ} (Spared : Node → Prop)
    (hpair : ∀ entry, Spared (.pair entry) → ∀ scope value,
      seen (scope.put entry.key value) = seen scope)
    (hblock : ∀ key source span, Spared (.block key source span) → ∀ scope value,
      seen (scope.addBlock key value) = seen scope)
    (hchoice : ∀ d, d.name = "if" → Spared (.directive d) → ∀ nodes, Offers d nodes →
      ∀ child ∈ nodes, Spared child)
    (hloop : ∀ d frame, d.name = "for" → Spared (.directive d) →
      (∀ child ∈ d.body, Spared child → ∀ frame, (runStatement e child frame).Leaves seen) →
        (runStatement e (.directive d) frame).Leaves seen)
    (hextends : ∀ d frame p entries q, d.name = "extends" → Spared (.directive d) →
      (e.extending frame d).run p = (.ok entries, q) →
        ∀ scope, seen (extendScope scope entries) = seen scope)
    {node : Node} (h : Spared node) (frame : Frame) :
    (runStatement e node frame).Leaves seen := by
  induction node using Node.induction generalizing frame with
  | step node ih =>
    cases node with
    | pair entry =>
      have hput := hpair entry h
      obtain ⟨key, value, span⟩ := entry
      unfold runStatement
      exact (Step.still_reading _ _ _ _).leaves.bind fun value _ _ _ =>
        Step.leaves_modify fun p => hput p.scope value
    | resource typeText text source span => exact (still_resource _ _ _ _).leaves
    | block key source span =>
      unfold runStatement
      split
      · exact (Step.still_fail _).leaves
      · exact (Step.still_inScope _ _).leaves.bind fun _ _ _ _ =>
          Step.leaves_modify fun p => hblock key source span h p.scope _
    | directive d =>
      by_cases hif : d.name = "if"
      · refine leaves_choice hif fun nodes hoffers child hchild => ?_
        exact ih child (Node.mem_children_of_inner (hoffers.inner hchild))
          (hchoice d hif h nodes hoffers child hchild) frame
      by_cases hfor : d.name = "for"
      · exact hloop d frame hfor h fun child hchild hspared inner =>
          ih child (Node.mem_children_of_inner (List.mem_append_left _ hchild)) hspared inner
      by_cases hmerge : d.name = "extends"
      · have hstep : runStatement e (.directive d) frame = _ := step_extends hmerge
        rw [hstep]
        exact still_extending.leaves.bind fun entries p q hentries =>
          Step.leaves_modify fun _ => hextends d frame p entries q hmerge h hentries _
      · exact (still_directive hif hfor hmerge).leaves
    | _ => exact (Step.still_fail _).leaves

/-- A statement that does not set a name leaves its value alone. -/
theorem leaves_value {node : Node} (h : ¬ Sets name node) (frame : Frame) :
    (runStatement e node frame).Leaves fun scope => scope.get? name := by
  refine leaves_spared (fun node => ¬ Sets name node) ?_ ?_ ?_ ?_ ?_ h frame
  · exact fun entry hspared scope value =>
      congrArg Prod.fst (under_put_of_ne fun hkey => hspared (.pair hkey))
  · exact fun _ _ _ _ _ _ => rfl
  · exact fun d hif hspared nodes hoffers child hchild hsets =>
      hspared (.choice hif hoffers hchild hsets)
  · intro d frame hfor _ _
    rw [step_loop hfor]
    refine still_rounds.leaves.bind fun found _ _ _ => ?_
    exact (still_runIterations _ _ _ _).leaves.bind fun _ _ _ _ => Step.leaves_modify fun p => rfl
  · intro d frame p entries q hmerge hspared hentries scope
    -- only a map that is written out can be known to spare the name
    obtain ⟨written, hmap, hnone⟩ : ∃ written, d.arguments.head? = some (.map written) ∧
        ∀ entry ∈ written, entry.key ≠ name := by
      by_contra hall
      push Not at hall
      exact hspared (.extends hmerge hall)
    obtain ⟨hdistinct, hkeys⟩ := extending_written hmap hentries
    have hget : Table.get? entries name = none := by
      refine Option.not_isSome_iff_eq_none.1 fun hsome => ?_
      obtain ⟨pair, hpair, hkey⟩ := List.mem_map.1 (Table.mem_keys_iff.2 hsome)
      obtain ⟨entry, hentry, heq⟩ := hkeys pair hpair
      exact hnone entry hentry (heq.trans hkey)
    have hunder := congrArg Prod.fst (under_extendScope hdistinct scope name)
    rw [hget] at hunder
    exact hunder.trans (by cases scope.get? name <;> rfl)

theorem Scope.blocks_iteration (scope : Scope) (names : List String) (values : List Value) :
    (scope.iteration names values).blocks = [] :=
  List.foldlRecOn (motive := fun inner => Scope.blocks inner = []) (names.zip values) _ rfl
    fun _ hinner _ _ => hinner

/-- The blocks that come of a loop have none of a name that no statement in it fills. -/
theorem under_of_iterations {frame : Frame} {d : Directive} {bound : List String} {index : Nat}
    {rounds : List (List Value)} {blocks : Blocks} {p q : Progress}
    (h : ∀ child ∈ d.body, ∀ frame, (runStatement e child frame).Leaves fun scope =>
      scope.blocks.under name)
    (hrun : (runIterations frame d.span bound
      (fun inner => Step.sequence (runStatements e d.body inner)) index rounds).run p =
        (.ok blocks, q)) :
    blocks.under name = [] := by
  induction rounds generalizing index p blocks with
  | nil =>
    cases hrun
    rfl
  | cons values rest ih =>
    rw [runIterations_cons] at hrun
    obtain ⟨scope, between, hfirst, hrun⟩ := run_bind_eq_ok.1 hrun
    obtain ⟨later, last, hrest, hrun⟩ := run_bind_eq_ok.1 hrun
    cases hrun
    rw [Blocks.under_appendAll (ih hrest)]
    have hleaves : (Step.sequence (runStatements e d.body (frame.iteration d.span index))).Leaves
        fun scope => scope.blocks.under name := by
      refine Step.leaves_sequence fun step hstep => ?_
      rw [runStatements_eq_step] at hstep
      obtain ⟨child, hchild, rfl⟩ := List.mem_map.1 hstep
      exact h child hchild _
    have hscope := hleaves { p with scope := p.scope.iteration bound values }
    rw [Step.inScope_run] at hfirst
    generalize (Step.sequence (runStatements e d.body (frame.iteration d.span index))).run
      { p with scope := p.scope.iteration bound values } = result at hfirst hscope
    obtain ⟨outcome, after⟩ := result
    rcases outcome with interrupt | ⟨⟩
    · cases hfirst
    · cases hfirst
      exact hscope.trans
        (congrArg (fun blocks => Blocks.under blocks name) (Scope.blocks_iteration _ _ _))

/-- A statement that fills no block of a name leaves the blocks of that name alone. -/
theorem leaves_blocks {node : Node} (h : ¬ Fills name node) (frame : Frame) :
    (runStatement e node frame).Leaves fun scope => scope.blocks.under name := by
  refine leaves_spared (fun node => ¬ Fills name node) ?_ ?_ ?_ ?_ ?_ h frame
  · exact fun _ _ _ _ => rfl
  · exact fun key source span hspared scope value =>
      Blocks.under_append_of_ne (fun hkey => hspared (.block hkey)) _ _
  · exact fun d hif hspared nodes hoffers child hchild hfills =>
      hspared (.choice hif hoffers hchild hfills)
  · intro d frame hfor hspared hinner
    rw [step_loop hfor]
    refine still_rounds.leaves.bind fun found _ _ _ => ?_
    refine (still_runIterations _ _ _ _).leaves.bind fun blocks p q hiterations => ?_
    refine Step.leaves_modify fun p => Blocks.under_appendAll ?_ _
    exact under_of_iterations (fun child hchild => hinner child hchild fun hfills =>
      hspared (.loop hfor hchild hfills)) hiterations
  · intro d frame p entries q _ _ _ scope
    exact under_extendScope_blocks scope entries name

/-- A statement that neither sets nor fills a name leaves alone all that is under it. -/
theorem leaves_under {node : Node} (hsets : ¬ Sets name node) (hfills : ¬ Fills name node)
    (frame : Frame) :
    (runStatement e node frame).Leaves fun scope => scope.under name :=
  fun p => Prod.ext (leaves_value hsets frame p) (leaves_blocks hfills frame p)

end Framing

end Provision

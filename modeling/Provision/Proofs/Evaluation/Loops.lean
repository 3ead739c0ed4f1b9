import Provision.Proofs.Evaluation.Framing

/-!
# What a loop leaves behind

The variables of a loop take the items of a list in groups, or the entries of a map one by one.
Each iteration runs in a scope of its own, so that of the scope around the loop nothing changes but
its blocks, and these only when every iteration is done: then the blocks of the iterations follow
those that were there, name by name and in order.
-/

namespace Provision

open Provision.Language (Node Directive)

/-! ## The values of the variables -/

section Chunks

variable {size bound : Nat} {items : List Value}

theorem chunks_nil (size bound : Nat) : chunks size bound [] = [] := by
  cases bound <;> rfl

theorem chunks_succ (size bound : Nat) (hne : items ≠ []) :
    chunks size (bound + 1) items =
      (items.take size ++ List.replicate (size - (items.take size).length) .null) ::
        chunks size bound (items.drop size) := by
  cases items with
  | nil => exact absurd rfl hne
  | cons item rest => rfl

/-- There are as many groups as it takes to hold all items. -/
theorem length_chunks (hsize : 0 < size) (hbound : items.length ≤ bound) :
    (chunks size bound items).length = (items.length + size - 1) / size := by
  induction bound generalizing items with
  | zero =>
    obtain rfl := List.length_eq_zero_iff.1 (Nat.le_zero.1 hbound)
    rw [chunks_nil, List.length_nil, Nat.div_eq_of_lt (by simpa using Nat.sub_lt hsize Nat.one_pos)]
  | succ bound ih =>
    by_cases hne : items = []
    · subst hne
      rw [chunks_nil, List.length_nil,
        Nat.div_eq_of_lt (by simpa using Nat.sub_lt hsize Nat.one_pos)]
    · have hpositive := List.length_pos_iff.2 hne
      have hrest : (items.drop size).length ≤ bound := by
        rw [List.length_drop]
        omega
      have hlast : (items.length + size - 1) / size = (items.length - 1) / size + 1 := by
        rw [← Nat.add_div_right _ hsize]
        congr 1
        omega
      rw [chunks_succ size bound hne, List.length_cons, ih hrest, List.length_drop, hlast]
      congr 1
      rcases Nat.lt_or_ge items.length size with hless | hge
      · rw [Nat.div_eq_of_lt (by omega), Nat.div_eq_of_lt (by omega)]
      · congr 1
        omega

theorem length_of_mem_chunks {tuple : List Value} (h : tuple ∈ chunks size bound items) :
    tuple.length = size := by
  induction bound generalizing items with
  | zero => cases h
  | succ bound ih =>
    by_cases hne : items = []
    · rw [hne, chunks_nil] at h
      cases h
    · rw [chunks_succ size bound hne] at h
      rcases List.mem_cons.1 h with rfl | h
      · rw [List.length_append, List.length_replicate, List.length_take]
        omega
      · exact ih h

/-- One after another the groups are the items, filled up with less nulls than a group has places. -/
theorem flatten_chunks (hsize : 0 < size) (hbound : items.length ≤ bound) :
    ∃ padding < size, (chunks size bound items).flatten = items ++ List.replicate padding .null := by
  induction bound generalizing items with
  | zero =>
    obtain rfl := List.length_eq_zero_iff.1 (Nat.le_zero.1 hbound)
    exact ⟨0, hsize, rfl⟩
  | succ bound ih =>
    by_cases hne : items = []
    · subst hne
      exact ⟨0, hsize, rfl⟩
    · have hpositive := List.length_pos_iff.2 hne
      rw [chunks_succ size bound hne, List.flatten_cons]
      rcases Nat.lt_or_ge items.length size with hless | hge
      · -- the only group is not full
        rw [List.drop_eq_nil_of_le hless.le, chunks_nil, List.take_of_length_le hless.le,
          List.flatten_nil, List.append_nil]
        exact ⟨size - items.length, by omega, rfl⟩
      · have hfewer : (items.drop size).length ≤ bound := by
          rw [List.length_drop]
          omega
        obtain ⟨padding, hpadding, hflatten⟩ := ih hfewer
        refine ⟨padding, hpadding, ?_⟩
        rw [hflatten, List.length_take_of_le hge, Nat.sub_self, List.replicate_zero,
          List.append_nil, ← List.append_assoc, List.take_append_drop]

end Chunks

/-- The values that some variables take when a loop runs over a value. -/
structure Loops (count : Nat) (value : Value) (tuples : List (List Value)) : Prop where
  /-- Lists are taken in full groups; nulls fill up the last one. -/
  list : ∀ items, value = .list items →
    tuples.length = (items.length + count - 1) / count ∧
    (∀ tuple ∈ tuples, tuple.length = count) ∧
    ∃ padding < count, tuples.flatten = items ++ List.replicate padding .null
  keys : ∀ entries, value = .map entries → count = 1 →
    tuples = entries.map fun entry => [.text entry.1]
  entries : ∀ entries, value = .map entries → count = 2 →
    tuples = entries.map fun entry => [.text entry.1, entry.2]
  null : value = .null → tuples = []

theorem loops_of_iterations {d : Directive} {count : Nat} {value : Value}
    {tuples : List (List Value)} (hcount : 0 < count) (h : iterations d count value = .ok tuples) :
    Loops count value tuples := by
  constructor
  case list =>
    rintro items rfl
    cases h
    exact ⟨length_chunks hcount (Nat.le_refl _), fun tuple => length_of_mem_chunks,
      flatten_chunks hcount (Nat.le_refl _)⟩
  case keys =>
    rintro entries rfl rfl
    cases h
    rfl
  case entries =>
    rintro entries rfl rfl
    cases h
    rfl
  case null =>
    rintro rfl
    cases h
    rfl

theorem get?_putAll_of_ne {pairs : List (String × Value)} {name : String}
    (h : ∀ pair ∈ pairs, pair.1 ≠ name) (scope : Scope) :
    (pairs.foldl (fun s entry => s.put entry.1 entry.2) scope).get? name = scope.get? name := by
  refine List.foldlRecOn (motive := fun inner => Scope.get? inner name = scope.get? name) pairs _ rfl
    fun inner hinner pair hpair => ?_
  exact (congrArg Prod.fst (under_put_of_ne (h pair hpair))).trans hinner

/-- In an iteration each variable has its value, when the variables are different. -/
theorem Scope.get?_iteration {names : List String} (hnames : names.Nodup) {values : List Value}
    {pair : String × Value} (h : pair ∈ names.zip values) (scope : Scope) :
    (scope.iteration names values).get? pair.1 = some pair.2 := by
  unfold Scope.iteration
  generalize scope.child = inner
  induction names generalizing values inner with
  | nil => cases h
  | cons name rest ih =>
    cases values with
    | nil => cases h
    | cons value others =>
      obtain ⟨hname, hrest⟩ := List.nodup_cons.1 hnames
      rw [List.zip_cons_cons, List.foldl_cons]
      rcases List.mem_cons.1 h with rfl | h
      · have hlater : ∀ other ∈ rest.zip others, other.1 ≠ name := by
          rintro other hother rfl
          exact hname (List.of_mem_zip hother).1
        rw [get?_putAll_of_ne hlater]
        exact Table.get?_set_self _ _ _
      · exact ih hrest h _

/-! ## Collected blocks -/

/-- The values that were collected under a name, in order. -/
def Blocks.valuesOf (blocks : Blocks) (name : String) : List Value :=
  (Table.get? blocks name).getD []

section Blocks

variable {blocks later : Blocks}

theorem Blocks.valuesOf_append (blocks : Blocks) (key name : String) (values : List Value) :
    (blocks.append key values).valuesOf name =
      blocks.valuesOf name ++ if key = name then values else [] := by
  unfold Blocks.append Blocks.valuesOf
  rw [Table.get?_set]
  split
  · next h => rw [h, Option.getD_some]
  · rw [List.append_nil]

/-- Blocks that are appended follow those of the same name. -/
theorem Blocks.valuesOf_appendAll (h : Table.Distinct later) (blocks : Blocks) (name : String) :
    (later.foldl (fun all entry => Blocks.append all entry.1 entry.2) blocks).valuesOf name =
      blocks.valuesOf name ++ later.valuesOf name := by
  induction later generalizing blocks with
  | nil => exact (List.append_nil _).symm
  | cons entry rest ih =>
    obtain ⟨key, values⟩ := entry
    obtain ⟨hkey, hrest⟩ := List.nodup_cons.1 h
    rw [List.foldl_cons, ih hrest, Blocks.valuesOf_append, List.append_assoc]
    congr 1
    unfold Blocks.valuesOf
    rw [Table.get?]
    split
    · next heq =>
      subst heq
      have hnone : Table.get? rest key = none :=
        Option.not_isSome_iff_eq_none.1 fun hsome => hkey (Table.mem_keys_iff.2 hsome)
      rw [hnone, Option.getD_none, Option.getD_some, List.append_nil]
    · rfl

theorem Blocks.distinct_append_iff (blocks : Blocks) (key : String) (values : List Value) :
    Table.Distinct (blocks.append key values) ↔ Table.Distinct blocks := by
  unfold Blocks.append Table.Distinct
  rw [Table.keys_set]
  split
  · exact Iff.rfl
  · next hnone =>
    rw [List.nodup_append]
    refine ⟨And.left, fun h => ⟨h, List.nodup_singleton _, fun first hfirst second hsecond heq => ?_⟩⟩
    rw [List.mem_singleton.1 hsecond] at heq
    exact hnone (heq ▸ hfirst)

theorem Blocks.distinct_appendAll_iff (later blocks : Blocks) :
    Table.Distinct (later.foldl (fun all entry => Blocks.append all entry.1 entry.2) blocks) ↔
      Table.Distinct blocks := by
  induction later generalizing blocks with
  | nil => exact Iff.rfl
  | cons entry rest ih => exact (ih _).trans (Blocks.distinct_append_iff _ _ _)

end Blocks

/-- Whatever a statement does, the blocks of a scope keep one place for each name. -/
theorem leaves_distinct (e : Evaluator) (node : Node) (frame : Frame) :
    (runStatement e node frame).Leaves fun scope => Table.Distinct scope.blocks := by
  refine leaves_spared (fun _ => True) ?_ ?_ ?_ ?_ ?_ trivial frame
  · exact fun _ _ _ _ => rfl
  · exact fun key _ _ _ scope value => propext (Blocks.distinct_append_iff scope.blocks key [value])
  · exact fun _ _ _ _ _ _ _ => trivial
  · intro d frame hfor _ _
    rw [step_loop hfor]
    refine still_rounds.leaves.bind fun found _ _ _ => ?_
    refine (still_runIterations _ _ _ _).leaves.bind fun blocks _ _ _ => ?_
    exact Step.leaves_modify fun p =>
      propext (Blocks.distinct_appendAll_iff blocks p.scope.blocks)
  · intro d frame p entries q _ _ _ scope
    rw [extendScope_eq]

/-! ## Iterations -/

/-- Iterations that all get done, each in a scope of its own with the scope around it as it was: the
scopes that they end with, and the progress in the end. -/
inductive Iterated (frame : Frame) (span : Span) (names : List String) (run : Frame → Step Unit) :
    Nat → Progress → List (List Value) → List Scope → Progress → Prop
  | done {index : Nat} {p : Progress} : Iterated frame span names run index p [] [] p
  | next {index : Nat} {p after q : Progress} {values : List Value} {rest : List (List Value)}
      {scopes : List Scope}
      (hrun : (run (frame.iteration span index)).run
        { p with scope := p.scope.iteration names values } = (.ok (), after))
      (hrest : Iterated frame span names run (index + 1) { after with scope := p.scope } rest scopes
        q) :
      Iterated frame span names run index p (values :: rest) (after.scope :: scopes) q

/-- The blocks of several scopes, name by name. -/
def gathered : List Scope → Blocks
  | [] => []
  | scope :: rest =>
    (gathered rest).foldl (fun all entry => Blocks.append all entry.1 entry.2) scope.blocks

section Iterations

variable {frame : Frame} {span : Span} {names : List String} {run : Frame → Step Unit} {index : Nat}
variable {p q after between : Progress} {tuples front rest : List (List Value)} {values : List Value}
variable {scopes : List Scope} {blocks : Blocks} {i : Interrupt}

/-- The scope around the iterations is the same in the end. -/
theorem Iterated.scope_eq (h : Iterated frame span names run index p tuples scopes q) :
    q.scope = p.scope := by
  induction h with
  | done => rfl
  | next hrun hrest ih => exact ih

/-- Each tuple of values has one iteration. -/
theorem Iterated.length_eq (h : Iterated frame span names run index p tuples scopes q) :
    scopes.length = tuples.length := by
  induction h with
  | done => rfl
  | next hrun hrest ih => exact congrArg Nat.succ ih

theorem runIterations_of_done
    (hrun : (run (frame.iteration span index)).run
      { p with scope := p.scope.iteration names values } = (.ok (), after)) :
    (runIterations frame span names run index (values :: rest)).run p =
      (((runIterations frame span names run (index + 1) rest).run
          { after with scope := p.scope }).1.map fun later =>
            later.foldl (fun all entry => Blocks.append all entry.1 entry.2) after.scope.blocks,
        ((runIterations frame span names run (index + 1) rest).run
          { after with scope := p.scope }).2) := by
  have hfirst : (Step.inScope (fun scope => scope.iteration names values)
      (run (frame.iteration span index))).run p = (.ok after.scope, { after with scope := p.scope }) := by
    rw [Step.inScope_run, hrun]
    rfl
  rw [runIterations_cons, run_bind_ok hfirst, run_bind]
  generalize (runIterations frame span names run (index + 1) rest).run
    { after with scope := p.scope } = result
  obtain ⟨outcome, last⟩ := result
  cases outcome <;> rfl

theorem runIterations_of_error
    (hrun : (run (frame.iteration span index)).run
      { p with scope := p.scope.iteration names values } = (.error i, after)) :
    (runIterations frame span names run index (values :: rest)).run p =
      (.error i, { after with scope := p.scope }) := by
  have hfirst : (Step.inScope (fun scope => scope.iteration names values)
      (run (frame.iteration span index))).run p = (.error i, { after with scope := p.scope }) := by
    rw [Step.inScope_run, hrun]
    rfl
  rw [runIterations_cons, run_bind_error hfirst]

/-- When all iterations get done, their blocks are gathered. -/
theorem Iterated.run_eq (h : Iterated frame span names run index p tuples scopes q) :
    (runIterations frame span names run index tuples).run p = (.ok (gathered scopes), q) := by
  induction h with
  | done => rfl
  | next hrun hrest ih =>
    rw [runIterations_of_done hrun, ih]
    rfl

/-- The first iteration that does not get done ends the others. -/
theorem Iterated.run_error (h : Iterated frame span names run index p front scopes between)
    (hrun : (run (frame.iteration span (index + front.length))).run
      { between with scope := between.scope.iteration names values } = (.error i, after)) :
    (runIterations frame span names run index (front ++ values :: rest)).run p =
      (.error i, { after with scope := p.scope }) := by
  induction h with
  | done => exact runIterations_of_error hrun
  | next hfirst hrest ih =>
    rw [List.length_cons, Nat.add_comm _ 1, ← Nat.add_assoc] at hrun
    rw [List.cons_append, runIterations_of_done hfirst, ih hrun]
    rfl

/-- Either all iterations get done, or one of them does not and those before it do. -/
theorem iterated_or_stopped (frame : Frame) (span : Span) (names : List String)
    (run : Frame → Step Unit) (index : Nat) (p : Progress) (tuples : List (List Value)) :
    (∃ scopes q, Iterated frame span names run index p tuples scopes q) ∨
      ∃ front values rest scopes between i after, tuples = front ++ values :: rest ∧
        Iterated frame span names run index p front scopes between ∧
        (run (frame.iteration span (index + front.length))).run
          { between with scope := between.scope.iteration names values } = (.error i, after) := by
  induction tuples generalizing index p with
  | nil => exact Or.inl ⟨[], p, .done⟩
  | cons values rest ih =>
    cases hrun : (run (frame.iteration span index)).run
      { p with scope := p.scope.iteration names values } with
    | mk outcome after =>
      cases outcome with
      | error i => exact Or.inr ⟨[], values, rest, [], p, i, after, rfl, .done, hrun⟩
      | ok done =>
        rcases ih (index + 1) { after with scope := p.scope } with
          ⟨scopes, q, hrest⟩ | ⟨front, stopped, later, scopes, between, i, last, rfl, hrest, hstop⟩
        · exact Or.inl ⟨_, q, .next hrun hrest⟩
        · refine Or.inr ⟨values :: front, stopped, later, _, between, i, last, rfl,
            .next hrun hrest, ?_⟩
          rw [List.length_cons, Nat.add_comm _ 1, ← Nat.add_assoc]
          exact hstop

theorem distinct_gathered (h : ∀ scope ∈ scopes, Table.Distinct scope.blocks) :
    Table.Distinct (gathered scopes) := by
  cases scopes with
  | nil => exact List.nodup_nil
  | cons scope rest => exact (Blocks.distinct_appendAll_iff _ _).2 (h scope List.mem_cons_self)

/-- What is gathered under a name are the blocks of the iterations under that name, in order. -/
theorem valuesOf_gathered (h : ∀ scope ∈ scopes, Table.Distinct scope.blocks) (name : String) :
    (gathered scopes).valuesOf name = scopes.flatMap fun scope => scope.blocks.valuesOf name := by
  induction scopes with
  | nil => rfl
  | cons scope rest ih =>
    have hrest : ∀ other ∈ rest, Table.Distinct other.blocks :=
      fun other hother => h other (List.mem_cons_of_mem _ hother)
    rw [gathered, Blocks.valuesOf_appendAll (distinct_gathered hrest), ih hrest,
      List.flatMap_cons]

theorem Iterated.distinct {e : Evaluator} {nodes : List Node}
    (h : Iterated frame span names (fun inner => Step.sequence (runStatements e nodes inner)) index p
      tuples scopes q) :
    ∀ scope ∈ scopes, Table.Distinct scope.blocks := by
  induction h with
  | done => exact fun scope hscope => nomatch hscope
  | @next index p after q values rest scopes hrun hrest ih =>
    refine List.forall_mem_cons.2 ⟨?_, ih⟩
    have hleaves : (Step.sequence (runStatements e nodes (frame.iteration span index))).Leaves
        fun scope => Table.Distinct scope.blocks := by
      refine Step.leaves_sequence fun step hstep => ?_
      rw [runStatements_eq_step] at hstep
      obtain ⟨child, -, rfl⟩ := List.mem_map.1 hstep
      exact leaves_distinct e child _
    have hblocks := hleaves { p with scope := p.scope.iteration names values }
    rw [hrun] at hblocks
    refine (iff_of_eq hblocks).2 ?_
    dsimp only
    rw [Scope.blocks_iteration]
    exact List.nodup_nil

end Iterations

/-! ## Loops -/

/-- The head of a loop: its variables, and the value that they run over. -/
structure LoopHead (e : Evaluator) (frame : Frame) (d : Directive) (p : Progress)
    (names : List String) (value : Value) (read : Progress) : Prop where
  named : loopNames d d.arguments = .ok names
  nonempty : names ≠ []
  source : ∃ source, ((d.clause? "in").bind fun clause => clause.arguments.head?) = some source ∧
    (e.reading frame d.span fun view => evaluate view source).run p = (.ok value, read)

/-- What the body of a loop does in each iteration. -/
def Evaluator.loopBody (e : Evaluator) (d : Directive) (inner : Frame) : Step Unit :=
  Step.sequence (runStatements e d.body inner)

/-- The loop goes through the tuples from the first on, and each iteration gets done. -/
def Evaluator.Iterates (e : Evaluator) (frame : Frame) (d : Directive) (names : List String)
    (p : Progress) (tuples : List (List Value)) (scopes : List Scope) (q : Progress) : Prop :=
  Iterated frame d.span names (e.loopBody d) 0 p tuples scopes q

section Loops

variable {e : Evaluator} {frame : Frame} {d : Directive} {p q read last : Progress}
variable {scopes : List Scope} {names : List String}
variable {value : Value} {tuples : List (List Value)}

theorem rounds_eq_ok :
    (e.rounds frame d).run p = (.ok (names, tuples), read) ↔
      ∃ value, LoopHead e frame d p names value read ∧ iterations d names.length value = .ok tuples := by
  unfold Evaluator.rounds
  constructor
  · intro h
    obtain ⟨found, after, hfound, hhead⟩ := run_bind_eq_ok.1 h
    obtain ⟨hnames, rfl⟩ := Step.settled_run_eq_ok.1 hfound
    split at hhead
    · cases hhead
    · next hsome =>
      split at hhead
      · cases hhead
      · next source hsource =>
        obtain ⟨value, between, hvalue, hafter⟩ := run_bind_eq_ok.1 hhead
        obtain ⟨rounds, last, hrounds, hlast⟩ := run_bind_eq_ok.1 hafter
        obtain ⟨hiterations, rfl⟩ := Step.settled_run_eq_ok.1 hrounds
        cases hlast
        exact ⟨value, ⟨hnames, by simpa using hsome, source, hsource, hvalue⟩, hiterations⟩
  · rintro ⟨value, ⟨hnames, hsome, source, hsource, hvalue⟩, htuples⟩
    rw [run_bind_ok (Step.settled_run_eq_ok.2 ⟨hnames, rfl⟩), if_neg (by simpa using hsome)]
    rw [hsource]
    dsimp only
    rw [run_bind_ok hvalue, run_bind_ok (Step.settled_run_eq_ok.2 ⟨htuples, rfl⟩)]
    rfl

/-- A loop whose iterations all get done hands their blocks to the scope around it. -/
theorem loop_done (hname : d.name = "for") (hhead : LoopHead e frame d p names value read)
    (htuples : iterations d names.length value = .ok tuples)
    (h : e.Iterates frame d names read tuples scopes last) :
    (runStatement e (.directive d) frame).run p =
      (.ok (), { last with scope := p.scope.extendBlocks (gathered scopes) }) := by
  have hrounds := rounds_eq_ok.2 ⟨value, hhead, htuples⟩
  have hiterations : (runIterations frame d.span names (e.loopBody d) 0 tuples).run read =
      (.ok (gathered scopes), last) := h.run_eq
  have hscope : last.scope = p.scope := h.scope_eq.trans (still_of_run still_rounds hrounds)
  rw [step_loop hname, run_bind_ok hrounds]
  refine (run_bind_ok hiterations).trans ?_
  rw [run_modify, hscope]

/-- A loop ends with the first iteration that does not get done, and the scope around it is as
before. -/
theorem loop_stopped (hname : d.name = "for") (hhead : LoopHead e frame d p names value read)
    {front rest : List (List Value)} {values : List Value}
    (htuples : iterations d names.length value = .ok (front ++ values :: rest)) {after : Progress}
    {i : Interrupt} (h : e.Iterates frame d names read front scopes last)
    (hrun : (e.loopBody d (frame.iteration d.span front.length)).run
      { last with scope := last.scope.iteration names values } = (.error i, after)) :
    (runStatement e (.directive d) frame).run p = (.error i, { after with scope := p.scope }) := by
  have hrounds := rounds_eq_ok.2 ⟨value, hhead, htuples⟩
  have hscope : read.scope = p.scope := still_of_run still_rounds hrounds
  rw [← Nat.zero_add front.length] at hrun
  have hiterations : (runIterations frame d.span names (e.loopBody d) 0
      (front ++ values :: rest)).run read = (.error i, { after with scope := read.scope }) :=
    Iterated.run_error h hrun
  rw [step_loop hname, run_bind_ok hrounds]
  exact (run_bind_error hiterations).trans (by rw [hscope])

/-- A loop whose head is evaluated either has all its iterations done, or ends with one that is
not. -/
theorem loop_ends (hname : d.name = "for") (hhead : LoopHead e frame d p names value read)
    (htuples : iterations d names.length value = .ok tuples) :
    (∃ scopes last, e.Iterates frame d names read tuples scopes last ∧
      (runStatement e (.directive d) frame).run p =
        (.ok (), { last with scope := p.scope.extendBlocks (gathered scopes) })) ∨
      ∃ (i : Interrupt) (after : Progress), (runStatement e (.directive d) frame).run p =
        (.error i, { after with scope := p.scope }) := by
  rcases iterated_or_stopped frame d.span names (e.loopBody d) 0 read tuples with
    ⟨scopes, last, hall⟩ | ⟨front, values, rest, scopes, last, i, after, rfl, hfront, hstop⟩
  · exact Or.inl ⟨scopes, last, hall, loop_done hname hhead htuples hall⟩
  · rw [Nat.zero_add] at hstop
    exact Or.inr ⟨i, after, loop_stopped hname hhead htuples hfront hstop⟩

end Loops

/-- A loop goes through the items of a list in groups, or through the entries of a map, each time in
a scope of its own.  When every iteration gets done, so does the loop, and in the scope around it
nothing has changed but the blocks: those of the iterations follow, name by name and in order.  When
an iteration is deferred or fails, so is the loop, and the scope is as before. -/
theorem loop_isolated {e : Evaluator} {frame : Frame} {d : Directive} (hname : d.name = "for")
    (p : Progress) :
    (∀ q, (runStatement e (.directive d) frame).run p = (.ok (), q) →
      ∃ names value read tuples scopes last, LoopHead e frame d p names value read ∧
        Loops names.length value tuples ∧
        (names.Nodup → ∀ tuple ∈ tuples, ∀ pair ∈ names.zip tuple,
          (p.scope.iteration names tuple).get? pair.1 = some pair.2) ∧
        e.Iterates frame d names read tuples scopes last ∧ scopes.length = tuples.length ∧
        q.scope.values = p.scope.values ∧ q.scope.enclosing = p.scope.enclosing ∧
        ∀ name, q.scope.blocks.valuesOf name =
          p.scope.blocks.valuesOf name ++ scopes.flatMap fun scope => scope.blocks.valuesOf name) ∧
    (∀ names value read tuples scopes last, LoopHead e frame d p names value read →
      iterations d names.length value = .ok tuples →
      e.Iterates frame d names read tuples scopes last →
        ∃ q, (runStatement e (.directive d) frame).run p = (.ok (), q)) ∧
    (∀ names value read front values rest scopes last i after,
      LoopHead e frame d p names value read →
      iterations d names.length value = .ok (front ++ values :: rest) →
      e.Iterates frame d names read front scopes last →
      (e.loopBody d (frame.iteration d.span front.length)).run
        { last with scope := last.scope.iteration names values } = (.error i, after) →
        (runStatement e (.directive d) frame).run p = (.error i, { after with scope := p.scope })) ∧
    ∀ i q, (runStatement e (.directive d) frame).run p = (.error i, q) → q.scope = p.scope := by
  refine ⟨fun q hdone => ?_, fun names value read tuples scopes last hhead htuples hall =>
      ⟨_, loop_done hname hhead htuples hall⟩,
    fun names value read front values rest scopes last i after hhead htuples hfront hstop =>
      loop_stopped hname hhead htuples hfront hstop, fun i q herror => ?_⟩
  · have hrun := hdone
    rw [step_loop hname] at hrun
    obtain ⟨⟨names, tuples⟩, read, hrounds, -⟩ := run_bind_eq_ok.1 hrun
    obtain ⟨value, hhead, htuples⟩ := rounds_eq_ok.1 hrounds
    rcases loop_ends hname hhead htuples with ⟨scopes, last, hall, hloop⟩ | ⟨i, after, hloop⟩
    · cases hloop.symm.trans hdone
      refine ⟨names, value, read, tuples, scopes, last, hhead,
        loops_of_iterations (List.length_pos_iff.2 hhead.nonempty) htuples,
        fun hdistinct tuple _ pair hpair => Scope.get?_iteration hdistinct hpair p.scope, hall,
        hall.length_eq, rfl, rfl, fun name => ?_⟩
      rw [← valuesOf_gathered hall.distinct]
      exact Blocks.valuesOf_appendAll (distinct_gathered hall.distinct) _ _
    · cases hloop.symm.trans hdone
  · cases hrounds : (e.rounds frame d).run p with
    | mk outcome read =>
      cases outcome with
      | error j =>
        rw [step_loop hname, run_bind_error hrounds] at herror
        cases herror
        exact still_of_run still_rounds hrounds
      | ok found =>
        obtain ⟨names, tuples⟩ := found
        obtain ⟨value, hhead, htuples⟩ := rounds_eq_ok.1 hrounds
        rcases loop_ends hname hhead htuples with ⟨scopes, last, hall, hloop⟩ | ⟨j, after, hloop⟩
        · cases hloop.symm.trans herror
        · cases hloop.symm.trans herror
          rfl

/-- A loop over three texts, taken in pairs, with a block for each pair. -/
def pairedLoop : Directive where
  name := "for"
  arguments := [.text "left", .text "right"]
  clauses := [⟨"in", [.list [.text "r", .text "s", .text "t"]]⟩]
  bodyless := false
  body := [.block "part" [.pair ⟨"left", .var ["left"] Span.generated, Span.generated⟩,
    .pair ⟨"right", .var ["right"] Span.generated, Span.generated⟩] Span.generated]
  branches := []
  span := Span.generated

/-- The body of a resource that has a width and a part already. -/
def partlyBuilt : Progress where
  inventory := .empty {}
  declared := []
  scope := { values := [("width", .text "w")], blocks := [("part", [.text "old"])] }
  reads := []
  credentials := none

/-- The loop has two iterations; their parts follow the old one, and the last of them lacks its
right side. -/
theorem paired_parts :
    pairedLoop.name = "for" ∧
    ∃ q, (runStatement (Evaluator.atDepth ⟨.configuration, none, []⟩ 0) (.directive pairedLoop)
        { file := 0, inResource := true }).run partlyBuilt = (.ok (), q) ∧
      (q.scope.blocks.valuesOf "part").map Value.display =
        ["'old'", "\x7b left: 'r', right: 's' \x7d", "\x7b left: 't', right: null \x7d"] ∧
      q.scope.values = partlyBuilt.scope.values ∧
      ∃ names value read tuples scopes last,
        LoopHead (Evaluator.atDepth ⟨.configuration, none, []⟩ 0) { file := 0, inResource := true }
          pairedLoop partlyBuilt names value read ∧
        Loops names.length value tuples ∧
        (Evaluator.atDepth ⟨.configuration, none, []⟩ 0).Iterates { file := 0, inResource := true }
          pairedLoop names read tuples scopes last ∧
        ∀ name, q.scope.blocks.valuesOf name = partlyBuilt.scope.blocks.valuesOf name ++
          scopes.flatMap fun scope => scope.blocks.valuesOf name := by
  have hrun : ((runStatement (Evaluator.atDepth ⟨.configuration, none, []⟩ 0) (.directive pairedLoop)
        { file := 0, inResource := true }).run partlyBuilt).1.toOption = some () ∧
      (((runStatement (Evaluator.atDepth ⟨.configuration, none, []⟩ 0) (.directive pairedLoop)
        { file := 0, inResource := true }).run partlyBuilt).2.scope.blocks.valuesOf "part").map
          Value.display =
        ["'old'", "\x7b left: 'r', right: 's' \x7d", "\x7b left: 't', right: null \x7d"] := by
    decide +kernel
  generalize hended : (runStatement (Evaluator.atDepth ⟨.configuration, none, []⟩ 0)
    (.directive pairedLoop) { file := 0, inResource := true }).run partlyBuilt = ended at hrun ⊢
  obtain ⟨outcome, q⟩ := ended
  obtain ⟨hdone, hparts⟩ := hrun
  obtain rfl := toOption_eq_some.1 hdone
  obtain ⟨names, value, read, tuples, scopes, last, hhead, hloops, -, hall, -, hvalues, -,
    hblocks⟩ := (loop_isolated rfl partlyBuilt).1 q hended
  exact ⟨rfl, q, rfl, hparts, hvalues, names, value, read, tuples, scopes, last, hhead, hloops,
    hall, hblocks⟩

end Provision

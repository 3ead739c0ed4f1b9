import Provision.Proofs.Evaluation.Blocks
import Provision.Proofs.Evaluation.Composition
import Provision.Proofs.State.Values

/-!
# Bodies of recorded resources

The body of a recorded resource holds pairs and one note.  Nothing in it is
registered, so each of its statements either gets done or waits, however often
it is tried: the body gets done in one pass when all resources in its fields are
known, and otherwise it waits and leaves no trace.
-/

namespace Provision

open Provision.Language (Node Entry bareNodes_eq_map)
open Recording

/-! ## Steps that are decided -/

namespace Step

/-- In every state that a condition allows a step gets done or, if `waiting`, is deferred, and it
keeps to the condition. -/
structure Decided (inv : Progress → Prop) (step : Step Unit) (waiting : Bool) : Prop where
  done : waiting = false → ∀ p, inv p → ∃ q, step.run p = (.ok (), q) ∧ inv q
  waits : waiting = true → ∀ p, inv p → ∃ reasons q,
    step.run p = (.error (.deferred reasons), q) ∧ inv q

variable {inv : Progress → Prop} {step : Step Unit} {rest : List (Step Unit)} {p q : Progress}

theorem pass_of_done (h : step.run p = (.ok (), q)) :
    (pass (step :: rest)).run p = (pass rest).run q := by
  have htried : step.tried.run p = (.ok none, q) := by
    rw [tried_run_eq, h]
  rw [pass_cons, run_bind_ok htried, run_bind]
  rcases (pass rest).run q with ⟨i | passed, after⟩ <;> rfl

theorem pass_of_waits {reasons later : List Deferral} {steps : List (Step Unit)} {after : Progress}
    (h : step.run p = (.error (.deferred reasons), q))
    (hrest : (pass rest).run q = (.ok (steps, later), after)) :
    (pass (step :: rest)).run p = (.ok (step :: steps, reasons ++ later), after) := by
  have htried : step.tried.run p = (.ok (some reasons), q) := by
    rw [tried_run_eq, h]
  rw [pass_cons, run_bind_ok htried, run_bind_ok hrest]
  rfl

/-- A pass over decided steps leaves those that wait. -/
theorem pass_of_decided {items : List (Step Unit × Bool)}
    (h : ∀ item ∈ items, Decided inv item.1 item.2) (hp : inv p) :
    ∃ reasons q, (pass (items.map Prod.fst)).run p =
      (.ok ((items.filter Prod.snd).map Prod.fst, reasons), q) ∧ inv q := by
  induction items generalizing p with
  | nil => exact ⟨[], p, rfl, hp⟩
  | cons item items ih =>
    obtain ⟨step, waiting⟩ := item
    have hstep : Decided inv step waiting := h _ List.mem_cons_self
    have hrest := fun {p : Progress} (hp : inv p) =>
      ih (fun other hother => h other (List.mem_cons_of_mem _ hother)) hp
    cases waiting with
    | false =>
      obtain ⟨between, hrun, hbetween⟩ := hstep.done rfl p hp
      obtain ⟨reasons, q, hpass, hq⟩ := hrest hbetween
      refine ⟨reasons, q, ?_, hq⟩
      rw [List.map_cons, pass_of_done hrun, hpass]
      rfl
    | true =>
      obtain ⟨first, between, hrun, hbetween⟩ := hstep.waits rfl p hp
      obtain ⟨reasons, q, hpass, hq⟩ := hrest hbetween
      exact ⟨first ++ reasons, q, pass_of_waits hrun hpass, hq⟩

/-- A body one of whose steps waits for ever waits. -/
theorem settle_of_decided {bound : Nat} {items : List (Step Unit × Bool)}
    (h : ∀ item ∈ items, Decided inv item.1 item.2)
    (hwaits : ∃ item ∈ items, item.2 = true)
    (hbound : items.length ≤ bound) (hp : inv p) :
    ∃ reasons q, (settle bound (items.map Prod.fst)).run p = (.error (.deferred reasons), q) ∧
      inv q := by
  induction bound generalizing items p with
  | zero =>
    obtain ⟨item, hitem, -⟩ := hwaits
    rw [List.length_eq_zero_iff.1 (Nat.le_zero.1 hbound)] at hitem
    cases hitem
  | succ bound ih =>
    obtain ⟨item, hitem, hwaiting⟩ := hwaits
    have hleft : item ∈ items.filter Prod.snd := List.mem_filter.2 ⟨hitem, hwaiting⟩
    obtain ⟨reasons, q, hpass, hq⟩ := pass_of_decided h hp
    have hne : ¬ ((items.filter Prod.snd).map Prod.fst).isEmpty = true := by
      rw [List.isEmpty_iff, List.map_eq_nil_iff]
      exact List.ne_nil_of_mem hleft
    rw [settle_run hpass, if_neg hne, List.length_map, List.length_map]
    by_cases hall : (items.filter Prod.snd).length = items.length
    · rw [if_pos hall]
      exact ⟨reasons, q, rfl, hq⟩
    · rw [if_neg hall]
      have hfewer := List.length_filter_le Prod.snd items
      exact ih (fun other hother => h other (List.mem_filter.1 hother).1) ⟨item, hleft, hwaiting⟩
        (by omega) hq

end Step

/-! ## Statements of a recorded body -/

section Statements

variable {e : Evaluator} {file : Nat} {p : Progress} {node : Node}

variable {name : String} {value : Value}

theorem recordedPair_done (e : Evaluator) (file : Nat) (hvalue : value.Writable) (hnames : p.inventory.registry.Names value)
    (hbare : node.bare = (pairNode name (valueNode value)).bare)
    (hknown : value.Known p.inventory) :
    ∃ reads, (runStatement e node (bodyFrame file)).run p =
        (.ok (), { p with reads := reads, scope := p.scope.put name value }) ∧
      Adds (fun key => key ∈ value.handles) p.reads reads := by
  obtain ⟨⟨key, given, span⟩, rfl, hentry⟩ := Node.eq_pair_of_bare hbare
  injection hentry with hkey hgiven
  subst hkey
  have hresolves : (p.view e.setting (bodyFrame file) span).Resolving value :=
    hvalue.resolves rfl hnames.addresses
  obtain ⟨reads, hrun, hreads⟩ := (hresolves given hgiven).ready hknown p.reads
  refine ⟨reads, ?_, hreads⟩
  rw [pair_run, hrun]

theorem recordedPair_waits (hvalue : value.Writable) (hnames : p.inventory.registry.Names value)
    (hbare : node.bare = (pairNode name (valueNode value)).bare)
    (hunknown : ¬ value.Known p.inventory) :
    ∃ reasons reads, (runStatement e node (bodyFrame file)).run p =
      (.error (.deferred reasons), { p with reads := reads }) := by
  obtain ⟨⟨key, given, span⟩, rfl, hentry⟩ := Node.eq_pair_of_bare hbare
  injection hentry with hkey hgiven
  subst hkey
  have hresolves : (p.view e.setting (bodyFrame file) span).Resolving value :=
    hvalue.resolves rfl hnames.addresses
  obtain ⟨reasons, reads, hrun⟩ := (hresolves given hgiven).waiting hunknown p.reads
  refine ⟨reasons, reads, ?_⟩
  rw [pair_run, hrun]

theorem eq_note_of_bare {name argument : String} (hbare : node.bare = (noteNode name argument).bare) :
    ∃ clauses bodyless body branches span,
      node = .directive ⟨name, [.text argument], clauses, bodyless, body, branches, span⟩ := by
  obtain ⟨⟨given, arguments, clauses, bodyless, body, branches, span⟩, rfl, hd⟩ :=
    Node.eq_directive_of_bare hbare
  injection hd with hname harguments
  rw [bareNodes_eq_map] at harguments
  obtain ⟨only, rest, rfl, honly, hrest⟩ := List.map_eq_cons_iff.1 harguments
  obtain rfl := Node.eq_text_of_bare honly
  obtain rfl := List.map_eq_nil_iff.1 hrest
  subst hname
  exact ⟨_, _, _, _, _, rfl⟩

theorem credentialsNote_done {credentials : String}
    (hbare : node.bare = (noteNode "uses-credentials" credentials).bare) :
    (runStatement e node (bodyFrame file)).run p =
      (.ok (), { p with credentials := some credentials }) := by
  obtain ⟨clauses, bodyless, body, branches, span, rfl⟩ := eq_note_of_bare hbare
  rfl

end Statements

/-! ## Whole bodies -/

/-- Statements that are those of a recorded body, apart from places. -/
structure StatesBody (pairs : Bindings) (credentials : String) (source : List Node) : Prop where
  bare : source.map Node.bare =
    ((pairs.map fun pair => pairNode pair.1 (valueNode pair.2)) ++
      [noteNode "uses-credentials" credentials]).map Node.bare
  distinct : Table.Distinct pairs
  writable : ∀ pair ∈ pairs, pair.2.Writable

section Bodies

variable {e : Evaluator} {file : Nat} {base p : Progress} {pairs : Bindings} {credentials : String}
variable {source : List Node}

/-- The steps of a recorded body, in order. -/
def recordedSteps (e : Evaluator) (file : Nat) (source : List Node) : List (Step Unit) :=
  source.map fun node => runStatement e node (bodyFrame file)

/-- A pass over pairs whose resources are known sets them one behind the other. -/
theorem pass_recordedPairs (e : Evaluator) (file : Nat) {nodes : List Node} (rest : List (Step Unit))
    (hbare : nodes.map Node.bare =
      (pairs.map fun pair => pairNode pair.1 (valueNode pair.2)).map Node.bare)
    (hwritable : ∀ pair ∈ pairs, pair.2.Writable)
    (hnames : ∀ pair ∈ pairs, p.inventory.registry.Names pair.2)
    (hknown : ∀ pair ∈ pairs, pair.2.Known p.inventory)
    (hdistinct : Table.Distinct (p.scope.values ++ pairs)) :
    ∃ reads, (Step.pass (recordedSteps e file nodes ++ rest)).run p =
        (Step.pass rest).run
          { p with reads := reads, scope := { p.scope with values := p.scope.values ++ pairs } } ∧
      Adds (fun key => ∃ pair ∈ pairs, key ∈ pair.2.handles) p.reads reads := by
  induction pairs generalizing nodes p with
  | nil =>
    obtain rfl := List.map_eq_nil_iff.1 hbare
    refine ⟨p.reads, ?_, fun key => by simp⟩
    rw [List.append_nil]
    rfl
  | cons pair pairs ih =>
    obtain ⟨node, others, rfl, hnode, hothers⟩ := List.map_eq_cons_iff.1 hbare
    obtain ⟨reads, hrun, hreads⟩ := recordedPair_done e file
      (hwritable pair List.mem_cons_self) (hnames pair List.mem_cons_self) hnode
      (hknown pair List.mem_cons_self)
    have hput : p.scope.put pair.1 pair.2 =
        { p.scope with values := p.scope.values ++ [pair] } := by
      unfold Scope.put
      rw [Table.set_append hdistinct.not_mem_keys]
    rw [hput] at hrun
    obtain ⟨after, hpass, hafter⟩ := ih
      (p := { p with reads := reads, scope := { p.scope with values := p.scope.values ++ [pair] } })
      hothers (fun other hother => hwritable other (List.mem_cons_of_mem _ hother))
      (fun other hother => hnames other (List.mem_cons_of_mem _ hother))
      (fun other hother => hknown other (List.mem_cons_of_mem _ hother))
      (by rwa [List.append_assoc])
    refine ⟨after, ?_, fun key => ?_⟩
    · show (Step.pass (runStatement e node (bodyFrame file) :: (recordedSteps e file others ++ rest))).run
        p = _
      rw [Step.pass_of_done hrun, hpass, List.append_assoc]
      rfl
    · have hkey : key ∈ after ↔ key ∈ reads ∨ ∃ pair ∈ pairs, key ∈ pair.2.handles := hafter key
      simp [hkey, hreads key, or_assoc]

theorem isDirective_bare (node : Node) : isDirective node.bare = isDirective node := by
  cases node <;> rfl

/-- The pairs of a recorded body come first and its note last. -/
theorem StatesBody.split (h : StatesBody pairs credentials source) :
    ∃ nodes note, source = nodes ++ [note] ∧
      nodes.map Node.bare =
        (pairs.map fun pair => pairNode pair.1 (valueNode pair.2)).map Node.bare ∧
      note.bare = (noteNode "uses-credentials" credentials).bare := by
  have hbare := h.bare
  rw [List.map_append] at hbare
  obtain ⟨nodes, last, rfl, hnodes, hlast⟩ := List.map_eq_append_iff.1 hbare
  obtain ⟨note, rest, rfl, hnote, hrest⟩ := List.map_eq_cons_iff.1 hlast
  obtain rfl := List.map_eq_nil_iff.1 hrest
  exact ⟨nodes, note, rfl, hnodes, hnote⟩

/-- A recorded body runs in the order in which it stands. -/
theorem StatesBody.steps (h : StatesBody pairs credentials source) :
    ((runMarked e source (bodyFrame file)).filter fun step => !step.1).map Prod.snd ++
        ((runMarked e source (bodyFrame file)).filter fun step => step.1).map Prod.snd =
      recordedSteps e file source := by
  obtain ⟨nodes, note, rfl, hnodes, hnote⟩ := h.split
  have hpairs : ∀ step ∈ runMarked e nodes (bodyFrame file), step.1 = false := by
    intro step hstep
    rw [runMarked_eq_map] at hstep
    obtain ⟨node, hnode, rfl⟩ := List.mem_map.1 hstep
    have hmem := List.mem_map_of_mem (f := Node.bare) hnode
    rw [hnodes, List.map_map] at hmem
    obtain ⟨pair, -, heq⟩ := List.mem_map.1 hmem
    obtain ⟨entry, rfl, -⟩ := Node.eq_pair_of_bare heq.symm
    rfl
  have hplain : (runMarked e nodes (bodyFrame file)).filter (fun step => !step.1) =
      runMarked e nodes (bodyFrame file) :=
    List.filter_eq_self.2 fun step hstep => by rw [hpairs step hstep]; rfl
  have hnone : (runMarked e nodes (bodyFrame file)).filter (fun step => step.1) = [] :=
    List.filter_eq_nil_iff.2 fun step hstep => by rw [hpairs step hstep]; exact Bool.false_ne_true
  have hdirective : isDirective note = true := by
    rw [← isDirective_bare, hnote]
    rfl
  have hmarked : runMarked e (nodes ++ [note]) (bodyFrame file) =
      runMarked e nodes (bodyFrame file) ++ [(true, runStatement e note (bodyFrame file))] := by
    rw [runMarked_eq_map, runMarked_eq_map, List.map_append, List.map_singleton, hdirective]
  rw [hmarked, List.filter_append, List.filter_append, hplain, hnone]
  simp [runMarked_eq_map, recordedSteps]

/-- A recorded body whose resources are known comes to its pairs and has read those resources. -/
theorem recordedBody_done (e : Evaluator) (file : Nat) (h : StatesBody pairs credentials source)
    (hnames : ∀ pair ∈ pairs, base.inventory.registry.Names pair.2)
    (hknown : ∀ pair ∈ pairs, pair.2.Known base.inventory) :
    ∃ reads, (resourceBody (bodyFrame file) (runMarked e source (bodyFrame file))).run base =
        (.ok ⟨pairs, some credentials, reads⟩, base) ∧
      ∀ key, key ∈ reads ↔ ∃ pair ∈ pairs, key ∈ pair.2.handles := by
  rw [resourceBody_run, h.steps]
  obtain ⟨nodes, note, rfl, hnodes, hnote⟩ := h.split
  obtain ⟨reads, hpass, hreads⟩ := pass_recordedPairs (p := base.entered) e file
    [runStatement e note (bodyFrame file)] hnodes h.writable hnames hknown h.distinct
  have hlast : ∀ p : Progress, (Step.pass [runStatement e note (bodyFrame file)]).run p =
      (.ok ([], []), { p with credentials := some credentials }) := fun p =>
    Step.pass_of_done (credentialsNote_done hnote)
  rw [hlast] at hpass
  have hsteps : recordedSteps e file (nodes ++ [note]) =
      recordedSteps e file nodes ++ [runStatement e note (bodyFrame file)] := List.map_append
  refine ⟨reads, ?_, fun key => ?_⟩
  · rw [hsteps, Step.body, List.length_append, List.length_singleton, settle_run hpass]
    rfl
  · rw [hreads key]
    exact or_iff_right List.not_mem_nil

/-- Progress that has registered the same as `base`. -/
def Progress.Registered (base p : Progress) : Prop :=
  p.inventory = base.inventory ∧ p.declared = base.declared

/-- Whether some resource in a value is not known. -/
def Value.lacks (inventory : Inventory) (value : Value) : Bool :=
  !value.handles.all inventory.has

theorem Value.lacks_iff {inventory : Inventory} {value : Value} :
    value.lacks inventory = true ↔ ¬ value.Known inventory := by
  unfold Value.lacks
  rw [Bool.not_eq_true', ← Bool.not_eq_true, List.all_eq_true]
  exact Iff.rfl

/-- The steps of a recorded body, each with whether it waits. -/
def decidedSteps (e : Evaluator) (file : Nat) (inventory : Inventory)
    (entries : List (Node × String × Value)) (note : Node) : List (Step Unit × Bool) :=
  (entries.map fun entry => (runStatement e entry.1 (bodyFrame file), entry.2.2.lacks inventory)) ++
    [(runStatement e note (bodyFrame file), false)]

theorem recordedPair_decided {node : Node} {pair : String × Value} (hwritable : pair.2.Writable)
    (hnames : base.inventory.registry.Names pair.2)
    (hbare : node.bare = (pairNode pair.1 (valueNode pair.2)).bare) :
    Step.Decided base.Registered (runStatement e node (bodyFrame file))
      (pair.2.lacks base.inventory) where
  done := by
    rintro hlacks p ⟨hinventory, hdeclared⟩
    have hknown : pair.2.Known p.inventory := by
      rw [hinventory]
      by_contra hnot
      rw [Value.lacks_iff.2 hnot] at hlacks
      cases hlacks
    obtain ⟨reads, hrun, -⟩ := recordedPair_done e file hwritable (hinventory ▸ hnames) hbare hknown
    exact ⟨_, hrun, hinventory, hdeclared⟩
  waits := by
    rintro hlacks p ⟨hinventory, hdeclared⟩
    have hunknown : ¬ pair.2.Known p.inventory := by
      rw [hinventory]
      exact Value.lacks_iff.1 hlacks
    obtain ⟨reasons, reads, hrun⟩ :=
      recordedPair_waits hwritable (hinventory ▸ hnames) hbare hunknown
    exact ⟨reasons, _, hrun, hinventory, hdeclared⟩

/-- A recorded body waits while some resource in it is not known, and leaves no trace. -/
theorem recordedBody_waits (e : Evaluator) (file : Nat) (h : StatesBody pairs credentials source)
    (hnames : ∀ pair ∈ pairs, base.inventory.registry.Names pair.2)
    (hunknown : ∃ pair ∈ pairs, ¬ pair.2.Known base.inventory) :
    ∃ reasons, (resourceBody (bodyFrame file) (runMarked e source (bodyFrame file))).run base =
      (.error (.deferred reasons), base) := by
  rw [resourceBody_run, h.steps]
  obtain ⟨nodes, note, rfl, hnodes, hnote⟩ := h.split
  rw [List.map_map, ← List.forall₂_eq_eq_eq, List.forall₂_map_left_iff,
    List.forall₂_map_right_iff] at hnodes
  obtain ⟨hlength, hzip⟩ := List.forall₂_iff_zip.1 hnodes
  have hdecided : ∀ item ∈ decidedSteps e file base.inventory (nodes.zip pairs) note,
      Step.Decided base.Registered item.1 item.2 := by
    refine List.forall_mem_append.2 ⟨List.forall_mem_map.2 ?_, List.forall_mem_singleton.2 ?_⟩
    · rintro ⟨node, pair⟩ hmem
      have hpair := (List.of_mem_zip hmem).2
      exact recordedPair_decided (h.writable pair hpair) (hnames pair hpair) (hzip hmem)
    · exact ⟨fun _ p hp => ⟨_, credentialsNote_done hnote, hp⟩, fun h => nomatch h⟩
  have hsteps : (decidedSteps e file base.inventory (nodes.zip pairs) note).map Prod.fst =
      recordedSteps e file (nodes ++ [note]) := by
    unfold decidedSteps recordedSteps
    rw [List.map_append, List.map_append, List.map_map]
    conv_rhs => rw [← List.map_fst_zip (Nat.le_of_eq hlength), List.map_map]
    rfl
  have hsome : ∃ item ∈ decidedSteps e file base.inventory (nodes.zip pairs) note,
      item.2 = true := by
    obtain ⟨pair, hpair, hnot⟩ := hunknown
    rw [← List.map_snd_zip (Nat.le_of_eq hlength.symm)] at hpair
    obtain ⟨entry, hentry, rfl⟩ := List.mem_map.1 hpair
    exact ⟨_, List.mem_append_left _ (List.mem_map_of_mem hentry), Value.lacks_iff.2 hnot⟩
  obtain ⟨reasons, q, hrun, hinventory, hdeclared⟩ := Step.settle_of_decided hdecided hsome
    (Nat.le_refl _) (⟨rfl, rfl⟩ : base.Registered base.entered)
  have hbody : (Step.body (recordedSteps e file (nodes ++ [note]))).run base.entered =
      (.error (.deferred reasons), q) := by
    rw [← hsteps, Step.body, List.length_map]
    exact hrun
  refine ⟨reasons, ?_⟩
  rw [hbody]
  show (_, q.left base) = _
  unfold Progress.left
  rw [hinventory, hdeclared]

end Bodies

end Provision

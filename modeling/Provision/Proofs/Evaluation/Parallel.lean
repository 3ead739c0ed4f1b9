import Provision.Proofs.Evaluation.Comparison

/-!
# Statements under two inventories

A statement that declares nothing is run from two states of progress that differ
in their inventories alone.  Either it comes to the same in both, or both runs
have read something that accounts for a suspect resource.  Bodies of resources
and arguments of instances are made of such statements.
-/

namespace Provision

open Provision.Language (Node Branch Directive)

/-- The progress of two evaluations that differ in their inventories alone; what the scope and the
reads hold is accounted for. -/
structure Comparison.Beside (c : Comparison) (p p' : Progress) : Prop where
  left : p.inventory = c.left
  right : p'.inventory = c.right
  scope : p'.scope = p.scope
  reads : p'.reads = p.reads
  credentials : p'.credentials = p.credentials
  held : c.Accounts p.reads p.scope.handles
  read : c.Accounts p.reads p.reads

/-- Whether the expressions in a tree can be compared: none refers to a resource, or whatever is
read is accounted for. -/
def Comparison.Reads (c : Comparison) (node : Node) : Prop :=
  c.Records ∨ node.Everywhere Node.NotReference

namespace Step

variable {c : Comparison} {α β : Type} {given : List Key}

/-- When what is given is accounted for, the runs of the step come to the same, and what is held is
accounted for, unless both have read a suspect resource. -/
structure Twin (c : Comparison) (given : List Key) (held : α → List Key) (step : Step α) : Prop where
  quiet : step.Quiet
  alike : ∀ p p', c.Beside p p' → c.Accounts p.reads given →
    c.Lost (step.run p).2.reads (step.run p').2.reads ∨
      (step.run p').1 = (step.run p).1 ∧ c.Beside (step.run p).2 (step.run p').2 ∧
        ∀ a, (step.run p).1 = .ok a → c.Accounts (step.run p).2.reads (held a)

variable {held : α → List Key} {held' : β → List Key}

theorem twin_pure {a : α} (h : held a ⊆ given) : Twin c given held (pure a) where
  quiet := quiet_pure a
  alike p p' hbeside hgiven := by
    refine Or.inr ⟨rfl, hbeside, ?_⟩
    rintro _ ⟨⟩
    exact hgiven.of_subset h

theorem twin_throw (interrupt : Interrupt) :
    Twin c given held (throw interrupt : Step α) where
  quiet := quiet_throw interrupt
  alike p p' hbeside _ := by
    refine Or.inr ⟨rfl, hbeside, ?_⟩
    rintro _ ⟨⟩

theorem Twin.of_subset {more : List Key} {step : Step α} (h : Twin c given held step)
    (hmore : given ⊆ more) :
    Twin c more held step :=
  ⟨h.quiet, fun p p' hbeside hgiven => h.alike p p' hbeside (hgiven.of_subset hmore)⟩

section Fair

variable (hfair : c.Fair)

include hfair

theorem Twin.bind {m : Step α} {f : α → Step β} (hm : Twin c given held m)
    (hf : ∀ a p q, m.run p = (.ok a, q) → Twin c (held a ++ given) held' (f a)) :
    Twin c given held' (m >>= f) where
  quiet := hm.quiet.bind fun a p q hrun => (hf a p q hrun).quiet
  alike p p' hbeside hgiven := by
    have hlater : ∀ p, (m.run p).2.reads ⊆ ((m >>= f).run p).2.reads := by
      intro p
      rw [run_bind]
      cases hrun : m.run p with
      | mk outcome q =>
        cases outcome with
        | ok a => exact (hf a p q hrun).quiet.reads q
        | error i => exact List.Subset.refl _
    rcases hm.alike p p' hbeside hgiven with hlost | ⟨hsame, hafter, hheld⟩
    · exact Or.inl (hfair.lost_mono hlost (hlater p) (hlater p'))
    · have hgiven := hfair.accounts_mono hgiven (hm.quiet.reads p)
      rw [run_bind, run_bind]
      cases hrun : m.run p with
      | mk outcome q =>
        cases hrun' : m.run p' with
        | mk outcome' q' =>
          rw [hrun, hrun'] at hsame hafter
          rw [hrun] at hheld hgiven
          obtain rfl : outcome' = outcome := hsame
          cases outcome' with
          | ok a => exact (hf a p q hrun).alike q q' hafter ((hheld a rfl).append hgiven)
          | error i => exact Or.inr ⟨rfl, hafter, nofun⟩

theorem twin_reading {run : View → Recording α} (e : Evaluator) (frame : Frame) (span : Span)
    (h : ∀ view, Recording.Twin c view.scope.handles held (run (c.onLeft view))
      (run (c.onRight view))) (hgrows : ∀ view, (run view).Grows) :
    Twin c given held (e.reading frame span run) where
  quiet := quiet_reading e frame span hgrows
  alike p p' hbeside _ := by
    have hview : p.view e.setting frame span = c.onLeft (p.view e.setting frame span) := by
      unfold Progress.view Comparison.onLeft
      rw [hbeside.left]
    have hview' : p'.view e.setting frame span = c.onRight (p.view e.setting frame span) := by
      unfold Progress.view Comparison.onRight
      rw [hbeside.right, hbeside.scope]
    rw [reading_run, reading_run, hview', hbeside.reads]
    have hrecorded := (h (p.view e.setting frame span)).alike p.reads hbeside.held hbeside.read
    rw [← hview] at hrecorded
    rcases hrecorded with hlost | ⟨hsame, hread, hheld⟩
    · exact Or.inl hlost
    · have hgrown : p.reads ⊆ ((run (p.view e.setting frame span)).run p.reads).2 :=
        hgrows _ p.reads
      refine Or.inr ⟨(congrArg Prod.fst hsame : _), ?_, hheld⟩
      exact ⟨hbeside.left, hbeside.right, hbeside.scope, congrArg Prod.snd hsame,
        hbeside.credentials, hfair.accounts_mono hbeside.held hgrown, hread⟩

omit hfair in
/-- Extending a scope with a value does the same under both inventories, unless a suspect resource
is extended with. -/
theorem extension_eq (d : Directive) {value : Value} (h : ∀ key ∈ value.handles, ¬ c.Suspect key) :
    extension c.right d value = extension c.left d value := by
  cases value with
  | resource key =>
    have hconfigured : configuredValues c.right key = configuredValues c.left key := by
      unfold configuredValues
      rcases Comparison.clear_cases (h key List.mem_cons_self) with
        ⟨hleft, hright⟩ | ⟨resource, resource', hleft, hright, -, hfields, hconfigured⟩
      · rw [hleft, hright]
      · rw [hleft, hright]
        unfold Resource.isConfigured
        dsimp only
        rw [hfields, hconfigured]
    unfold extension
    dsimp only
    rw [hconfigured]
  | _ => rfl

theorem accounts_extension {reads : List Key} {d : Directive} {value : Value} {entries : Bindings}
    (hvalue : c.Accounts reads value.handles) (hclear : ∀ key ∈ value.handles, ¬ c.Suspect key)
    (h : extension c.left d value = .ok entries) :
    c.Accounts reads (Value.handlesOfEntries entries) := by
  unfold extension at h
  split at h
  · cases h
    exact hvalue
  · next key =>
    cases h
    unfold configuredValues
    split
    · next resource hresource =>
      have hkey : key ∈ (Value.resource key).handles := List.mem_cons_self
      exact (hfair.fields (hvalue key hkey) (hclear key hkey) hresource).of_subset
        (Value.handles_subset fun _ hentry => (List.mem_filter.1 hentry).1)
    · exact nofun
  · cases h

theorem twin_extending (d : Directive) {value : Value} (hvalue : value.handles ⊆ given) :
    Twin c given Value.handlesOfEntries
      (get >>= fun progress : Progress => Step.settled (extension progress.inventory d value)) where
  quiet := composes_quiet.extending d hvalue
  alike p p' hbeside hgiven := by
    rw [run_bind_ok (run_get p), run_bind_ok (run_get p'), hbeside.left, hbeside.right]
    by_cases hsuspect : ∃ key ∈ value.handles, c.Suspect key
    · obtain ⟨key, hkey, hsuspect⟩ := hsuspect
      have haccount := hgiven key (hvalue hkey)
      refine Or.inl ⟨key, hsuspect, ?_, ?_⟩
      · exact hfair.mono ((quiet_settled _).reads p) haccount
      · rw [← hbeside.reads] at haccount
        exact hfair.mono ((quiet_settled _).reads p') haccount
    · have hclear : ∀ key ∈ value.handles, ¬ c.Suspect key :=
        fun key hkey hkeySuspect => hsuspect ⟨key, hkey, hkeySuspect⟩
      rw [extension_eq d hclear]
      refine Or.inr ?_
      cases hextension : extension c.left d value with
      | error e => exact ⟨rfl, hbeside, nofun⟩
      | ok entries =>
        refine ⟨rfl, hbeside, ?_⟩
        rintro _ ⟨⟩
        exact accounts_extension hfair (hgiven.of_subset hvalue) hclear hextension

/-- Composition keeps it that the runs come to the same unless they are lost. -/
theorem composes_twin : Composes c.Reads fun given held step => Twin c given held step where
  pure _ h := twin_pure h
  fail _ _ error _ := twin_throw (.failed error)
  waits _ _ reasons := twin_throw (.deferred reasons)
  bind := Twin.bind hfair
  mono hmore h := h.of_subset hmore
  evaluating given e frame span node hnode :=
    twin_reading hfair e frame span (fun view => Comparison.evaluate_twin hfair view hnode)
      fun view => evaluate_grows view node
  naming given e frame span node hnode :=
    twin_reading hfair e frame span
      (fun view => Recording.Twin.bind hfair (Comparison.evaluate_twin hfair view hnode)
        fun value => Comparison.nameOf_twin view value)
      fun view => (evaluate_grows view node).bind fun value => nameOf_grows view value
  extending := twin_extending hfair
  bindings change hchange hneat := {
    quiet := composes_quiet.bindings change hchange hneat
    alike := fun p p' hbeside hgiven => by
      refine Or.inr ⟨rfl, ?_, fun _ _ _ h => nomatch h⟩
      refine ⟨hbeside.left, hbeside.right, congrArg change hbeside.scope, hbeside.reads,
        hbeside.credentials, ?_, hbeside.read⟩
      exact (hgiven.append hbeside.held).of_subset (hchange p.scope) }
  credentials given name := {
    quiet := composes_quiet.credentials given name
    alike := fun p p' hbeside _ => Or.inr ⟨rfl, ⟨hbeside.left, hbeside.right, hbeside.scope,
      hbeside.reads, rfl, hbeside.held, hbeside.read⟩, fun _ _ _ h => nomatch h⟩ }
  tried {given step} h := {
    quiet := h.quiet.tried
    alike := fun p p' hbeside hgiven => by
      rw [tried_state, tried_state]
      refine (h.alike p p' hbeside hgiven).imp_right fun ⟨hsame, hafter, _⟩ => ?_
      refine ⟨?_, hafter, fun _ _ _ h => nomatch h⟩
      rw [tried_run_eq, tried_run_eq]
      revert hsame
      rcases step.run p with ⟨(reasons | e) | ⟨⟩, q⟩ <;> rcases step.run p' with ⟨outcome, q'⟩ <;>
        rintro rfl <;> rfl }
  inScope {given step} enter henter h := {
    quiet := composes_quiet.inScope enter henter h.quiet
    alike := fun p p' hbeside hgiven => by
      rw [inScope_run, inScope_run]
      have hinner : c.Beside { p with scope := enter p.scope } { p' with scope := enter p'.scope } :=
        ⟨hbeside.left, hbeside.right, congrArg enter hbeside.scope, hbeside.reads,
          hbeside.credentials, (hgiven.append hbeside.held).of_subset (henter p.scope), hbeside.read⟩
      have hgrown := h.quiet.reads { p with scope := enter p.scope }
      have halike := h.alike _ _ hinner hgiven
      generalize step.run { p with scope := enter p.scope } = result at halike hgrown ⊢
      generalize step.run { p' with scope := enter p'.scope } = result' at halike ⊢
      refine halike.imp_right fun ⟨hsame, hafter, _⟩ => ⟨?_, ?_, ?_⟩
      · rw [hsame, hafter.scope]
      · exact ⟨hafter.left, hafter.right, hbeside.scope, hafter.reads, hafter.credentials,
          hfair.accounts_mono hbeside.held hgrown, hafter.read⟩
      · intro scope hscope
        obtain ⟨outcome, q⟩ := result
        cases outcome with
        | ok a =>
          cases hscope
          exact hafter.held
        | error i => cases hscope }

omit hfair in
/-- Two bodies that are collected hold the same and read the same, unless they are lost. -/
theorem Twin.collecting {step : Step α} (h : Twin c [] held step) {p p' q q' : Progress}
    (hbeside : c.Beside { p with reads := [], credentials := none }
      { p' with reads := [], credentials := none })
    {a a' : α} {reads reads' : List Key} {credentials credentials' : Option String}
    (hrun : (Step.collecting step).run p = (.ok (a, reads, credentials), q))
    (hrun' : (Step.collecting step).run p' = (.ok (a', reads', credentials'), q')) :
    c.Lost reads reads' ∨
      a' = a ∧ reads' = reads ∧ credentials' = credentials ∧ c.Accounts reads reads ∧
        c.Accounts reads (held a) := by
  have halike := h.alike _ _ hbeside nofun
  rw [collecting_run, Prod.mk.injEq] at hrun hrun'
  generalize step.run { p with reads := [], credentials := none } = result at halike hrun
  generalize step.run { p' with reads := [], credentials := none } = result' at halike hrun'
  obtain ⟨outcome, after⟩ := result
  obtain ⟨outcome', after'⟩ := result'
  rcases outcome with i | b
  · cases hrun.1
  · rcases outcome' with i | b'
    · cases hrun'.1
    · obtain ⟨hrun, -⟩ := hrun
      obtain ⟨hrun', -⟩ := hrun'
      cases hrun
      cases hrun'
      refine halike.imp_right fun ⟨hsame, hafter, hheld⟩ => ?_
      cases hsame
      exact ⟨rfl, hafter.reads, hafter.credentials, hafter.read, hheld _ rfl⟩

end Fair

end Step

/-! ## Statements -/

section Statements

variable {c : Comparison} (hfair : c.Fair) (e : Evaluator) (frame : Frame)

include hfair

/-- A statement that can declare nothing comes to the same in both, unless it is lost. -/
theorem runStatement_twin {node : Node} (htypes : typesIn node = [])
    (hreads : c.Records ∨ node.Everywhere Node.NotReference) (frame : Frame) :
    Step.Twin c [] (fun _ => []) (runStatement e node frame) := by
  refine (Step.composes_twin hfair).assembles.statement e
    (fun node => typesIn node = [] ∧ c.Reads node)
    (fun node h child hchild => h.2.imp_right fun h => h.child child hchild)
    (fun node h child hchild => ⟨typesIn_inner h.1 child hchild,
      h.2.imp_right fun h => h.child child (Node.mem_children_of_inner hchild)⟩) ?_
    ⟨htypes, hreads⟩ frame
  intro type name source span hallowed _ frame
  obtain ⟨error, htype⟩ := typeAt_of_typesIn hallowed.1 span
  unfold runStatement
  rw [htype]
  have hfails : Step.Twin c [] (fun _ => []) (Step.settled (.error error) : Step TypeName) :=
    Step.twin_throw (.failed error)
  exact hfails.bind hfair fun a p q hrun => nomatch hrun

variable {e}

/-- The bodies of a resource evaluate to the same, unless they are lost. -/
theorem resourceBody_twin {inner : Frame} {source : List Node} (htypes : typesInAll source = [])
    (hrecords : c.Records) {p p' q q' : Progress}
    (hbeside : c.Beside { p with reads := [], credentials := none }
      { p' with reads := [], credentials := none })
    {body body' : EvaluatedBody}
    (hrun : (resourceBody frame (runMarked e source inner)).run p = (.ok body, q))
    (hrun' : (resourceBody frame (runMarked e source inner)).run p' = (.ok body', q')) :
    ∃ reads reads', body.reads = Sorted.union reads frame.inherited ∧
      body'.reads = Sorted.union reads' frame.inherited ∧
        (c.Lost reads reads' ∨ body' = body ∧ c.Accounts reads reads ∧
          c.Accounts reads (Value.handlesOfEntries body.fields)) := by
  have hsteps : ∀ step ∈ ((runMarked e source inner).filter fun step => !step.1).map Prod.snd ++
      ((runMarked e source inner).filter fun step => step.1).map Prod.snd,
        Step.Twin c [] (fun _ => []) step := by
    intro step hstep
    obtain ⟨marked, hmarked, rfl⟩ := Step.mem_marked hstep
    rw [runMarked_eq_map] at hmarked
    obtain ⟨node, hnode, rfl⟩ := List.mem_map.1 hmarked
    exact runStatement_twin hfair e (typesInAll_eq_nil.1 htypes node hnode) (Or.inl hrecords) inner
  unfold resourceBody at hrun hrun'
  rw [run_bind] at hrun hrun'
  split at hrun
  · next found between hfound =>
    split at hrun'
    · next found' between' hfound' =>
      obtain ⟨scope, reads, credentials⟩ := found
      obtain ⟨scope', reads', credentials'⟩ := found'
      cases hrun
      cases hrun'
      refine ⟨reads, reads', rfl, rfl, ?_⟩
      have hchild := (Step.composes_twin hfair).assembles.inChild hsteps
      refine (hchild.collecting hbeside hfound hfound').imp_right ?_
      rintro ⟨rfl, rfl, rfl, hread, hheld⟩
      exact ⟨rfl, hread, hheld.of_subset (Scope.handles_fields _)⟩
    · cases hrun'
  · cases hrun

end Statements

end Provision

import Provision.Proofs.Evaluation.Done

/-!
# Guarantees about inventories

A guarantee says what is true of the inventory all the time, what a statement may
wait for and what it may fail with.  Reading changes no inventory, waits for what
is missing and fails for a reason of its own.  So a statement gives a guarantee as
soon as the resources that it registers keep the invariant and the templates that
it has instances of give the guarantee, too.
-/

namespace Provision

open Provision.Language (Node)

/-- An invariant of inventories, and what a statement may wait for and fail with meanwhile. -/
structure Guarantee where
  holds : Inventory → Prop
  waits : DeferReason → Prop
  fails : EvalError → Prop

namespace Guarantee

variable {g : Guarantee}

/-- An attempt may end early in this way. -/
def Allows (g : Guarantee) : Interrupt → Prop
  | .deferred deferrals => ∀ d ∈ deferrals, g.waits d.reason
  | .failed e => g.fails e

/-- Expressions give the guarantee. -/
structure Lawful (g : Guarantee) : Prop where
  missing : ∀ {inventory key}, g.holds inventory → inventory.has key = false →
    g.waits (.resource key)
  unnamed : ∀ name, g.waits (.name name)
  pending : ∀ type, g.waits (.pendingType type)
  fails : ∀ {e : EvalError}, e.IsLocal → g.fails e

end Guarantee

/-! ## Expressions -/

namespace Recording

/-- When the recording ends early, the guarantee allows it. -/
def Keeps {α : Type} (g : Guarantee) (m : Recording α) : Prop :=
  ∀ reads i after, m.run reads = (.error i, after) → g.Allows i

theorem composes_keeps {g : Guarantee} (hg : g.Lawful) {view : View}
    (hview : g.holds view.inventory) :
    Composes view (Keeps g) where
  pure := by
    intro _ _ _ _ _ h
    cases h
  record := by
    intro _ _ _ _ h
    cases h
  failWith := by
    intro _ _ hlocal _ _ _ h
    cases h
    exact hg.fails hlocal
  waiting := by
    intro _ span reason hreason _ _ _ h
    cases h
    intro d hd
    obtain rfl := List.mem_singleton.1 hd
    cases reason with
    | resource key => exact hg.missing hview (hreason key rfl)
    | name n => exact hg.unnamed n
    | pendingType type => exact hg.pending type
  bind := by
    intro _ _ m f hm hf reads i after hrun
    rw [run_bind] at hrun
    split at hrun
    · exact hf _ _ _ _ hrun
    · next hfirst =>
      cases hrun
      exact hm _ _ _ hfirst

end Recording

/-! ## Steps -/

namespace Step

variable {α β : Type} {g : Guarantee}

/-- The step keeps the invariant, ends early only as allowed, and its outcome is as promised. -/
def Keeps (g : Guarantee) (promised : α → Prop) (step : Step α) : Prop :=
  ∀ p, g.holds p.inventory → g.holds (step.run p).2.inventory ∧
    match (step.run p).1 with
    | .ok a => promised a
    | .error i => g.Allows i

variable {promised : α → Prop} {promised' : β → Prop}

theorem keeps_pure {a : α} (h : promised a) : (pure a : Step α).Keeps g promised :=
  fun _ hp => ⟨hp, h⟩

theorem keeps_throw {i : Interrupt} (h : g.Allows i) : (throw i : Step α).Keeps g promised :=
  fun _ hp => ⟨hp, h⟩

theorem keeps_modify {change : Progress → Progress}
    (h : ∀ p, (change p).inventory = p.inventory) :
    (modify change : Step Unit).Keeps g fun _ => True := by
  intro p hp
  refine ⟨?_, trivial⟩
  rw [run_modify, h p]
  exact hp

theorem Keeps.bind {m : Step α} {f : α → Step β} (hm : m.Keeps g promised)
    (hf : ∀ a p q, m.run p = (.ok a, q) → promised a → (f a).Keeps g promised') :
    (m >>= f).Keeps g promised' := by
  intro p hp
  have hfirst := hm p hp
  rw [run_bind]
  cases hrun : m.run p with
  | mk outcome q =>
    rw [hrun] at hfirst
    rcases outcome with i | a
    · exact hfirst
    · exact hf a p q hrun hfirst.2 q hfirst.1

theorem keeps_settled {outcome : Except EvalError α} (hg : g.Lawful)
    (h : FailsAs EvalError.IsLocal outcome) :
    (Step.settled outcome).Keeps g fun _ => True := by
  cases outcome with
  | ok a => exact keeps_pure trivial
  | error e => exact keeps_throw (hg.fails (h e rfl))

theorem keeps_reading (e : Evaluator) (frame : Frame) (span : Span) {run : View → Recording α}
    (h : ∀ view, g.holds view.inventory → (run view).Keeps g) :
    (e.reading frame span run).Keeps g fun _ => True := by
  intro p hp
  rw [reading_run]
  refine ⟨hp, ?_⟩
  have hview := h (p.view e.setting frame span) hp p.reads
  cases hrun : (run (p.view e.setting frame span)).run p.reads with
  | mk outcome after =>
    rcases outcome with i | a
    · exact hview i after hrun
    · trivial

theorem Keeps.collecting {step : Step α} (h : step.Keeps g promised) :
    (Step.collecting step).Keeps g fun found => promised found.1 := by
  intro p hp
  have hstep := h { p with reads := [], credentials := none } hp
  rw [collecting_run]
  refine ⟨hstep.1, ?_⟩
  cases hrun : (step.run { p with reads := [], credentials := none }).1 with
  | error i =>
    rw [hrun] at hstep
    exact hstep.2
  | ok a =>
    rw [hrun] at hstep
    exact hstep.2

theorem Keeps.inScope {step : Step Unit} {promised : Unit → Prop} (h : step.Keeps g promised)
    (enter : Scope → Scope) :
    (Step.inScope enter step).Keeps g fun _ => True := by
  intro p hp
  have hstep := h { p with scope := enter p.scope } hp
  rw [inScope_run]
  refine ⟨hstep.1, ?_⟩
  cases hrun : (step.run { p with scope := enter p.scope }).1 with
  | error i =>
    rw [hrun] at hstep
    exact hstep.2
  | ok a => trivial

/-! ### Bodies -/

/-- The reasons for which a tried step is deferred are allowed. -/
theorem Keeps.tried {step : Step Unit} {promised : Unit → Prop} (h : step.Keeps g promised) :
    step.tried.Keeps g fun waiting => ∀ reasons, waiting = some reasons →
      g.Allows (.deferred reasons) := by
  intro p hp
  have hstep := h p hp
  rw [tried_run_eq]
  rcases hrun : step.run p with ⟨(reasons | e) | ⟨⟩, q⟩
  · rw [hrun] at hstep
    refine ⟨hstep.1, ?_⟩
    rintro _ ⟨⟩
    exact hstep.2
  · rw [hrun] at hstep
    exact hstep
  · rw [hrun] at hstep
    exact ⟨hstep.1, nofun⟩

theorem keeps_pass {steps : List (Step Unit)}
    (hsteps : ∀ step ∈ steps, step.Keeps g fun _ => True) :
    (Step.pass steps).Keeps g fun passed => g.Allows (.deferred passed.2) := by
  induction steps with
  | nil => exact keeps_pure nofun
  | cons step rest ih =>
    rw [pass_cons]
    refine (hsteps step List.mem_cons_self).tried.bind fun waiting _ _ _ hwaiting => ?_
    refine (ih fun other hother => hsteps other (List.mem_cons_of_mem _ hother)).bind
      fun passed _ _ _ hpassed => ?_
    cases waiting with
    | none => exact keeps_pure hpassed
    | some reasons =>
      refine keeps_pure fun d hd => ?_
      rcases List.mem_append.1 hd with hd | hd
      · exact hwaiting reasons rfl d hd
      · exact hpassed d hd

theorem keeps_settle (bound : Nat) {steps : List (Step Unit)}
    (hsteps : ∀ step ∈ steps, step.Keeps g fun _ => True) :
    (Step.settle bound steps).Keeps g fun _ => True := by
  induction bound generalizing steps with
  | zero => exact keeps_pure trivial
  | succ bound ih =>
    unfold Step.settle
    refine (keeps_pass hsteps).bind ?_
    rintro ⟨left, reasons⟩ p q hpass hreasons
    dsimp only
    split
    · exact keeps_pure trivial
    · split
      · exact keeps_throw hreasons
      · exact ih fun step hstep => hsteps step (pass_subset steps p q left reasons hpass step hstep)

/-- What expressions and bodies are put together to gives the guarantee. -/
theorem assembles_keeps (hg : g.Lawful) :
    Assembles (fun _ => True) fun _ _ step => step.Keeps g fun _ => True where
  pure _ _ := keeps_pure trivial
  fail _ _ _ hlocal := keeps_throw (hg.fails hlocal)
  bind hm hf := hm.bind fun a p q hrun _ => hf a p q hrun
  mono _ h := h
  evaluating _ e frame span node _ :=
    keeps_reading e frame span fun _ hview => (Recording.composes_keeps hg hview).evaluate node
  naming _ e frame span node _ :=
    keeps_reading e frame span fun _ hview =>
      (Recording.composes_keeps hg hview).bind ((Recording.composes_keeps hg hview).evaluate node)
        fun value => (Recording.composes_keeps hg hview).nameOf value
  extending d value _ := by
    intro p hp
    rw [run_bind_ok (run_get p)]
    exact keeps_settled hg (failsAs_extension p.inventory d value) p hp
  bindings _ _ _ := keeps_modify fun _ => rfl
  credentials _ _ := keeps_modify fun _ => rfl
  inScope enter _ h := h.inScope enter
  body hsteps := keeps_settle _ hsteps

end Step

/-! ## Statements -/

/-- The resource is made by a block in the frame, which has read what the frame passes on. -/
def Frame.Makes (frame : Frame) (setting : Setting) (registry : Registry) (resource : Resource) :
    Prop :=
  ∃ name type span text key body reads made declaration, registry.type? name = some type ∧
    keyAt span type.name (qualify frame.qualifier text) = .ok key ∧
    body.reads = Sorted.union reads frame.inherited ∧
    finishResource setting key type span body = .ok made ∧
    resource = { made with declaration := declaration }

section Statements

variable {g : Guarantee} (hg : g.Lawful) {e : Evaluator}

include hg

theorem register_keeps (frame : Frame) (resource : Resource)
    (hinsert : ∀ inventory, g.holds inventory →
      g.holds (inventory.insertAt frame.file resource)) :
    (register frame resource).Keeps g fun _ => True := by
  unfold register
  intro p hp
  rw [run_bind_ok (run_get p)]
  dsimp only
  split
  · refine (Step.assembles_keeps hg).fail [] (fun _ => []) _ ?_ p hp
    trivial
  · exact ⟨hinsert p.inventory hp, trivial⟩

theorem resourceBody_keeps (frame : Frame) {steps : List (Bool × Step Unit)}
    (hsteps : ∀ step ∈ steps, step.2.Keeps g fun _ => True) :
    (resourceBody frame steps).Keeps g fun body =>
      ∃ reads, body.reads = Sorted.union reads frame.inherited := by
  have htried : ∀ step ∈ (steps.filter fun step => !step.1).map Prod.snd ++
      (steps.filter fun step => step.1).map Prod.snd, step.Keeps g fun _ => True := by
    intro step hstep
    obtain ⟨marked, hmarked, rfl⟩ := Step.mem_marked hstep
    exact hsteps marked hmarked
  unfold resourceBody
  exact ((Step.assembles_keeps hg).inChild htried).collecting.bind fun found _ _ _ _ =>
    Step.keeps_pure ⟨found.2.1, rfl⟩

theorem declareResource_keeps (frame : Frame) (type : ResourceType) (name : String)
    (source : List Node) (span : Span) {steps : List (Bool × Step Unit)}
    (hsteps : ∀ step ∈ steps, step.2.Keeps g fun _ => True)
    (hinsert : ∀ key body reads made declaration,
      keyAt span type.name (qualify frame.qualifier name) = .ok key →
      body.reads = Sorted.union reads frame.inherited →
      finishResource e.setting key type span body = .ok made →
      ∀ inventory, g.holds inventory →
        g.holds (inventory.insertAt frame.file { made with declaration := declaration })) :
    (declareResource e frame type name source span steps).Keeps g fun _ => True := by
  unfold declareResource
  refine (Step.keeps_settled hg (failsAs_keyAt _ _ _)).bind fun key _ _ hkey _ => ?_
  refine (resourceBody_keeps hg frame hsteps).bind fun body _ _ _ ⟨reads, hreads⟩ => ?_
  refine (Step.keeps_settled hg (failsAs_finishResource _ _ _ _ _)).bind
    fun resource _ _ hmade _ => ?_
  intro p hp
  rw [run_bind_ok (run_get p)]
  refine register_keeps hg frame _ (hinsert key body reads resource _ ?_ hreads ?_) p hp
  · exact (Step.settled_run_eq_ok.1 hkey).1
  · exact (Step.settled_run_eq_ok.1 hmade).1

theorem instantiate_keeps (frame : Frame) (template : VirtualType) (name : String) (span : Span)
    {steps : List (Step Unit)} (hsteps : ∀ step ∈ steps, step.Keeps g fun _ => True)
    (hexpand : ∀ reads,
      (e.expand template (frame.below name span reads) span).Keeps g fun _ => True) :
    (instantiate e frame template name span steps).Keeps g fun _ => True := by
  unfold instantiate
  refine ((Step.assembles_keeps hg).inChild hsteps).collecting.bind ?_
  rintro ⟨arguments, reads, credentials⟩ _ _ _ _
  dsimp only
  split
  · exact (Step.assembles_keeps hg).fail [] (fun _ => []) _ trivial
  · split
    · exact (Step.assembles_keeps hg).fail [] (fun _ => []) _ trivial
    · exact ((hexpand reads).inScope _).bind fun _ _ _ _ _ => Step.keeps_pure trivial

/-- A statement gives the guarantee in the frames that are meant when the resources made there keep
the invariant and the instances there expand to what gives the guarantee. -/
theorem runStatement_keeps (Allowed : Node → Prop) (Within : Frame → Prop)
    (hinner : ∀ node, Allowed node → ∀ child ∈ node.inner, Allowed child)
    (hsite : ∀ frame site, Within frame → Within { frame with site := site })
    (hresource : ∀ frame inResource, Within frame → Within { frame with inResource := inResource })
    (hinsert : ∀ frame inventory resource, Within frame → g.holds inventory →
      ∀ other : Inventory, g.holds other → frame.Makes e.setting other.registry resource →
        g.holds (inventory.insertAt frame.file resource))
    (hexpand : ∀ typeText name source span type frame inventory template text reads,
      Allowed (.resource typeText name source span) → TypeName.ofText typeText = .ok type →
      Within frame → g.holds inventory → inventory.virtual? type = some template →
        (e.expand template (frame.below text span reads) span).Keeps g fun _ => True)
    {node : Node} (hallowed : Allowed node) {frame : Frame} (hframe : Within frame) :
    (runStatement e node frame).Keeps g fun _ => True := by
  refine (Step.assembles_keeps hg).statementWithin e Allowed Within (fun _ _ _ _ => trivial) hinner
    hsite ?_ hallowed hframe
  intro typeText name source span hallowed hsource frame hframe
  unfold runStatement
  refine (Step.keeps_settled hg (failsAs_typeAt _ _)).bind fun type _ _ htype _ => ?_
  have htype := typeAt_eq_ok.1 (Step.settled_run_eq_ok.1 htype).1
  refine ((Step.assembles_keeps hg).naming [] e frame span trivial).bind fun text _ _ _ _ => ?_
  intro p hp
  rw [run_bind_ok (run_get p)]
  split
  · next template htemplate =>
    refine instantiate_keeps hg frame template text span (fun step hstep => ?_)
      (fun reads => hexpand typeText name source span type frame p.inventory template text reads
        hallowed htype hframe hp htemplate) p hp
    rw [runStatements_eq_map] at hstep
    obtain ⟨child, hchild, rfl⟩ := List.mem_map.1 hstep
    exact hsource child hchild _ (hresource frame false hframe)
  · split
    · refine (Step.assembles_keeps hg).fail [] (fun _ => []) _ ?_ p hp
      trivial
    · next found hfound =>
      refine declareResource_keeps hg frame found text source span (fun step hstep => ?_)
        (fun key body reads made declaration hkey hreads hmade inventory hinventory => ?_) p hp
      · rw [runMarked_eq_map] at hstep
        obtain ⟨child, hchild, rfl⟩ := List.mem_map.1 hstep
        exact hsource child hchild _ (hresource frame true hframe)
      · exact hinsert frame inventory _ hframe hinventory p.inventory hp
          ⟨type, found, span, text, key, body, reads, made, declaration, hfound, hkey, hreads, hmade,
            rfl⟩

/-- However deep instances nest, statements give a guarantee that does not exclude deep nesting,
when the frames that are meant include those of the instances in them. -/
theorem runStatement_keeps_atDepth {setting : Setting} (Within : Frame → Prop)
    (hsite : ∀ frame site, Within frame → Within { frame with site := site })
    (hresource : ∀ frame inResource, Within frame → Within { frame with inResource := inResource })
    (hbelow : ∀ frame text span reads, Within frame → Within (frame.below text span reads))
    (hinsert : ∀ frame inventory resource, Within frame → g.holds inventory →
      ∀ other : Inventory, g.holds other → frame.Makes setting other.registry resource →
        g.holds (inventory.insertAt frame.file resource))
    (hnested : ∀ span type, g.fails (.nestedInstances span type))
    (depth : Nat) (node : Node) {frame : Frame} (hframe : Within frame) :
    (runStatement (Evaluator.atDepth setting depth) node frame).Keeps g fun _ => True := by
  induction depth generalizing node frame with
  | zero =>
    refine runStatement_keeps hg (fun _ => True) Within (fun _ _ _ _ => trivial) hsite hresource
      (e := Evaluator.atDepth setting 0) hinsert ?_ trivial hframe
    intro _ _ _ span _ _ _ template _ _ _ _ _ _ _
    exact Step.keeps_throw (hnested span template.name)
  | succ depth ih =>
    refine runStatement_keeps hg (fun _ => True) Within (fun _ _ _ _ => trivial) hsite hresource
      (e := Evaluator.atDepth setting (depth + 1)) hinsert ?_ trivial hframe
    intro _ _ _ span _ frame _ template text reads _ _ hframe _ _
    refine (Step.assembles_keeps hg).body fun step hstep => ?_
    rw [runStatements_eq_map] at hstep
    obtain ⟨child, -, rfl⟩ := List.mem_map.1 hstep
    exact ih child (hbelow frame text span reads hframe)

end Statements

end Provision

import Provision.Proofs.Evaluation.Quiet
import Provision.Proofs.Evaluation.Rounds
import Provision.Proofs.Language.Grammar

/-!
# Statements that are done at once

A statement that declares at most one resource does so last of all.  When it is
deferred, nothing has become of it yet: inventory, declarations and bindings are
what they were.  A loop or a body with several blocks is not like that, because
its first blocks are registered by the time a later one has to wait.
-/

namespace Provision

open Provision.Language (Node Branch Directive)

/-! ## What a statement comes to -/

/-- What trying a statement comes to that registers one resource at most. -/
inductive Upshot where
  | waits (reasons : List Deferral)
  | fails (error : EvalError)
  | passes
  | registers (file : Nat) (site : Site) (resource : Resource)

/-- The place of an earlier declaration that stands in the way of another one. -/
def Progress.clash (p : Progress) (site : Site) (key : Key) : Option Span :=
  match Table.get? p.declared key with
  | some first => if first = site then none else some first.location
  | none =>
    match p.inventory.resource? key with
    | some existing => if existing.origin = site.origin then none else some existing.origin
    | none => none

/-- How a step ends that comes to an upshot. -/
inductive Upshot.Result (p : Progress) : Upshot → Except Interrupt Unit × Progress → Prop
  | waits {reasons : List Deferral} {q : Progress} (hinventory : q.inventory = p.inventory)
      (hdeclared : q.declared = p.declared) (hscope : q.scope = p.scope) :
      Result p (.waits reasons) (.error (.deferred reasons), q)
  | fails {error : EvalError} {q : Progress} : Result p (.fails error) (.error (.failed error), q)
  | passes {q : Progress} (hinventory : q.inventory = p.inventory)
      (hdeclared : q.declared = p.declared) :
      Result p .passes (.ok (), q)
  | registers {file : Nat} {site : Site} {resource : Resource} {q : Progress}
      (hclash : p.clash site resource.key = none)
      (hinventory : q.inventory = p.inventory.insertAt file resource)
      (hdeclared : q.declared = Table.set p.declared resource.key site)
      (hscope : q.scope = p.scope) :
      Result p (.registers file site resource) (.ok (), q)
  | clashes {file : Nat} {site : Site} {resource : Resource} {q : Progress} {error : EvalError}
      (hclash : p.clash site resource.key ≠ none) :
      Result p (.registers file site resource) (.error (.failed error), q)

/-- The declaration of an upshot, if there is one, goes to a file and shows a place that are allowed. -/
def Upshot.Within (allowed : Nat → Span → Prop) : Upshot → Prop
  | registers file site resource => allowed file site.location ∧ resource.origin = site.origin
  | _ => True

/-- An upshot looks at the inventory, the declarations and the scope alone. -/
theorem Upshot.Result.congr {upshot : Upshot} {p q : Progress}
    {result : Except Interrupt Unit × Progress} (h : upshot.Result q result)
    (hinventory : q.inventory = p.inventory) (hdeclared : q.declared = p.declared)
    (hscope : q.scope = p.scope) :
    upshot.Result p result := by
  have hclash : ∀ site key, q.clash site key = p.clash site key := by
    intro site key
    unfold Progress.clash
    rw [hinventory, hdeclared]
  cases h with
  | waits h₁ h₂ h₃ => exact .waits (h₁.trans hinventory) (h₂.trans hdeclared) (h₃.trans hscope)
  | fails => exact .fails
  | passes h₁ h₂ => exact .passes (h₁.trans hinventory) (h₂.trans hdeclared)
  | registers h₁ h₂ h₃ h₄ =>
    exact .registers (hclash _ _ ▸ h₁) (hinventory ▸ h₂) (hdeclared ▸ h₃) (h₄.trans hscope)
  | clashes h₁ => exact .clashes (hclash _ _ ▸ h₁)

namespace Step

variable {α : Type} {allowed allowed' : Nat → Span → Prop}

/-- The step comes to an upshot that does not depend on what was declared before. -/
def AtOnce (allowed : Nat → Span → Prop) (step : Step Unit) (p : Progress) : Prop :=
  ∃ upshot : Upshot, upshot.Within allowed ∧ ∀ declared,
    upshot.Result { p with declared := declared } (step.run { p with declared := declared })

theorem AtOnce.mono {step : Step Unit} {p : Progress} (h : step.AtOnce allowed p)
    (hallowed : ∀ file place, allowed file place → allowed' file place) :
    step.AtOnce allowed' p := by
  obtain ⟨upshot, hwithin, hresult⟩ := h
  refine ⟨upshot, ?_, hresult⟩
  cases upshot with
  | registers file site resource => exact ⟨hallowed _ _ hwithin.1, hwithin.2⟩
  | _ => trivial

theorem atOnce_fail (error : EvalError) (p : Progress) :
    (Step.fail error : Step Unit).AtOnce allowed p :=
  ⟨.fails error, trivial, fun _ => .fails⟩

theorem atOnce_pure (p : Progress) : (pure () : Step Unit).AtOnce allowed p :=
  ⟨.passes, trivial, fun _ => .passes rfl rfl⟩

/-- A quiet step is done at once when it leaves the scope alone while it waits. -/
theorem Quiet.atOnce {step : Step Unit} (h : step.Quiet) (hwaits : step.WaitsStill) (p : Progress) :
    step.AtOnce allowed p := by
  have hinventory := h.inventory p
  have hdeclared := h.declared p
  cases hrun : step.run p with
  | mk outcome q =>
    rw [hrun] at hinventory hdeclared
    rcases outcome with (reasons | error) | ⟨⟩
    · refine ⟨.waits reasons, trivial, fun declared => ?_⟩
      rw [hdeclared]
      exact .waits hinventory rfl (hwaits p reasons q hrun)
    · refine ⟨.fails error, trivial, fun declared => ?_⟩
      rw [hdeclared]
      exact .fails
    · refine ⟨.passes, trivial, fun declared => ?_⟩
      rw [hdeclared]
      exact .passes hinventory rfl

/-- What follows a quiet step that leaves the scope alone decides what the two come to. -/
theorem Quiet.atOnce_bind {m : Step α} {f : α → Step Unit} {p : Progress} (hm : m.Quiet)
    (hstill : m.Still)
    (hf : ∀ a q, m.run p = (.ok a, q) → q.inventory = p.inventory → q.scope = p.scope →
      (f a).AtOnce allowed q) :
    (m >>= f).AtOnce allowed p := by
  have hinventory := hm.inventory p
  have hdeclared := hm.declared p
  have hscope := hstill p
  cases hrun : m.run p with
  | mk outcome q =>
    rw [hrun] at hinventory hdeclared hscope
    rcases outcome with (reasons | error) | a
    · refine ⟨.waits reasons, trivial, fun declared => ?_⟩
      rw [run_bind_error (hdeclared declared)]
      exact .waits hinventory rfl hscope
    · refine ⟨.fails error, trivial, fun declared => ?_⟩
      rw [run_bind_error (hdeclared declared)]
      exact .fails
    · obtain ⟨upshot, hwithin, hresult⟩ := hf a q hrun hinventory hscope
      refine ⟨upshot, hwithin, fun declared => ?_⟩
      rw [run_bind_ok (hdeclared declared)]
      exact (hresult declared).congr hinventory rfl hscope

/-- A look at the progress that only sees the inventory and the scope. -/
theorem atOnce_get {f : Progress → Step Unit} {p : Progress}
    (hf : ∀ declared, f { p with declared := declared } = f p) (h : (f p).AtOnce allowed p) :
    (get >>= f).AtOnce allowed p := by
  obtain ⟨upshot, hwithin, hresult⟩ := h
  refine ⟨upshot, hwithin, fun declared => ?_⟩
  rw [run_bind_ok (run_get _), hf]
  exact hresult declared

theorem AtOnce.inScope {step : Step Unit} {p : Progress} {enter : Scope → Scope}
    (h : step.AtOnce allowed { p with scope := enter p.scope }) :
    (Step.inScope enter step >>= fun _ => pure ()).AtOnce allowed p := by
  obtain ⟨upshot, hwithin, hresult⟩ := h
  refine ⟨upshot, hwithin, fun declared => ?_⟩
  have hinner := hresult declared
  rw [run_bind, inScope_run]
  dsimp only at hinner ⊢
  generalize step.run _ = result at hinner ⊢
  cases hinner with
  | waits hinventory hdeclared _ => exact .waits hinventory hdeclared rfl
  | fails => exact .fails
  | passes hinventory hdeclared => exact .passes hinventory hdeclared
  | registers hclash hinventory hdeclared _ => exact .registers hclash hinventory hdeclared rfl
  | clashes hclash => exact .clashes hclash

/-- A body of one statement is that statement. -/
theorem body_singleton (step : Step Unit) (p : Progress) :
    (Step.body [step]).run p = step.run p := by
  show (Step.settle 1 [step]).run p = step.run p
  rcases hrun : step.run p with ⟨(reasons | e) | ⟨⟩, q⟩
  · have hpass : (Step.pass [step]).run p = (.ok ([step], reasons), q) := by
      rw [pass_cons, run_bind, tried_run_eq, hrun]
      show (Except.ok ([step], reasons ++ []), q) = _
      rw [List.append_nil]
    exact settle_run hpass
  · have hpass : (Step.pass [step]).run p = (.error (.failed e), q) := by
      rw [pass_cons, run_bind, tried_run_eq, hrun]
    exact run_bind_error hpass
  · have hpass : (Step.pass [step]).run p = (.ok ([], []), q) := by
      rw [pass_cons, run_bind, tried_run_eq, hrun]
      rfl
    exact settle_run hpass

/-- A body of at most one statement is done at once when that statement is. -/
theorem atOnce_body {nodes : List Node} {step : Node → Step Unit} {p : Progress}
    (hlength : nodes.length ≤ 1) (h : ∀ node ∈ nodes, (step node).AtOnce allowed p) :
    (Step.body (nodes.map step)).AtOnce allowed p := by
  match nodes, hlength with
  | [], _ => exact atOnce_pure p
  | [node], _ =>
    obtain ⟨upshot, hwithin, hresult⟩ := h node List.mem_cons_self
    refine ⟨upshot, hwithin, fun declared => ?_⟩
    rw [List.map_singleton, body_singleton]
    exact hresult declared

end Step

/-! ## Blocks and instances -/

/-- Registering fails when another declaration stands in the way; else it adds the resource. -/
theorem register_run_eq (frame : Frame) (resource : Resource) (p : Progress) :
    (register frame resource).run p =
      match p.clash ⟨frame.site, resource.origin⟩ resource.key with
      | some first => (.error (.failed (.duplicateResource resource.key first
          (Site.location ⟨frame.site, resource.origin⟩))), p)
      | none => (.ok (), { p with
          inventory := p.inventory.insertAt frame.file resource
          declared := Table.set p.declared resource.key ⟨frame.site, resource.origin⟩ }) := by
  have hrun : (register frame resource).run p =
      (match p.clash ⟨frame.site, resource.origin⟩ resource.key with
        | some first => Step.fail (.duplicateResource resource.key first
            (Site.location ⟨frame.site, resource.origin⟩))
        | none => set { p with
            inventory := p.inventory.insertAt frame.file resource
            declared := Table.set p.declared resource.key ⟨frame.site, resource.origin⟩ } :
          Step Unit).run p := rfl
  rw [hrun]
  cases p.clash ⟨frame.site, resource.origin⟩ resource.key <;> rfl

theorem register_atOnce (frame : Frame) (resource : Resource) (p : Progress) :
    (register frame resource).AtOnce
      (fun file place => file = frame.file ∧ place = Site.location ⟨frame.site, resource.origin⟩)
      p := by
  refine ⟨.registers frame.file ⟨frame.site, resource.origin⟩ resource, ⟨⟨rfl, rfl⟩, rfl⟩,
    fun declared => ?_⟩
  generalize { p with declared := declared } = p
  rw [register_run_eq]
  cases hclash : p.clash ⟨frame.site, resource.origin⟩ resource.key with
  | none => exact .registers hclash rfl rfl rfl
  | some first => exact .clashes (by simp [hclash])

theorem still_collecting {α : Type} {step : Step α} (h : step.Still) :
    (Step.collecting step).Still :=
  fun p => h { p with reads := [], credentials := none }

theorem still_resourceBody (frame : Frame) (steps : List (Bool × Step Unit)) :
    (resourceBody frame steps).Still := by
  unfold resourceBody
  exact (still_collecting (Step.still_inScope _ _)).bind fun _ => Step.still_pure _

theorem origin_of_finishResource {setting : Setting} {key : Key} {type : ResourceType}
    {origin : Span} {body : EvaluatedBody} {resource : Resource}
    (h : finishResource setting key type origin body = .ok resource) :
    resource.origin = origin := by
  unfold finishResource at h
  obtain ⟨recorded, -, h⟩ := bind_eq_ok.1 h
  obtain ⟨-, -, h⟩ := bind_eq_ok.1 h
  dsimp only at h
  split at h
  · cases h
  · cases h
    rfl

section Blocks

variable {e : Evaluator} {frame : Frame} {p : Progress}

theorem declareResource_atOnce (type : ResourceType) (name : String) (source : List Node)
    (span : Span) {steps : List (Bool × Step Unit)} (hsteps : ∀ step ∈ steps, step.2.Quiet) :
    (declareResource e frame type name source span steps).AtOnce
      (fun file place => file = frame.file ∧ place = Site.location ⟨frame.site, span⟩) p := by
  unfold declareResource
  refine (Step.quiet_settled _).atOnce_bind (Step.still_settled _) fun key q _ _ _ => ?_
  refine (resourceBody_quiet frame hsteps).atOnce_bind (still_resourceBody _ _)
    fun body q _ _ _ => ?_
  refine (Step.quiet_settled _).atOnce_bind (Step.still_settled _)
    fun resource q hfinish _ _ => ?_
  have horigin : resource.origin = span := by
    cases hfinished : finishResource e.setting key type span body with
    | error error =>
      rw [hfinished] at hfinish
      cases hfinish
    | ok found =>
      rw [hfinished] at hfinish
      cases hfinish
      exact origin_of_finishResource hfinished
  refine Step.atOnce_get (fun _ => rfl) ?_
  refine (register_atOnce frame _ _).mono fun file place hplace => ?_
  rw [← horigin]
  exact hplace

theorem instantiate_atOnce {allowed : Nat → Span → Prop} (template : VirtualType) (name : String)
    (span : Span) {steps : List (Step Unit)} (hsteps : ∀ step ∈ steps, step.Quiet)
    (hexpand : ∀ inner q, inner.file = frame.file → inner.inResource = false →
      inner.site = frame.site ++ [.instance_ span] → q.inventory = p.inventory →
        (e.expand template inner span).AtOnce allowed q) :
    (instantiate e frame template name span steps).AtOnce allowed p := by
  have hquiet := Step.composes_quiet
  unfold instantiate
  refine (hquiet.assembles.inChild hsteps).collecting.atOnce_bind
    (still_collecting (Step.still_inScope _ _)) ?_
  rintro ⟨given, reads, credentials⟩ q _ hinventory _
  dsimp only
  split
  · exact Step.atOnce_fail _ _
  · split
    · exact Step.atOnce_fail _ _
    · exact Step.AtOnce.inScope (hexpand _ _ rfl rfl rfl hinventory)

end Blocks

/-! ## Statements -/

mutual

/-- The places of the resource blocks of a statement that do not stand in another block. -/
def blockPlaces : Node → List Span
  | .resource _ _ _ span => [span]
  | .directive ⟨_, _, _, _, body, branches, _⟩ => blockPlacesAll body ++ blockPlacesBranches branches
  | _ => []

/-- The places of the resource blocks in several statements. -/
def blockPlacesAll : List Node → List Span
  | [] => []
  | node :: rest => blockPlaces node ++ blockPlacesAll rest

/-- The places of the resource blocks in the branches of a directive. -/
def blockPlacesBranches : List Branch → List Span
  | [] => []
  | ⟨_, _, body, _⟩ :: rest => blockPlacesAll body ++ blockPlacesBranches rest

end

theorem mem_blockPlacesAll {nodes : List Node} {place : Span} :
    place ∈ blockPlacesAll nodes ↔ ∃ node ∈ nodes, place ∈ blockPlaces node := by
  induction nodes with
  | nil => simp [blockPlacesAll]
  | cons node rest ih => simp [blockPlacesAll, ih]

theorem mem_blockPlacesBranches {branches : List Branch} {place : Span} :
    place ∈ blockPlacesBranches branches ↔
      ∃ branch ∈ branches, ∃ node ∈ branch.body, place ∈ blockPlaces node := by
  induction branches with
  | nil => simp [blockPlacesBranches]
  | cons branch rest ih =>
    obtain ⟨name, arguments, body, span⟩ := branch
    simp [blockPlacesBranches, ih, mem_blockPlacesAll]

theorem mem_blockPlaces_directive {d : Directive} {place : Span} :
    place ∈ blockPlaces (.directive d) ↔ ∃ node ∈ (Node.directive d).inner, place ∈ blockPlaces node := by
  obtain ⟨name, arguments, clauses, bodyless, body, branches, span⟩ := d
  rw [blockPlaces, List.mem_append, mem_blockPlacesAll, mem_blockPlacesBranches]
  show _ ↔ ∃ node ∈ body ++ branches.flatMap Branch.body, place ∈ blockPlaces node
  constructor
  · rintro (⟨node, hnode, hplace⟩ | ⟨branch, hbranch, node, hnode, hplace⟩)
    · exact ⟨node, List.mem_append_left _ hnode, hplace⟩
    · exact ⟨node, List.mem_append_right _ (List.mem_flatMap.2 ⟨branch, hbranch, hnode⟩), hplace⟩
  · rintro ⟨node, hnode, hplace⟩
    rcases List.mem_append.1 hnode with hnode | hnode
    · exact Or.inl ⟨node, hnode, hplace⟩
    · obtain ⟨branch, hbranch, hnode⟩ := List.mem_flatMap.1 hnode
      exact Or.inr ⟨branch, hbranch, node, hnode, hplace⟩

/-- The places that declarations of a statement show: those of its blocks or, inside an instance
or a loop, that of the outermost one. -/
def Frame.Shows (frame : Frame) (node : Node) (place : Span) : Prop :=
  match frame.site with
  | [] => place ∈ blockPlaces node
  | step :: _ => place = step.span

/-- What a statement declares goes to the file of its frame and shows one of its places. -/
def Frame.Allows (frame : Frame) (node : Node) (file : Nat) (place : Span) : Prop :=
  file = frame.file ∧ frame.Shows node place

/-- A statement that declares at most one resource: one block without further blocks in it, an
instance of a template of at most one such statement, or a choice between such statements. -/
inductive AtOnce (virtuals : Table TypeName VirtualType) : Node → Prop
  | pair (entry : Language.Entry) : AtOnce virtuals (.pair entry)
  | named (key : String) (body : List Node) (span : Span) : AtOnce virtuals (.block key body span)
  | expression {node : Node} (h : node.isStatement = false) : AtOnce virtuals node
  | block {typeText : String} {name : Node} {source : List Node} {span : Span}
      (htype : ∀ type, TypeName.ofText typeText = .ok type → Table.get? virtuals type = none)
      (hsource : typesInAll source = []) :
      AtOnce virtuals (.resource typeText name source span)
  | instance_ {typeText : String} {type : TypeName} {template : VirtualType} {name : Node}
      {source : List Node} {span : Span} (htype : TypeName.ofText typeText = .ok type)
      (htemplate : Table.get? virtuals type = some template) (hsource : typesInAll source = [])
      (hlength : template.body.length ≤ 1) (hbody : ∀ node ∈ template.body, AtOnce virtuals node) :
      AtOnce virtuals (.resource typeText name source span)
  | directive {d : Directive} (hname : d.name ≠ "if") (htypes : typesIn (.directive d) = []) :
      AtOnce virtuals (.directive d)
  | choice {d : Directive} (hname : d.name = "if") (hlength : d.body.length ≤ 1)
      (hlengths : ∀ branch ∈ d.branches, branch.body.length ≤ 1)
      (hinner : ∀ node ∈ (Node.directive d).inner, AtOnce virtuals node) :
      AtOnce virtuals (.directive d)

section Statements

variable {virtuals : Table TypeName VirtualType} {e : Evaluator} {frame : Frame} {p : Progress}

theorem runBranches_atOnce {allowed : Nat → Span → Prop} (span : Span) {branches : List Branch}
    (hlengths : ∀ branch ∈ branches, branch.body.length ≤ 1)
    (hbodies : ∀ branch ∈ branches, ∀ node ∈ branch.body, ∀ q, q.inventory = p.inventory →
      (runStatement e node frame).AtOnce allowed q)
    {q : Progress} (hq : q.inventory = p.inventory) :
    (runBranches e span branches frame).AtOnce allowed q := by
  induction branches generalizing q with
  | nil => exact Step.atOnce_pure q
  | cons branch rest ih =>
    obtain ⟨name, arguments, body, place⟩ := branch
    have hrest := fun {q : Progress} (hq : q.inventory = p.inventory) =>
      ih (fun other hother => hlengths other (List.mem_cons_of_mem _ hother))
        (fun other hother => hbodies other (List.mem_cons_of_mem _ hother)) hq
    have hbody : ∀ q, q.inventory = p.inventory →
        (Step.body (runStatements e body frame)).AtOnce allowed q := by
      intro q hq
      rw [runStatements_eq_map]
      exact Step.atOnce_body (hlengths _ List.mem_cons_self)
        fun node hnode => hbodies _ List.mem_cons_self node hnode q hq
    unfold runBranches
    split
    · exact hbody q hq
    · refine (Step.composes_quiet.evaluating [] e frame span trivial).atOnce_bind
        (Step.still_reading _ _ _ _) fun value q' _ hinventory _ => ?_
      split
      · exact hbody q' (hinventory.trans hq)
      · exact hrest (hinventory.trans hq)

/-- Such a statement waits and leaves nothing behind, or it registers one resource at most. -/
theorem AtOnce.statement {node : Node} (h : AtOnce virtuals node) (setting : Setting) (depth : Nat)
    (frame : Frame) (p : Progress) (hframe : frame.inResource = false)
    (hp : p.inventory.virtuals = virtuals) :
    (runStatement (Evaluator.atDepth setting depth) node frame).AtOnce (frame.Allows node) p := by
  have hquiet := Step.composes_quiet
  induction h generalizing depth frame p with
  | pair entry => exact (runStatement_quiet _ rfl frame).atOnce (waitsStill_pair entry) p
  | named key body span =>
    unfold runStatement
    rw [hframe]
    exact Step.atOnce_fail _ _
  | @expression node h => cases node <;> first | exact Step.atOnce_fail _ _ | cases h
  | @block typeText name source span htype hsource =>
    unfold runStatement
    refine (Step.quiet_settled _).atOnce_bind (Step.still_settled _)
      fun type q htypeAt hq _ => ?_
    refine (Step.quiet_naming _ frame span name).atOnce_bind (Step.still_reading _ _ _ _)
      fun text q' _ hq' _ => ?_
    refine Step.atOnce_get (fun _ => rfl) ?_
    have hvirtual : q'.inventory.virtual? type = none := by
      unfold Inventory.virtual?
      rw [hq', hq, hp]
      cases hname : typeAt span typeText with
      | ok found =>
        rw [hname] at htypeAt
        cases htypeAt
        exact htype _ (typeAt_eq_ok.1 hname)
      | error cause =>
        rw [hname] at htypeAt
        cases htypeAt
    rw [hvirtual]
    dsimp only
    split
    · exact Step.atOnce_fail _ _
    · refine (declareResource_atOnce _ _ _ _ (runMarked_quiet _ hsource _)).mono ?_
      rintro file place ⟨rfl, rfl⟩
      refine ⟨rfl, ?_⟩
      unfold Frame.Shows Site.location
      cases frame.site with
      | nil => exact List.mem_singleton.2 rfl
      | cons step rest => rfl
  | @instance_ typeText type template name source span htype htemplate hsource hlength hbody ih =>
    unfold runStatement
    rw [typeAt_eq_ok.2 htype]
    refine (Step.quiet_settled _).atOnce_bind (Step.still_settled _)
      fun found q hfound hq _ => ?_
    cases hfound
    refine (Step.quiet_naming _ frame span name).atOnce_bind (Step.still_reading _ _ _ _)
      fun text q' _ hq' _ => ?_
    refine Step.atOnce_get (fun _ => rfl) ?_
    have hvirtual : q'.inventory.virtual? type = some template := by
      unfold Inventory.virtual?
      rw [hq', hp, htemplate]
    rw [hvirtual]
    refine instantiate_atOnce template _ span (runStatements_quiet _ hsource _) ?_
    intro inner q'' hfile hinner hsite hq''
    cases depth with
    | zero => exact Step.atOnce_fail _ _
    | succ depth =>
      show (Step.body (runStatements (Evaluator.atDepth setting depth) template.body inner)).AtOnce
        _ q''
      rw [runStatements_eq_map]
      refine Step.atOnce_body hlength fun node hnode => ?_
      refine (ih node hnode depth inner q'' hinner ?_).mono fun file place hallowed => ?_
      · rw [hq'', hq', hp]
      · refine ⟨hallowed.1.trans hfile, ?_⟩
        have hplace := hallowed.2
        unfold Frame.Shows at hplace ⊢
        rw [hsite] at hplace
        cases hframeSite : frame.site with
        | nil =>
          rw [hframeSite] at hplace
          exact List.mem_singleton.2 hplace
        | cons step rest =>
          rw [hframeSite] at hplace
          exact hplace
  | @directive d hname htypes =>
    refine (runStatement_quiet _ htypes frame).atOnce ?_ p
    unfold runStatement
    exact waitsStill_runDirective hname
  | @choice d hname hlength hlengths hinner ih =>
    have hchild : ∀ node ∈ (Node.directive d).inner, ∀ q : Progress, q.inventory = p.inventory →
        (runStatement (Evaluator.atDepth setting depth) node frame).AtOnce
          (frame.Allows (.directive d)) q := by
      intro node hnode q hq
      refine (ih node hnode depth frame q hframe (by rw [hq, hp])).mono fun file place hallowed => ?_
      refine ⟨hallowed.1, ?_⟩
      have hplace := hallowed.2
      unfold Frame.Shows at hplace ⊢
      cases hframeSite : frame.site with
      | nil =>
        rw [hframeSite] at hplace
        exact mem_blockPlaces_directive.2 ⟨node, hnode, hplace⟩
      | cons step rest =>
        rw [hframeSite] at hplace
        exact hplace
    obtain ⟨name, arguments, clauses, bodyless, body, branches, span⟩ := d
    unfold runStatement runDirective
    rw [if_pos hname]
    cases hcondition : arguments.head? with
    | none => exact Step.atOnce_fail _ _
    | some condition =>
      refine (hquiet.evaluating [] _ frame span trivial).atOnce_bind (Step.still_reading _ _ _ _)
        fun value q _ hq _ => ?_
      split
      · rw [runStatements_eq_map]
        exact Step.atOnce_body hlength
          fun node hnode => hchild node (List.mem_append_left _ hnode) q hq
      · refine runBranches_atOnce span hlengths (fun branch hbranch node hnode q hq => ?_) hq
        exact hchild node
          (List.mem_append_right _ (List.mem_flatMap.2 ⟨branch, hbranch, hnode⟩)) q hq

end Statements

end Provision

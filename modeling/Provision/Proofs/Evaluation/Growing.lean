import Provision.Evaluation.Passes
import Provision.Proofs.Evaluation.Handles
import Provision.Proofs.Outcome

/-!
# Evaluation only adds

Evaluating a statement changes an inventory in one way only: it inserts
resources of registered types under keys of those types.  What insertion keeps
is therefore kept by every statement, however it ends and however often it is
tried, and by evaluating the declaration of a resource again.
-/

namespace Provision

open Provision.Language (Node Branch Directive)

/-- The second inventory comes from the first by inserting resources of registered types. -/
inductive Inventory.Grown (before : Inventory) : Inventory → Prop
  | refl : Grown before before
  | insert {after : Inventory} (h : Grown before after) (index : Nat) (resource : Resource)
      (name : TypeName)
      (hregistered : after.registry.type? name = some resource.type)
      (hkey : resource.key.type = resource.type.name) :
      Grown before (after.insertAt index resource)

namespace Inventory.Grown

variable {a b c : Inventory}

theorem trans (hfirst : Grown a b) (hsecond : Grown b c) : Grown a c := by
  induction hsecond with
  | refl => exact hfirst
  | insert _ index resource name hregistered hkey ih =>
    exact .insert ih index resource name hregistered hkey

theorem registry_eq (h : Grown a b) : b.registry = a.registry := by
  induction h with
  | refl => rfl
  | insert _ _ _ _ _ _ ih => exact ih

theorem virtuals_eq (h : Grown a b) : b.virtuals = a.virtuals := by
  induction h with
  | refl => rfl
  | insert _ _ _ _ _ _ ih => exact ih

theorem workflowFor?_eq (h : Grown a b) : b.workflowFor? = a.workflowFor? := by
  induction h with
  | refl => rfl
  | insert _ _ _ _ _ _ ih => exact ih

end Inventory.Grown

/-- However the step ends, it only adds to the inventory. -/
def Step.Grows {α : Type} (step : Step α) : Prop :=
  ∀ p : Progress, p.inventory.Grown (step.run p).2.inventory

/-- Expanding an instance only adds to the inventory. -/
def Evaluator.Grows (e : Evaluator) : Prop :=
  ∀ template frame span, (e.expand template frame span).Grows

namespace Step

variable {α β : Type}

/-! ## Steps made of steps -/

theorem grows_of_same {step : Step α} (h : ∀ p, (step.run p).2.inventory = p.inventory) :
    step.Grows := by
  intro p
  rw [h p]
  exact .refl

theorem grows_pure (a : α) : (pure a : Step α).Grows :=
  grows_of_same fun _ => rfl

theorem grows_throw (i : Interrupt) : (throw i : Step α).Grows :=
  grows_of_same fun _ => rfl

theorem grows_fail (error : EvalError) : (Step.fail error : Step α).Grows :=
  grows_throw _

theorem grows_settled (outcome : Except EvalError α) : (Step.settled outcome).Grows := by
  cases outcome with
  | ok a => exact grows_pure a
  | error e => exact grows_fail e

theorem grows_get : (get : Step Progress).Grows :=
  grows_of_same fun _ => rfl

theorem grows_modify {change : Progress → Progress}
    (h : ∀ p, (change p).inventory = p.inventory) :
    (modify change : Step Unit).Grows :=
  grows_of_same h

theorem grows_bind_at {m : Step α} {f : α → Step β} (hm : m.Grows) {p : Progress}
    (hf : ∀ a q, m.run p = (.ok a, q) → q.inventory.Grown ((f a).run q).2.inventory) :
    p.inventory.Grown ((m >>= f).run p).2.inventory := by
  have hfirst := hm p
  cases hrun : m.run p with
  | mk outcome q =>
    rw [hrun] at hfirst
    cases outcome with
    | ok a =>
      rw [run_bind_ok hrun]
      exact hfirst.trans (hf a q hrun)
    | error i =>
      rw [run_bind_error hrun]
      exact hfirst

theorem Grows.bind {m : Step α} {f : α → Step β} (hm : m.Grows) (hf : ∀ a, (f a).Grows) :
    (m >>= f).Grows :=
  fun _ => grows_bind_at hm fun a q _ => hf a q

theorem grows_reading (e : Evaluator) (frame : Frame) (span : Span) (run : View → Recording α) :
    (e.reading frame span run).Grows :=
  grows_of_same fun _ => rfl

theorem Grows.inScope {step : Step Unit} (h : step.Grows) (enter : Scope → Scope) :
    (Step.inScope enter step).Grows :=
  fun p => h { p with scope := enter p.scope }

theorem Grows.collecting {step : Step α} (h : step.Grows) : (Step.collecting step).Grows :=
  fun p => h { p with reads := [], credentials := none }

theorem grows_sequence {steps : List (Step Unit)} (h : ∀ step ∈ steps, step.Grows) :
    (Step.sequence steps).Grows := by
  induction steps with
  | nil => exact grows_pure ()
  | cons step rest ih =>
    apply (h step List.mem_cons_self).bind
    intro _
    exact ih fun other hother => h other (List.mem_cons_of_mem _ hother)

/-- A pass gives back some of its steps. -/
theorem pass_subset (steps : List (Step Unit)) (p q : Progress) (left : List (Step Unit))
    (reasons : List Deferral) (h : (Step.pass steps).run p = (.ok (left, reasons), q)) :
    ∀ step ∈ left, step ∈ steps := by
  induction steps generalizing p q left reasons with
  | nil =>
    cases h
    intro step hstep
    cases hstep
  | cons first rest ih =>
    rw [Step.pass, run_bind] at h
    split at h
    · next waiting t hwaiting =>
      rw [run_bind] at h
      split at h
      · next found u hfound =>
        obtain ⟨others, more⟩ := found
        have hrest := ih t u others more hfound
        intro step hstep
        cases waiting with
        | none =>
          cases h
          exact List.mem_cons_of_mem _ (hrest step hstep)
        | some reasons' =>
          cases h
          rcases List.mem_cons.1 hstep with rfl | hstep
          · exact List.mem_cons_self
          · exact List.mem_cons_of_mem _ (hrest step hstep)
      · cases h
    · cases h

theorem grows_pass {steps : List (Step Unit)} (h : ∀ step ∈ steps, step.Grows) :
    (Step.pass steps).Grows := by
  induction steps with
  | nil => exact grows_pure _
  | cons step rest ih =>
    have hfirst := h step List.mem_cons_self
    unfold Step.pass
    apply Grows.bind
    · intro p
      have hp := hfirst p
      dsimp only [ExceptT.run, ExceptT.mk] at hp ⊢
      revert hp
      rcases step p with ⟨outcome, after⟩
      intro hp
      rcases outcome with i | done
      · cases i <;> exact hp
      · exact hp
    · intro waiting
      apply (ih fun other hother => h other (List.mem_cons_of_mem _ hother)).bind
      intro found
      cases waiting with
      | none => exact grows_pure _
      | some reasons => exact grows_pure _

theorem grows_settle (bound : Nat) {steps : List (Step Unit)} (h : ∀ step ∈ steps, step.Grows) :
    (Step.settle bound steps).Grows := by
  induction bound generalizing steps with
  | zero => exact grows_pure ()
  | succ bound ih =>
    intro p
    unfold Step.settle
    apply grows_bind_at (grows_pass h)
    rintro ⟨left, reasons⟩ q hpass
    dsimp only
    split
    · exact .refl
    · split
      · exact .refl
      · exact ih (fun step hstep => h step (pass_subset steps p q left reasons hpass step hstep)) q

theorem grows_body {steps : List (Step Unit)} (h : ∀ step ∈ steps, step.Grows) :
    (Step.body steps).Grows :=
  grows_settle _ h

end Step

/-! ## Resources -/

section Resources

variable {e : Evaluator} {frame : Frame}

theorem resourceBody_grows (frame : Frame) {steps : List (Bool × Step Unit)} (h : ∀ step ∈ steps, step.2.Grows) :
    (resourceBody frame steps).Grows := by
  unfold resourceBody
  refine Step.Grows.bind (Step.Grows.collecting (Step.Grows.inScope (Step.grows_body ?_) _))
    fun _ => Step.grows_pure _
  intro step hstep
  have hmarked : ∀ marked : Bool × Step Unit → Bool,
      step ∈ (steps.filter marked).map Prod.snd → step.Grows := by
    intro marked hmem
    obtain ⟨entry, hentry, rfl⟩ := List.mem_map.1 hmem
    exact h entry (List.mem_filter.1 hentry).1
  exact (List.mem_append.1 hstep).elim (hmarked _) (hmarked _)

theorem eq_of_keyAt {span : Span} {type : TypeName} {name : String} {key : Key}
    (h : keyAt span type name = .ok key) :
    key = ⟨type, name⟩ := by
  unfold keyAt Key.make at h
  split at h
  · next made hmade =>
    cases h
    split at hmade
    · cases hmade
    · cases hmade
      rfl
  · cases h

theorem key_of_keyAt {span : Span} {type : TypeName} {name : String} {key : Key}
    (h : keyAt span type name = .ok key) :
    key.type = type := by
  rw [eq_of_keyAt h]

/-- A finished resource has the key and the type it was declared with. -/
theorem identity_of_finishResource {setting : Setting} {key : Key} {type : ResourceType}
    {origin : Span} {body : EvaluatedBody} {resource : Resource}
    (h : finishResource setting key type origin body = .ok resource) :
    resource.key = key ∧ resource.type = type := by
  unfold finishResource at h
  obtain ⟨recorded, -, h⟩ := bind_eq_ok.1 h
  obtain ⟨-, -, h⟩ := bind_eq_ok.1 h
  dsimp only at h
  split at h
  · cases h
  · cases h
    exact ⟨rfl, rfl⟩

theorem register_grown {resource : Resource} {name : TypeName} {p : Progress}
    (hregistered : p.inventory.registry.type? name = some resource.type)
    (hkey : resource.key.type = resource.type.name) :
    p.inventory.Grown ((register frame resource).run p).2.inventory := by
  unfold register
  rw [run_bind_ok (run_get p)]
  dsimp only
  split
  · exact .refl
  · exact .insert .refl frame.file resource name hregistered hkey

theorem declareResource_grown {type : ResourceType} {typeName : TypeName} {name : String}
    {source : List Node} {span : Span} {steps : List (Bool × Step Unit)}
    (h : ∀ step ∈ steps, step.2.Grows) {p : Progress}
    (hregistered : p.inventory.registry.type? typeName = some type) :
    p.inventory.Grown
      ((declareResource e frame type name source span steps).run p).2.inventory := by
  unfold declareResource
  apply Step.grows_bind_at (Step.grows_settled _)
  intro key p₁ hkey
  have hsame : p₁ = p ∧ keyAt span type.name (qualify frame.qualifier name) = .ok key := by
    cases hkeyAt : keyAt span type.name (qualify frame.qualifier name) with
    | error e =>
      rw [hkeyAt] at hkey
      cases hkey
    | ok found =>
      rw [hkeyAt] at hkey
      cases hkey
      exact ⟨rfl, rfl⟩
  obtain ⟨rfl, hkeyAt⟩ := hsame
  apply Step.grows_bind_at (resourceBody_grows frame h)
  intro body p₂ hbody
  have hgrown := resourceBody_grows frame h p₁
  rw [hbody] at hgrown
  apply Step.grows_bind_at (Step.grows_settled _)
  intro resource p₃ hfinish
  cases hfinished : finishResource e.setting key type span body with
  | error e =>
    rw [hfinished] at hfinish
    cases hfinish
  | ok found =>
    rw [hfinished] at hfinish
    cases hfinish
    obtain ⟨hfoundKey, hfoundType⟩ := identity_of_finishResource hfinished
    rw [run_bind_ok (run_get p₂)]
    refine register_grown (?_ : p₂.inventory.registry.type? typeName = some resource.type) ?_
    · rw [hgrown.registry_eq, hregistered, hfoundType]
    · show resource.key.type = resource.type.name
      rw [hfoundKey, hfoundType]
      exact key_of_keyAt hkeyAt

theorem instantiate_grows (he : e.Grows) (template : VirtualType) (name : String) (span : Span)
    {steps : List (Step Unit)} (h : ∀ step ∈ steps, step.Grows) :
    (instantiate e frame template name span steps).Grows := by
  unfold instantiate
  apply (Step.Grows.collecting (Step.Grows.inScope (Step.grows_body h) _)).bind
  rintro ⟨arguments, reads, credentials⟩
  dsimp only
  split
  · exact Step.grows_fail _
  · split
    · exact Step.grows_fail _
    · exact (Step.Grows.inScope (he _ _ _) _).bind fun _ => Step.grows_pure _

end Resources

/-! ## Directives -/

section Directives

variable {e : Evaluator} {frame : Frame}

theorem runIterations_grows {run : Frame → Step Unit} (hrun : ∀ inner, (run inner).Grows)
    (span : Span) (names : List String) (index : Nat) (rounds : List (List Value)) :
    (runIterations frame span names run index rounds).Grows := by
  induction rounds generalizing index with
  | nil => exact Step.grows_pure _
  | cons values rest ih =>
    unfold runIterations
    apply (Step.Grows.inScope (hrun _) _).bind
    intro scope
    exact (ih (index + 1)).bind fun _ => Step.grows_pure _

theorem runLoop_grows (d : Directive) {run : Frame → Step Unit} (hrun : ∀ inner, (run inner).Grows) :
    (runLoop e frame d run).Grows := by
  unfold runLoop
  apply (Step.grows_settled _).bind
  intro names
  split
  · exact Step.grows_fail _
  · split
    · exact Step.grows_fail _
    · apply (Step.grows_reading _ _ _ _).bind
      intro value
      apply (Step.grows_settled _).bind
      intro rounds
      apply (runIterations_grows hrun _ _ _ _).bind
      intro blocks
      exact Step.grows_modify fun _ => rfl

theorem exclude_grows (d : Directive) (arguments : List Node) (entries : Bindings) :
    (exclude e frame d arguments entries).Grows := by
  induction arguments generalizing entries with
  | nil => exact Step.grows_pure _
  | cons argument rest ih =>
    unfold exclude
    apply (Step.grows_reading _ _ _ _).bind
    intro value
    apply (Step.grows_settled _).bind
    intro names
    exact ih _

theorem runExtends_grows (d : Directive) : (runExtends e frame d).Grows := by
  unfold runExtends
  split
  · exact Step.grows_fail _
  · apply (Step.grows_reading _ _ _ _).bind
    intro value
    apply Step.grows_get.bind
    intro progress
    apply (Step.grows_settled _).bind
    intro entries
    apply (exclude_grows d _ _).bind
    intro left
    exact Step.grows_modify fun _ => rfl

theorem runCredentials_grows (d : Directive) : (runCredentials e frame d).Grows := by
  unfold runCredentials
  split
  · exact Step.grows_fail _
  · split
    · exact Step.grows_fail _
    · apply (Step.grows_reading _ _ _ _).bind
      intro value
      split
      · exact Step.grows_modify fun _ => rfl
      · exact Step.grows_fail _

end Directives

/-! ## Statements -/

mutual

/-- Every statement only adds to the inventory. -/
theorem runStatement_grows {e : Evaluator} (he : e.Grows) :
    ∀ (node : Node) (frame : Frame), (runStatement e node frame).Grows
  | .pair ⟨key, node, span⟩, frame => by
    unfold runStatement
    exact (Step.grows_reading _ _ _ _).bind fun _ => Step.grows_modify fun _ => rfl
  | .resource typeText name source span, frame => by
    unfold runStatement
    apply (Step.grows_settled _).bind
    intro typeName
    apply (Step.grows_reading _ _ _ _).bind
    intro text p
    rw [run_bind_ok (run_get p)]
    split
    · exact instantiate_grows he _ _ _ (runStatements_grow he source _) p
    · split
      · exact .refl
      · next type hregistered =>
        exact declareResource_grown (runMarked_grow he source _) hregistered
  | .block key source span, frame => by
    unfold runStatement
    split
    · exact Step.grows_fail _
    · exact ((Step.grows_body (runStatements_grow he source frame)).inScope _).bind
        fun _ => Step.grows_modify fun _ => rfl
  | .directive d, frame => by
    unfold runStatement
    exact runDirective_grows he d frame
  | .null, _ => Step.grows_fail _
  | .bool _, _ => Step.grows_fail _
  | .number _, _ => Step.grows_fail _
  | .text _, _ => Step.grows_fail _
  | .interpolated _, _ => Step.grows_fail _
  | .list _, _ => Step.grows_fail _
  | .map _, _ => Step.grows_fail _
  | .var _ _, _ => Step.grows_fail _
  | .ref _ _ _ _, _ => Step.grows_fail _
  | .binary _ _ _, _ => Step.grows_fail _

theorem runStatements_grow {e : Evaluator} (he : e.Grows) :
    ∀ (nodes : List Node) (frame : Frame), ∀ step ∈ runStatements e nodes frame, step.Grows
  | [], _ => by
    intro step hstep
    cases hstep
  | node :: rest, frame => by
    intro step hstep
    rcases List.mem_cons.1 hstep with rfl | hstep
    · exact runStatement_grows he node frame
    · exact runStatements_grow he rest frame step hstep

theorem runMarked_grow {e : Evaluator} (he : e.Grows) :
    ∀ (nodes : List Node) (frame : Frame), ∀ step ∈ runMarked e nodes frame, step.2.Grows
  | [], _ => by
    intro step hstep
    cases hstep
  | node :: rest, frame => by
    intro step hstep
    rcases List.mem_cons.1 hstep with rfl | hstep
    · exact runStatement_grows he node frame
    · exact runMarked_grow he rest frame step hstep

theorem runDirective_grows {e : Evaluator} (he : e.Grows) :
    ∀ (d : Directive) (frame : Frame), (runDirective e d frame).Grows
  | ⟨name, arguments, clauses, bodyless, body, branches, span⟩, frame => by
    unfold runDirective
    split
    · split
      · exact Step.grows_fail _
      · apply (Step.grows_reading _ _ _ _).bind
        intro value
        split
        · exact Step.grows_body (runStatements_grow he body frame)
        · exact runBranches_grows he span branches frame
    · split
      · exact runLoop_grows _ fun inner => Step.grows_sequence (runStatements_grow he body inner)
      · split
        · exact runExtends_grows _
        · split
          · exact runCredentials_grows _
          · split
            · exact Step.grows_fail _
            · split
              · exact Step.grows_fail _
              · split
                · exact Step.grows_fail _
                · exact Step.grows_fail _

theorem runBranches_grows {e : Evaluator} (he : e.Grows) (span : Span) :
    ∀ (branches : List Branch) (frame : Frame), (runBranches e span branches frame).Grows
  | [], _ => by
    unfold runBranches
    exact Step.grows_pure ()
  | ⟨_, arguments, body, _⟩ :: rest, frame => by
    unfold runBranches
    split
    · exact Step.grows_body (runStatements_grow he body frame)
    · apply (Step.grows_reading _ _ _ _).bind
      intro value
      split
      · exact Step.grows_body (runStatements_grow he body frame)
      · exact runBranches_grows he span rest frame

end

/-- However deep instances nest, expanding one only adds to the inventory. -/
theorem atDepth_grows (setting : Setting) (depth : Nat) : (Evaluator.atDepth setting depth).Grows := by
  induction depth with
  | zero =>
    intro template frame span
    exact Step.grows_fail _
  | succ depth ih =>
    intro template frame span
    exact Step.grows_body (runStatements_grow ih template.body frame)

/-! ## Evaluating a declaration again -/

/-- Every resource has a registered type and is stored under a key of that type. -/
def Inventory.Typed (inventory : Inventory) : Prop :=
  ∀ file ∈ inventory.files, ∀ entry ∈ file.resources,
    entry.1.type = entry.2.type.name ∧
      ∃ name, inventory.registry.type? name = some entry.2.type

theorem Inventory.Typed.of_resource? {inventory : Inventory} (h : inventory.Typed) {key : Key}
    {resource : Resource} (hfound : inventory.resource? key = some resource) :
    key.type = resource.type.name ∧
      ∃ name, inventory.registry.type? name = some resource.type := by
  obtain ⟨file, hfile, hget⟩ := List.exists_of_findSome?_eq_some hfound
  exact h file hfile (key, resource) (Table.mem_of_get? hget)

/-- Insertion keeps the resources typed. -/
theorem Inventory.Grown.typed {a b : Inventory} (h : a.Grown b) (htyped : a.Typed) : b.Typed := by
  induction h with
  | refl => exact htyped
  | @insert after _ index resource name hregistered hkey ih =>
    intro file hfile entry hentry
    obtain ⟨position, hposition, rfl⟩ := List.mem_mapIdx.1 hfile
    have hold := ih after.files[position] (List.getElem_mem hposition)
    by_cases hhere : position = index
    · rw [if_pos hhere] at hentry
      rcases Table.mem_set hentry with rfl | hentry
      · exact ⟨hkey, name, hregistered⟩
      · exact hold entry hentry
    · rw [if_neg hhere] at hentry
      exact hold entry ((Table.erase_sublist _ _).subset hentry)

/-- Evaluating a declaration again adds what its body adds and, when it succeeds, the resource with
the same key and type. -/
theorem reevaluate_adds (depth : Nat) (pending current : Inventory) (key : Key) :
    pending.Grown (reevaluate depth pending current key).2 ∨
      ∃ body file resource again, pending.Grown body ∧ pending.resource? key = some resource ∧
        again.key = key ∧ again.type = resource.type ∧
        (reevaluate depth pending current key).2 = body.insertAt file again := by
  unfold reevaluate
  split
  · next resource file hresource hfile =>
    split
    · exact Or.inl .refl
    · next declaration hdeclaration =>
      have hbody := resourceBody_grows
        ⟨file, declaration.qualifier, true, declaration.inherited, []⟩
        (runMarked_grow (atDepth_grows ⟨.configuration, some current, []⟩ depth) declaration.body
          ⟨file, declaration.qualifier, true, declaration.inherited, []⟩)
        ⟨pending, [], Scope.withValues declaration.bindings, [], none⟩
      dsimp only
      generalize (resourceBody _ _).run _ = result at hbody ⊢
      obtain ⟨outcome, after⟩ := result
      rcases outcome with (reasons | e) | body
      · exact Or.inl hbody
      · exact Or.inl hbody
      · dsimp only at hbody ⊢
        split
        · exact Or.inl hbody
        · next again hfinished =>
          obtain ⟨hagainKey, hagainType⟩ := identity_of_finishResource hfinished
          exact Or.inr ⟨after.inventory, file, resource,
            { again with declaration := some declaration }, hbody, hresource, hagainKey,
            hagainType, rfl⟩
  · exact Or.inl .refl

/-- Evaluating a declaration again only adds to the inventory. -/
theorem reevaluate_grown {pending : Inventory} (htyped : pending.Typed) (depth : Nat)
    (current : Inventory) (key : Key) :
    pending.Grown (reevaluate depth pending current key).2 := by
  rcases reevaluate_adds depth pending current key with
    hgrown | ⟨body, file, resource, again, hgrown, hresource, hkey, htype, heq⟩
  · exact hgrown
  · obtain ⟨hname, name, hregistered⟩ := htyped.of_resource? hresource
    rw [heq]
    refine .insert hgrown file again name ?_ ?_
    · rw [hgrown.registry_eq, htype]
      exact hregistered
    · rw [hkey, htype, hname]

/-- Evaluating a declaration again leaves the workflows as they are. -/
theorem workflowFor?_reevaluate (depth : Nat) (pending current : Inventory) (key : Key) :
    (reevaluate depth pending current key).2.workflowFor? = pending.workflowFor? := by
  rcases reevaluate_adds depth pending current key with
    hgrown | ⟨body, file, resource, again, hgrown, -, -, -, heq⟩
  · exact hgrown.workflowFor?_eq
  · rw [heq]
    exact hgrown.workflowFor?_eq

end Provision

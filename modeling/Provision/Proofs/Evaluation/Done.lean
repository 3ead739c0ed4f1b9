import Provision.Proofs.Evaluation.AtOnce

/-!
# What was done by a statement that succeeded

A block or an instance succeeds only when each of its parts has.  The lemmas here
take such a success apart: into the name, the body and the resource of a block,
and into the arguments and the body of an instance.
-/

namespace Provision

open Provision.Language (Node Branch Directive)

theorem Evaluator.setting_atDepth (setting : Setting) (depth : Nat) :
    (Evaluator.atDepth setting depth).setting = setting := by
  cases depth <;> rfl

section Done

variable {e : Evaluator} {frame : Frame} {p q : Progress} {span : Span} {source : List Node}

/-- What became of a resource that was registered. -/
theorem register_eq_ok {resource : Resource} (h : (register frame resource).run p = (.ok (), q)) :
    p.clash ⟨frame.site, resource.origin⟩ resource.key = none ∧
      q = { p with
        inventory := p.inventory.insertAt frame.file resource
        declared := Table.set p.declared resource.key ⟨frame.site, resource.origin⟩ } := by
  rw [register_run_eq] at h
  split at h
  · cases h
  · next hclash =>
    cases h
    exact ⟨hclash, rfl⟩

/-- The parts of a block of a registered type: its key, its body, and the resource they make. -/
theorem declareResource_eq_ok {type : ResourceType} {name : String} {steps : List (Bool × Step Unit)}
    (h : (declareResource e frame type name source span steps).run p = (.ok (), q)) :
    ∃ key body resource between,
      keyAt span type.name (qualify frame.qualifier name) = .ok key ∧
      (resourceBody frame steps).run p = (.ok body, between) ∧
      finishResource e.setting key type span body = .ok resource ∧
      (register frame { resource with
        declaration :=
          if e.setting.mode = .configuration then
            some ⟨source, between.scope.flatten, frame.qualifier, frame.inherited⟩
          else none }).run between = (.ok (), q) := by
  unfold declareResource at h
  rw [run_bind_eq_ok] at h
  obtain ⟨key, p₁, hkey, h⟩ := h
  rw [Step.settled_run_eq_ok] at hkey
  obtain ⟨hkey, rfl⟩ := hkey
  rw [run_bind_eq_ok] at h
  obtain ⟨body, p₂, hbody, h⟩ := h
  rw [run_bind_eq_ok] at h
  obtain ⟨resource, p₃, hfinish, h⟩ := h
  rw [Step.settled_run_eq_ok] at hfinish
  obtain ⟨hfinish, rfl⟩ := hfinish
  rw [run_bind_ok (run_get p₃)] at h
  exact ⟨key, body, resource, p₃, hkey, hbody, hfinish, h⟩

/-- The frame in which the body of an instance is evaluated. -/
def Frame.below (frame : Frame) (name : String) (span : Span) (reads : List Key) : Frame where
  file := frame.file
  qualifier := some (qualify frame.qualifier name)
  inResource := false
  inherited := Sorted.union frame.inherited reads
  site := frame.site ++ [.instance_ span]

/-- The parts of an instance: its arguments, and the body of its template. -/
theorem instantiate_eq_ok {template : VirtualType} {name : String} {steps : List (Step Unit)}
    (h : (instantiate e frame template name span steps).run p = (.ok (), q)) :
    ∃ arguments reads credentials between after,
      (Step.collecting (Step.inScope Scope.child (Step.body steps))).run p =
        (.ok (arguments, reads, credentials), between) ∧
      (e.expand template (frame.below name span reads) span).run
        { between with scope := Scope.withValues arguments.values } = (.ok (), after) ∧
      q = { after with scope := between.scope } := by
  unfold instantiate at h
  rw [run_bind_eq_ok] at h
  obtain ⟨⟨arguments, reads, credentials⟩, between, harguments, h⟩ := h
  dsimp only at h
  split at h
  · cases h
  · split at h
    · cases h
    · rw [run_bind_eq_ok] at h
      obtain ⟨scope, last, hbody, h⟩ := h
      cases h
      rw [Step.inScope_run, Prod.mk.injEq] at hbody
      obtain ⟨houtcome, rfl⟩ := hbody
      refine ⟨arguments, reads, credentials, between, _, harguments, ?_, rfl⟩
      unfold Frame.below
      generalize (e.expand template _ span).run _ = result at houtcome ⊢
      obtain ⟨outcome, after⟩ := result
      cases outcome with
      | ok done => rfl
      | error i => cases houtcome

/-- The parts of a statement that declares: its type, its name, and an instance or a resource. -/
theorem block_eq_ok {typeText : String} {name : Node}
    (h : (runStatement e (.resource typeText name source span) frame).run p = (.ok (), q)) :
    ∃ type text between, TypeName.ofText typeText = .ok type ∧
      (e.reading frame span fun view => do
        let value ← evaluate view name
        nameOf view value).run p = (.ok text, between) ∧
      ((∃ template, p.inventory.virtual? type = some template ∧
          (instantiate e frame template text span
            (runStatements e source { frame with inResource := false })).run between = (.ok (), q)) ∨
        ∃ found, p.inventory.virtual? type = none ∧ p.inventory.registry.type? type = some found ∧
          (declareResource e frame found text source span
            (runMarked e source { frame with inResource := true })).run between = (.ok (), q)) := by
  unfold runStatement at h
  rw [run_bind_eq_ok] at h
  obtain ⟨type, p₁, htype, h⟩ := h
  rw [Step.settled_run_eq_ok] at htype
  obtain ⟨htype, rfl⟩ := htype
  rw [run_bind_eq_ok] at h
  obtain ⟨text, p₂, hname, h⟩ := h
  rw [run_bind_ok (run_get p₂)] at h
  have hinventory := (Step.quiet_naming e frame span name).inventory p₁
  rw [hname] at hinventory
  refine ⟨type, text, p₂, typeAt_eq_ok.1 htype, hname, ?_⟩
  rw [← hinventory]
  split at h
  · next template htemplate => exact Or.inl ⟨template, htemplate, h⟩
  · next hnone =>
    split at h
    · cases h
    · next found hfound => exact Or.inr ⟨found, hnone, hfound, h⟩

/-- A body of at most one statement does nothing, or what that statement does. -/
theorem body_eq_ok {nodes : List Node} (hlength : nodes.length ≤ 1)
    (h : (Step.body (runStatements e nodes frame)).run p = (.ok (), q)) :
    q = p ∨ ∃ node ∈ nodes, (runStatement e node frame).run p = (.ok (), q) := by
  match nodes, hlength with
  | [], _ =>
    cases h
    exact Or.inl rfl
  | [node], _ =>
    rw [runStatements_eq_map, List.map_singleton, Step.body_singleton] at h
    exact Or.inr ⟨node, List.mem_cons_self, h⟩

/-- The body of a template is evaluated one level deeper. -/
theorem expand_eq_ok {setting : Setting} {depth : Nat} {template : VirtualType}
    (h : ((Evaluator.atDepth setting depth).expand template frame span).run p = (.ok (), q)) :
    ∃ below, depth = below + 1 ∧
      (Step.body (runStatements (Evaluator.atDepth setting below) template.body frame)).run p =
        (.ok (), q) := by
  cases depth with
  | zero => cases h
  | succ below => exact ⟨below, rfl, h⟩

end Done

end Provision

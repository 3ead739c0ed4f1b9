import Mathlib
import Provision.Proofs.Evaluation.Blind
import Provision.Proofs.Evaluation.Founded
import Provision.Proofs.Evaluation.Keeping

/-!
# Instances are hygienic

The block of an instance gives values to the parameters of its template, and the
body of the template runs in a scope that holds nothing else.  So wherever the block
gives the same values, the instance comes to the same.  What the body registers is
named below the instance, is in the file of the block, and depends on all that was
read for the values and on what the frame of the block passes on.
-/

namespace Provision

open Provision.Language (Node)

/-- Evaluates the block of an instance to the values that it gives and to what is read for them. -/
def argumentsOf (e : Evaluator) (frame : Frame) (source : List Node) :
    Step (Bindings × List Key) := do
  let (arguments, reads, _) ← Step.collecting (Step.inScope Scope.child
    (Step.body (runStatements e source { frame with inResource := false })))
  pure (arguments.values, reads)

/-- Expands a template with the values that a block gives. -/
def expandWith (e : Evaluator) (frame : Frame) (template : VirtualType) (name : String)
    (span : Span) (given : Bindings × List Key) : Step Unit :=
  match template.parameters.find? fun parameter => !Table.has given.1 parameter with
  | some parameter => Step.fail (.missingParameter span template.name parameter)
  | none =>
    match (Table.keys given.1).find? fun name => !template.parameters.contains name with
    | some unknown => Step.fail (.unknownParameter span template.name unknown)
    | none => do
      let _ ← Step.inScope (fun _ => Scope.withValues given.1)
        (e.expand template (frame.below name span given.2) span)
      pure ()

/-- Evaluates an instance with its block. -/
def runInstance (e : Evaluator) (frame : Frame) (template : VirtualType) (name : String)
    (span : Span) (source : List Node) : Step Unit :=
  instantiate e frame template name span
    (runStatements e source { frame with inResource := false })

theorem runInstance_eq (e : Evaluator) (frame : Frame) (template : VirtualType) (name : String)
    (span : Span) (source : List Node) :
    runInstance e frame template name span source =
      (argumentsOf e frame source >>= expandWith e frame template name span) := by
  unfold argumentsOf
  rw [bind_assoc]
  rfl

/-! ## Callers -/

namespace Step

variable {α β : Type} {p p' : Progress}

/-- From both the step ends alike, with the same inventory and the same declarations. -/
structure EndsAlike (step : Step α) (p p' : Progress) : Prop where
  outcome : (step.run p').1 = (step.run p).1
  inventory : (step.run p').2.inventory = (step.run p).2.inventory
  declared : (step.run p').2.declared = (step.run p).2.declared

theorem EndsAlike.bind {m : Step α} {f : α → Step β} (hm : m.EndsAlike p p')
    (hf : ∀ a q q', q'.inventory = q.inventory → q'.declared = q.declared →
      (f a).EndsAlike q q') :
    (m >>= f).EndsAlike p p' := by
  obtain ⟨houtcome, hinventory, hdeclared⟩ := hm
  cases hrun : m.run p with
  | mk outcome q =>
    cases hrun' : m.run p' with
    | mk outcome' q' =>
      rw [hrun, hrun'] at houtcome hinventory hdeclared
      cases houtcome
      rcases outcome with interrupt | a
      · constructor <;> rw [run_bind_error hrun, run_bind_error hrun']
        · exact hinventory
        · exact hdeclared
      · obtain ⟨houtcome, hinventory, hdeclared⟩ := hf a q q' hinventory hdeclared
        constructor <;> rw [run_bind_ok hrun, run_bind_ok hrun']
        · exact houtcome
        · exact hinventory
        · exact hdeclared

/-- In a scope of its own a blind step takes nothing from the scope around it. -/
theorem Blind.endsAlike_inScope {step : Step Unit} (h : step.Blind) (scope : Scope)
    (hinventory : p'.inventory = p.inventory) (hdeclared : p'.declared = p.declared) :
    (Step.inScope (fun _ => scope) step).EndsAlike p p' := by
  obtain ⟨houtcome, hafter⟩ := h { p with scope := scope } { p' with scope := scope }
    ⟨hinventory, hdeclared, rfl⟩
  constructor <;> rw [inScope_run, inScope_run]
  · dsimp only
    rw [houtcome, hafter.scope]
  · exact hafter.inventory
  · exact hafter.declared

end Step

theorem expandWith_endsAlike {e : Evaluator} (he : e.Blind) (frame : Frame) (template : VirtualType)
    (name : String) (span : Span) (given : Bindings × List Key) {p p' : Progress}
    (hinventory : p'.inventory = p.inventory) (hdeclared : p'.declared = p.declared) :
    (expandWith e frame template name span given).EndsAlike p p' := by
  unfold expandWith
  split
  · exact ⟨rfl, hinventory, hdeclared⟩
  · split
    · exact ⟨rfl, hinventory, hdeclared⟩
    · refine ((he _ _ _).endsAlike_inScope _ hinventory hdeclared).bind ?_
      exact fun _ q q' hinventory hdeclared => ⟨rfl, hinventory, hdeclared⟩

/-! ## What an instance registers -/

/-- The second inventory comes from the first by inserting resources of some kind into a file. -/
inductive Inventory.Receives (file : Nat) (kind : Resource → Prop) (before : Inventory) :
    Inventory → Prop
  | refl : Receives file kind before before
  | insert {after : Inventory} (h : Receives file kind before after) {resource : Resource}
      (hresource : kind resource) :
      Receives file kind before (after.insertAt file resource)

/-- The resource is named below the instance, and it depends on all of the keys but itself. -/
structure Resource.Belongs (resource : Resource) (name : String) (keys : List Key) : Prop where
  named : ∃ rest, resource.key.name = name ++ "/" ++ rest
  bears : resource.Bears keys

/-- The frame lies in the expansion of the instance with the name, whose resources are to depend on
the keys. -/
structure Frame.Beneath (frame : Frame) (file : Nat) (name : String) (keys : List Key) : Prop where
  file : frame.file = file
  named : ∀ text, ∃ rest, qualify frame.qualifier text = name ++ "/" ++ rest
  inherited : keys ⊆ frame.inherited

section Registering

variable {frame : Frame} {file : Nat} {name : String} {keys : List Key}

theorem Frame.beneath_below (frame : Frame) (name : String) (span : Span) (reads : List Key) :
    (frame.below name span reads).Beneath frame.file (qualify frame.qualifier name)
      (frame.inherited ++ reads) where
  file := rfl
  named text := ⟨text, rfl⟩
  inherited _ hkey := Sorted.mem_union.2 (List.mem_append.1 hkey)

/-- Instances inside an instance are beneath it, too. -/
theorem Frame.Beneath.below (h : frame.Beneath file name keys) (text : String) (span : Span)
    (reads : List Key) :
    (frame.below text span reads).Beneath file name keys where
  file := h.file
  named other := by
    obtain ⟨rest, hrest⟩ := h.named text
    refine ⟨rest ++ "/" ++ other, ?_⟩
    show qualify frame.qualifier text ++ "/" ++ other = _
    simp only [hrest, String.append_assoc]
  inherited _ hkey := Sorted.mem_union.2 (Or.inl (h.inherited hkey))

/-- What a block in such a frame makes belongs to the instance. -/
theorem Frame.Beneath.belongs (h : frame.Beneath file name keys) {setting : Setting}
    {registry : Registry} {resource : Resource} (hmade : frame.Makes setting registry resource) :
    resource.Belongs name keys := by
  obtain ⟨_, type, span, text, key, body, reads, made, declaration, -, hkey, hreads, hfinish,
    rfl⟩ := hmade
  have hbears : made.Bears keys := by
    refine bears_of_finishResource hfinish fun other hother => ?_
    rw [hreads]
    exact Sorted.mem_union.2 (Or.inr (h.inherited hother))
  refine ⟨?_, hbears⟩
  show ∃ rest, made.key.name = _
  rw [(identity_of_finishResource hfinish).1, eq_of_keyAt hkey]
  exact h.named text

/-- Only resources of some kind are inserted, and only into one file, however evaluation ends. -/
def Guarantee.receives (file : Nat) (kind : Resource → Prop) (before : Inventory) : Guarantee where
  holds := before.Receives file kind
  waits _ := True
  fails _ := True

theorem Guarantee.lawful_receives {kind : Resource → Prop} {before : Inventory} :
    (Guarantee.receives file kind before).Lawful :=
  ⟨fun _ _ => trivial, fun _ => trivial, fun _ => trivial, fun _ => trivial⟩

/-- However deep instances nest, the body of a template registers what belongs to its instance. -/
theorem expand_receives (setting : Setting) (depth : Nat) (template : VirtualType) (span : Span)
    (hframe : frame.Beneath file name keys) (before : Inventory) :
    ((Evaluator.atDepth setting depth).expand template frame span).Keeps
      (.receives file (Resource.Belongs · name keys) before) fun _ => True := by
  cases depth with
  | zero => exact Step.keeps_throw trivial
  | succ depth =>
    refine (Step.assembles_keeps Guarantee.lawful_receives).body fun step hstep => ?_
    rw [runStatements_eq_map] at hstep
    obtain ⟨node, -, rfl⟩ := List.mem_map.1 hstep
    refine runStatement_keeps_atDepth Guarantee.lawful_receives
      (fun frame => frame.Beneath file name keys) (fun _ _ h => ⟨h.file, h.named, h.inherited⟩)
      (fun _ _ h => ⟨h.file, h.named, h.inherited⟩)
      (fun _ text span reads h => h.below text span reads) ?_ (fun _ _ => trivial) depth node hframe
    intro frame inventory resource hframe hinventory _ _ hmade
    rw [hframe.file]
    exact hinventory.insert (hframe.belongs hmade)

theorem expandWith_receives (setting : Setting) (depth : Nat) (frame : Frame)
    (template : VirtualType) (name : String) (span : Span) (given : Bindings × List Key)
    (p : Progress) :
    p.inventory.Receives frame.file
      (Resource.Belongs · (qualify frame.qualifier name) (frame.inherited ++ given.2))
      ((expandWith (Evaluator.atDepth setting depth) frame template name span given).run
        p).2.inventory := by
  have hexpand := (expand_receives setting depth template span
    (frame.beneath_below name span given.2) p.inventory).inScope fun _ => Scope.withValues given.1
  have hdone : (pure () : Step Unit).Keeps (.receives frame.file
      (Resource.Belongs · (qualify frame.qualifier name) (frame.inherited ++ given.2)) p.inventory)
      fun _ => True := Step.keeps_pure trivial
  have hkeeps := hexpand.bind fun _ _ _ _ _ => hdone
  unfold expandWith
  split
  · exact .refl
  · split
    · exact .refl
    · exact (hkeeps p .refl).1

end Registering

/-- Instances are hygienic.  From wherever the block of an instance gives the same values and reads
the same, with the same inventory and the same declarations after it, the instance ends alike; and
once the block has given its values, the instance registers only what belongs to it: resources named
below it, in the file of the block, that depend on what was read and on what the frame inherits. -/
theorem instances_hygienic (setting : Setting) (depth : Nat) (frame : Frame)
    (template : VirtualType) (name : String) (span : Span) (source : List Node) :
    (∀ p p', (argumentsOf (.atDepth setting depth) frame source).EndsAlike p p' →
      (runInstance (.atDepth setting depth) frame template name span source).EndsAlike p p') ∧
    ∀ p given between,
      (argumentsOf (.atDepth setting depth) frame source).run p = (.ok given, between) →
        between.inventory.Receives frame.file
          (Resource.Belongs · (qualify frame.qualifier name) (frame.inherited ++ given.2))
          ((runInstance (.atDepth setting depth) frame template name span source).run
            p).2.inventory := by
  refine ⟨fun p p' harguments => ?_, fun p given between hgiven => ?_⟩
  · rw [runInstance_eq]
    exact harguments.bind fun given _ _ hinventory hdeclared =>
      expandWith_endsAlike (atDepth_blind setting depth) frame template name span given hinventory
        hdeclared
  · rw [runInstance_eq, run_bind_ok hgiven]
    exact expandWith_receives setting depth frame template name span given between

/-- The template of a box with a given path. -/
def innerTemplate : VirtualType :=
  ⟨⟨"m::inner", rfl⟩, ["at"],
    [boxBlock 3 (.text "b") [pairAt 4 "path" (variableAt 4 "at")]], lineStart 1⟩

/-- The template of an instance of the other one. -/
def outerTemplate : VirtualType :=
  ⟨⟨"m::outer", rfl⟩, ["at"],
    [.resource "m::inner" (.text "z") [pairAt 10 "at" (variableAt 10 "at")] (lineStart 9)],
    lineStart 7⟩

/-- The box `a` and the two templates, seen from where `c` is bound to a choice. -/
def choosing (choice : Bool) : Progress where
  inventory :=
    ⟨boxRegistry,
      [⟨⟨"main"⟩, [], [], [], [(boxKey "a",
        { key := boxKey "a", type := boxType, fields := [("path", .text "p")],
          origin := lineStart 13 })]⟩],
      [(innerTemplate.name, innerTemplate), (outerTemplate.name, outerTemplate)], []⟩
  declared := []
  scope := .withValues [("c", .bool choice)]
  reads := []
  credentials := none

/-- Configuration is evaluated, with nothing on record and nothing left to declare. -/
def boxSetting : Setting :=
  ⟨.configuration, none, []⟩

/-- A frame inside an instance `top` that passes on a dependency. -/
def topFrame : Frame where
  file := 0
  qualifier := some "top"
  inherited := [boxKey "r"]

/-- What the block of an instance comes to under a choice. -/
def blockUnder (choice : Bool) (frame : Frame) (source : List Node) :
    Except Interrupt (Bindings × List Key) × Progress :=
  (argumentsOf (.atDepth boxSetting 2) frame source).run (choosing choice)

/-- What an instance `x` of the outer template comes to under a choice. -/
def instanceUnder (choice : Bool) (frame : Frame) (source : List Node) :
    Except Interrupt Unit × Progress :=
  (runInstance (.atDepth boxSetting 2) frame outerTemplate "x" (lineStart 15) source).run
    (choosing choice)

/-- A block that gives the path of the box `a`. -/
def pathBlock : List Node :=
  [pairAt 16 "at" (boxField 16 "a" "path")]

/-- Whatever is chosen, the instance ends alike, and the box that is registered two instances
further down depends on the box that was read and on what is passed on. -/
theorem instances_hygienic_nested :
    (blockUnder true topFrame pathBlock).1 = .ok ([("at", .text "p")], [boxKey "a"]) ∧
    (instanceUnder true topFrame pathBlock).2.inventory.resources.map
      (fun resource => (resource.key, resource.dependsOn)) =
        [(boxKey "a", []), (boxKey "top/x/z/b", [boxKey "a", boxKey "r"])] ∧
    (instanceUnder false topFrame pathBlock).1 = (instanceUnder true topFrame pathBlock).1 ∧
    (blockUnder true topFrame pathBlock).2.inventory.Receives 0
      (Resource.Belongs · "top/x" [boxKey "r", boxKey "a"])
      (instanceUnder true topFrame pathBlock).2.inventory := by
  obtain ⟨hcallers, hregisters⟩ := instances_hygienic boxSetting 2 topFrame outerTemplate "x"
    (lineStart 15) pathBlock
  have halike : (argumentsOf (.atDepth boxSetting 2) topFrame pathBlock).EndsAlike (choosing true)
      (choosing false) :=
    ⟨by cbv, by cbv, by cbv⟩
  have hblock : (blockUnder true topFrame pathBlock).1 =
      .ok ([("at", .text "p")], [boxKey "a"]) := by
    cbv
  have hgiven : (argumentsOf (.atDepth boxSetting 2) topFrame pathBlock).run (choosing true) =
      (.ok ([("at", .text "p")], [boxKey "a"]), (blockUnder true topFrame pathBlock).2) := by
    rw [← hblock]
    rfl
  refine ⟨hblock, by decide +kernel, ?_, ?_⟩
  · unfold instanceUnder
    exact (hcallers _ _ halike).outcome
  · unfold instanceUnder
    exact hregisters _ _ _ hgiven

/-- An instance of the inner template in one of two places. -/
def eitherPlace : List Node :=
  [pairAt 16 "at" (.text "q"),
    .directive ⟨"if", [variableAt 17 "c"], [], false,
      [.resource "m::inner" (.text "x/z") [pairAt 19 "at" (.text "q")] (lineStart 18)],
      [⟨"else", [],
        [.resource "m::inner" (.text "x/z") [pairAt 23 "at" (.text "q")] (lineStart 22)],
        lineStart 21⟩],
      lineStart 17⟩]

/-- The same two values, none of them for a parameter, in one of two orders. -/
def eitherOrder : List Node :=
  [pairAt 16 "at" (.text "q"),
    .directive ⟨"if", [variableAt 17 "c"], [], false,
      [pairAt 18 "l" (.text "x"), pairAt 19 "m" (.text "x")],
      [⟨"else", [], [pairAt 21 "m" (.text "x"), pairAt 22 "l" (.text "x")], lineStart 20⟩],
      lineStart 17⟩]

/-- Two callers can be told apart although their blocks give the same values, read nothing and lead
to the same inventory.  When an instance declares a box once more that its block has declared, the
error tells where that was; and of two values that are for no parameter it tells of the first. -/
theorem callers_told_apart :
    (choosing true).inventory = (choosing false).inventory ∧
    ((blockUnder true { file := 0 } eitherPlace).1 = .ok ([("at", .text "q")], []) ∧
      (blockUnder false { file := 0 } eitherPlace).1 = .ok ([("at", .text "q")], []) ∧
      (blockUnder true { file := 0 } eitherPlace).2.inventory =
        (blockUnder false { file := 0 } eitherPlace).2.inventory ∧
      (instanceUnder true { file := 0 } eitherPlace).1 =
        .error (.failed (.duplicateResource (boxKey "x/z/b") (lineStart 18) (lineStart 15))) ∧
      (instanceUnder false { file := 0 } eitherPlace).1 =
        .error (.failed (.duplicateResource (boxKey "x/z/b") (lineStart 22) (lineStart 15)))) ∧
    (blockUnder true { file := 0 } eitherOrder).1 =
      .ok ([("at", .text "q"), ("l", .text "x"), ("m", .text "x")], []) ∧
    (blockUnder false { file := 0 } eitherOrder).1 =
      .ok ([("at", .text "q"), ("m", .text "x"), ("l", .text "x")], []) ∧
    (blockUnder true { file := 0 } eitherOrder).2.inventory =
      (blockUnder false { file := 0 } eitherOrder).2.inventory ∧
    (instanceUnder true { file := 0 } eitherOrder).1 =
      .error (.failed (.unknownParameter (lineStart 15) outerTemplate.name "l")) ∧
    (instanceUnder false { file := 0 } eitherOrder).1 =
      .error (.failed (.unknownParameter (lineStart 15) outerTemplate.name "m")) :=
  ⟨rfl, ⟨by cbv, by cbv, by cbv, by cbv, by cbv⟩, by cbv, by cbv, by cbv, by cbv, by cbv⟩

end Provision

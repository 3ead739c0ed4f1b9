import Provision.Evaluation.Statement
import Provision.Proofs.Language.Tree
import Provision.Proofs.Outcome

/-!
# Errors of expressions

An evaluation can fail in three ways: something in a statement is wrong, instances
are nested too deeply, or statements got stuck.  What evaluates a single value
fails in the first way only.  Expressions are put together from a few simple
recordings, so that a property which these have and which putting together keeps
is one of all expressions.
-/

namespace Provision

open Provision.Language (Node Entry Directive)

/-- The error tells of something wrong in a file, not of statements that got stuck. -/
def EvalError.IsCause : EvalError → Prop
  | .unresolvable _ _ => False
  | _ => True

/-- The error tells of something wrong in a single statement, neither of statements that got stuck
nor of instances that are nested too deeply. -/
def EvalError.IsLocal : EvalError → Prop
  | .unresolvable _ _ => False
  | .nestedInstances _ _ => False
  | _ => True

theorem EvalError.IsLocal.isCause {e : EvalError} (h : e.IsLocal) : e.IsCause := by
  cases e with
  | unresolvable => exact h.elim
  | nestedInstances => exact h.elim
  | _ => trivial

/-- When the outcome is an error, it is one of some kind. -/
def FailsAs {α : Type} (kind : EvalError → Prop) (outcome : Except EvalError α) : Prop :=
  ∀ e, outcome = .error e → kind e

section Outcomes

variable {α β : Type} {kind : EvalError → Prop}

theorem failsAs_ok (a : α) : FailsAs kind (.ok a) := by
  intro e h
  cases h

theorem failsAs_error {e : EvalError} (h : kind e) :
    FailsAs kind (.error e : Except EvalError α) := by
  rintro _ ⟨⟩
  exact h

theorem FailsAs.bind {x : Except EvalError α} {f : α → Except EvalError β} (hx : FailsAs kind x)
    (hf : ∀ a, FailsAs kind (f a)) :
    FailsAs kind (x >>= f) := by
  cases x with
  | ok a => exact hf a
  | error e => exact failsAs_error (hx e rfl)

theorem failsAs_typeAt (span : Span) (text : String) :
    FailsAs EvalError.IsLocal (typeAt span text) := by
  unfold typeAt
  split
  · exact failsAs_ok _
  · exact failsAs_error trivial

theorem failsAs_keyAt (span : Span) (type : TypeName) (name : String) :
    FailsAs EvalError.IsLocal (keyAt span type name) := by
  unfold keyAt
  split
  · exact failsAs_ok _
  · exact failsAs_error trivial

theorem failsAs_loopNames (d : Directive) (nodes : List Node) :
    FailsAs EvalError.IsLocal (loopNames d nodes) := by
  induction nodes with
  | nil => exact failsAs_ok _
  | cons node rest ih =>
    unfold loopNames
    split
    · exact failsAs_error trivial
    · exact ih.bind fun _ => failsAs_ok _

theorem failsAs_iterations (d : Directive) (count : Nat) (value : Value) :
    FailsAs EvalError.IsLocal (iterations d count value) := by
  unfold iterations
  split
  · exact failsAs_ok _
  · split
    · exact failsAs_error trivial
    · exact failsAs_ok _
  · exact failsAs_ok _
  · exact failsAs_error trivial

theorem failsAs_excludedNames (d : Directive) (value : Value) :
    FailsAs EvalError.IsLocal (excludedNames d value) := by
  unfold excludedNames
  split
  · split
    · exact failsAs_ok _
    · exact failsAs_error trivial
  · exact failsAs_ok _
  · exact failsAs_error trivial

theorem failsAs_extension (inventory : Inventory) (d : Directive) (value : Value) :
    FailsAs EvalError.IsLocal (extension inventory d value) := by
  unfold extension
  split
  · exact failsAs_ok _
  · exact failsAs_ok _
  · exact failsAs_error trivial

theorem failsAs_recordedKeys (origin : Span) (texts : List String) :
    FailsAs EvalError.IsLocal (recordedKeys origin texts) := by
  induction texts with
  | nil => exact failsAs_ok _
  | cons text rest ih =>
    unfold recordedKeys
    split
    · exact failsAs_error trivial
    · exact ih.bind fun _ => failsAs_ok _

theorem failsAs_checkFields (mode : Mode) (schema : Schema) (key : Key) (origin : Span)
    (fields : Bindings) :
    FailsAs EvalError.IsLocal (checkFields mode schema key origin fields) := by
  induction fields with
  | nil => exact failsAs_ok _
  | cons entry rest ih =>
    unfold checkFields
    split
    · exact failsAs_error trivial
    · split
      · exact failsAs_error trivial
      · exact ih

theorem failsAs_finishResource (setting : Setting) (key : Key) (type : ResourceType) (origin : Span)
    (body : EvaluatedBody) :
    FailsAs EvalError.IsLocal (finishResource setting key type origin body) := by
  unfold finishResource
  refine (failsAs_recordedKeys _ _).bind fun _ => (failsAs_checkFields _ _ _ _ _).bind fun _ => ?_
  dsimp only
  split
  · exact failsAs_error trivial
  · exact failsAs_ok _

end Outcomes

/-! ## Expressions -/

namespace Recording

/-- A property that the simple recordings under a view have and that one recording after another
keeps.  A resource is waited for only where the view does not have it. -/
structure Composes (view : View) (P : ∀ {α : Type}, Recording α → Prop) : Prop where
  pure : ∀ {α : Type} (a : α), P (pure a : Recording α)
  record : ∀ key, P (record key)
  failWith : ∀ {α : Type} (e : EvalError), e.IsLocal → P (failWith e : Recording α)
  waiting : ∀ {α : Type} (span : Span) (reason : DeferReason),
    (∀ key, reason = .resource key → view.inventory.has key = false) →
      P (throw (.waiting span reason) : Recording α)
  bind : ∀ {α β : Type} {m : Recording α} {f : α → Recording β},
    P m → (∀ a, P (f a)) → P (m >>= f)

namespace Composes

variable {view : View} {P : ∀ {α : Type}, Recording α → Prop} (h : Composes view P) (span : Span)

include h

theorem settled {α : Type} {outcome : Except EvalError α}
    (houtcome : FailsAs EvalError.IsLocal outcome) :
    P (settled outcome) := by
  cases outcome with
  | ok a => exact h.pure a
  | error e => exact h.failWith e (houtcome e rfl)

theorem missing {α : Type} {key : Key} (hkey : view.inventory.has key = false) :
    P (throw (.waiting span (.resource key)) : Recording α) :=
  h.waiting span _ fun other hother => by
    cases hother
    exact hkey

theorem follow (value : Value) (path : List String) : P (follow view span value path) := by
  induction path generalizing value with
  | nil => cases value <;> exact h.pure _
  | cons segment rest ih =>
    cases value with
    | resource key =>
      rw [Provision.follow]
      refine h.bind (h.record key) fun _ => ?_
      split
      · exact h.pure _
      · split
        · exact h.failWith _ trivial
        · exact ih _
    | _ => exact ih _

theorem project (path : List String) (key : Key) : P (project view span path key) :=
  h.bind (h.record key) fun _ => h.follow span _ path

theorem locate (type : TypeName) (name : String) : P (locate view span type name) := by
  unfold Provision.locate
  refine h.bind (h.settled (failsAs_keyAt _ _ _)) fun plain => ?_
  split
  · split
    · exact h.pure _
    · next hplain => exact h.missing _ (Bool.eq_false_iff.2 hplain)
  · dsimp only
    split
    · exact h.pure _
    · next hown =>
      split
      · exact h.pure _
      · exact h.missing _ (Bool.eq_false_iff.2 hown)

theorem mapM {α β : Type} {f : α → Recording β} (hf : ∀ a, P (f a)) (items : List α) :
    P (items.mapM f) := by
  induction items with
  | nil =>
    rw [List.mapM_nil]
    exact h.pure _
  | cons item rest ih =>
    rw [List.mapM_cons]
    exact h.bind (hf item) fun _ => h.bind ih fun _ => h.pure _

theorem query (type : TypeName) (front : String) (path : List String) :
    P (query view span type front path) := by
  unfold Provision.query
  split
  · exact h.waiting _ _ nofun
  · exact h.bind (h.mapM (h.project span path) _) fun _ => h.pure _

theorem nameOf (value : Value) : P (nameOf view value) := by
  unfold Provision.nameOf
  split
  · exact h.pure _
  · exact h.pure _
  · exact h.failWith _ trivial

theorem knownType (text : String) : P (knownType view span text) := by
  unfold Provision.knownType
  refine h.bind (h.settled (failsAs_typeAt _ _)) fun type => ?_
  split
  · exact h.pure _
  · exact h.failWith _ trivial

theorem namedValue (type : TypeName) (name : String) (path : List String) :
    P (namedValue view span type name path) := by
  unfold Provision.namedValue
  split
  · exact h.query span _ _ _
  · exact h.bind (h.locate span _ _) fun key => h.project span _ key

theorem operate (op : Language.Operator) (left right : Value) : P (operate view op left right) := by
  unfold Provision.operate
  split
  · exact h.pure _
  · exact h.failWith _ trivial

theorem evaluateAll {nodes : List Node} (hnodes : ∀ node ∈ nodes, P (evaluate view node)) :
    P (evaluateAll view nodes) := by
  induction nodes with
  | nil => exact h.pure _
  | cons node rest ih =>
    have hrest := ih fun n hn => hnodes n (List.mem_cons_of_mem _ hn)
    rw [Provision.evaluateAll]
    exact h.bind (hnodes node List.mem_cons_self) fun _ => h.bind hrest fun _ => h.pure _

theorem evaluateEntries {entries : List Entry}
    (hentries : ∀ entry ∈ entries, P (evaluate view entry.value)) :
    P (evaluateEntries view entries) := by
  induction entries with
  | nil => exact h.pure _
  | cons entry rest ih =>
    obtain ⟨key, node, place⟩ := entry
    have hrest := ih fun n hn => hentries n (List.mem_cons_of_mem _ hn)
    have hfirst : P (Provision.evaluate view node) := hentries ⟨key, node, place⟩ List.mem_cons_self
    rw [Provision.evaluateEntries]
    exact h.bind hfirst fun _ => h.bind hrest fun _ => h.pure _

/-- What composition keeps holds of every expression. -/
theorem evaluate (node : Node) : P (evaluate view node) := by
  induction node using Node.induction with
  | step node ih =>
    cases node with
    | interpolated parts =>
      rw [Provision.evaluate]
      exact h.bind (h.evaluateAll ih) fun _ => h.pure _
    | list items =>
      rw [Provision.evaluate]
      exact h.bind (h.evaluateAll ih) fun _ => h.pure _
    | map entries =>
      rw [Provision.evaluate]
      exact h.bind (h.evaluateEntries fun entry hentry => ih _ (List.mem_map_of_mem hentry))
        fun _ => h.pure _
    | var path place =>
      rw [Provision.evaluate]
      cases path with
      | nil => exact h.pure _
      | cons head rest =>
        rw [variableValue]
        split
        · exact h.waiting _ _ nofun
        · exact h.follow _ _ _
    | ref type name path place =>
      cases name with
      | none =>
        rw [Provision.evaluate]
        exact h.bind (h.knownType _ _) fun _ => h.query _ _ _ _
      | some name =>
        rw [Provision.evaluate]
        refine h.bind (h.knownType _ _) fun _ => h.bind (ih name List.mem_cons_self) fun _ => ?_
        exact h.bind (h.nameOf _) fun _ => h.namedValue _ _ _ _
    | binary op left right =>
      rw [Provision.evaluate]
      refine h.bind (ih left (by simp [Node.children])) fun a => ?_
      split
      · exact h.pure _
      · split
        · exact h.pure _
        · refine h.bind (ih right (by simp [Node.children])) fun b => ?_
          split
          · exact h.pure _
          · exact h.operate _ _ _
    | pair entry => exact h.failWith _ trivial
    | resource type name body place => exact h.failWith _ trivial
    | block key body place => exact h.failWith _ trivial
    | directive d => exact h.failWith _ trivial
    | _ => exact h.pure _

end Composes

/-- A failure of the recording tells of something wrong. -/
def Caused {α : Type} (m : Recording α) : Prop :=
  ∀ reads e after, m.run reads = (.error (.failed e), after) → e.IsCause

theorem composes_caused (view : View) : Composes view Caused where
  pure := by
    intro _ _ _ _ _ h
    cases h
  record := by
    intro _ _ _ _ h
    cases h
  failWith := by
    intro _ e hlocal _ _ _ h
    cases h
    exact hlocal.isCause
  waiting := by
    intro _ _ _ _ _ _ _ h
    cases h
  bind := by
    intro _ _ m f hm hf reads e after hrun
    rw [run_bind] at hrun
    split at hrun
    · exact hf _ _ _ _ hrun
    · next interrupt between hfirst =>
      cases hrun
      exact hm _ _ _ hfirst

end Recording

end Provision

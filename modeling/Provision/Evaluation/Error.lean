import Provision.Graph.Cycles
import Provision.Key
import Provision.Language.Node

/-!
# Evaluation errors

Why a statement waits for others, and why an evaluation fails.  Each error is a
cause; its wording is in `EvalError.message`.
-/

namespace Provision

/-- What a statement waits for. -/
inductive DeferReason where
  | resource (key : Key)
  | name (name : String)
  /-- Statements that may still declare resources of the type. -/
  | pendingType (type : TypeName)
deriving DecidableEq, Repr

/-- The wording of a reason. -/
def DeferReason.message : DeferReason → String
  | resource key => "resource `" ++ key.text ++ "` is not defined"
  | name n => "variable `" ++ n ++ "` is not defined"
  | pendingType type => "declarations of `" ++ type.text ++ "` are still pending"

/-- A reference that could not be resolved yet, and where it stands. -/
structure Deferral where
  span : Span
  reason : DeferReason
deriving DecidableEq, Repr

/-- A statement that could not be evaluated when evaluation settled. -/
structure StuckStatement where
  span : Span
  label : String
  /-- The key that the statement declares, when its name is literal. -/
  key : Option Key
  deferrals : List Deferral
deriving DecidableEq, Repr

/-- Why an evaluation fails. -/
inductive EvalError where
  | invalidIdentity (span : Span) (cause : NameError)
  | unknownType (span : Span) (type : TypeName)
  | invalidName (span : Span) (found : String)
  | unknownField (span : Span) (key : Key) (field : String)
  | missingField (span : Span) (key : Key) (field : String)
  | outputField (span : Span) (key : Key) (field : String)
  | duplicateResource (key : Key) (first second : Span)
  | missingParameter (span : Span) (type : TypeName) (parameter : String)
  | unknownParameter (span : Span) (type : TypeName) (parameter : String)
  | notIterable (span : Span) (found : String)
  | invalidOperands (span : Span) (op left right : String)
  | unexpectedNode (span : Span) (expected found : String)
  | misplacedBlock (span : Span) (key : String)
  | unknownDirective (span : Span) (name : String)
  | misplacedDirective (span : Span) (name context : String)
  | invalidDirective (span : Span) (name message : String)
  | unknownPlugin (span : Span) (space : String)
  | unresolvable (statements : List StuckStatement) (cycles : List (List Key))
  /-- Instances of templates are nested more deeply than the evaluation allows. -/
  | nestedInstances (span : Span) (type : TypeName)
deriving DecidableEq, Repr

/-- A key cycle, closed by its first key. -/
def cycleText : List Key → String
  | [] => ""
  | key :: rest => joinTexts " -> " ((key :: rest ++ [key]).map Key.text)

/-- The lines about one stuck statement. -/
def StuckStatement.lines (statement : StuckStatement) : String :=
  "\n  " ++ statement.span.text ++ ": " ++ statement.label ++
    String.join (statement.deferrals.map fun d => "\n    " ++ d.span.text ++ ": " ++ d.reason.message)

/-- The wording of an evaluation error. -/
def EvalError.message : EvalError → String
  | invalidIdentity span cause => span.text ++ ": " ++ cause.message
  | unknownType span type => span.text ++ ": unknown resource type `" ++ type.text ++ "`"
  | invalidName span found => span.text ++ ": resource name must be a string, got " ++ found
  | unknownField span key field =>
    span.text ++ ": `" ++ key.text ++ "` has no field `" ++ field ++ "`"
  | missingField span key field =>
    span.text ++ ": `" ++ key.text ++ "` is missing required field `" ++ field ++ "`"
  | outputField span key field =>
    span.text ++ ": field `" ++ field ++ "` of `" ++ key.text ++
      "` is computed by the provider and cannot be set"
  | duplicateResource key first second =>
    second.text ++ ": duplicate resource `" ++ key.text ++ "` (first defined at " ++ first.text ++ ")"
  | missingParameter span type parameter =>
    span.text ++ ": `" ++ type.text ++ "` requires parameter `" ++ parameter ++ "`"
  | unknownParameter span type parameter =>
    span.text ++ ": `" ++ type.text ++ "` has no parameter `" ++ parameter ++ "`"
  | notIterable span found => span.text ++ ": cannot iterate over a " ++ found
  | invalidOperands span op left right =>
    span.text ++ ": cannot apply `" ++ op ++ "` to " ++ left ++ " and " ++ right
  | unexpectedNode span expected found =>
    span.text ++ ": expected " ++ expected ++ ", found " ++ found
  | misplacedBlock span key => span.text ++ ": block `" ++ key ++ "` is only allowed inside a resource"
  | unknownDirective span name => span.text ++ ": unknown directive `@" ++ name ++ "`"
  | misplacedDirective span name context =>
    span.text ++ ": `@" ++ name ++ "` is not allowed " ++ context
  | invalidDirective span name message => span.text ++ ": `@" ++ name ++ "` " ++ message
  | unknownPlugin span space =>
    span.text ++ ": no provider is registered for plugin `" ++ space ++ "`"
  | unresolvable statements cycles =>
    "unable to resolve " ++ toString statements.length ++ " statement(s):" ++
      String.join (statements.map StuckStatement.lines) ++
      String.join (cycles.map fun cycle => "\n  dependency cycle: " ++ cycleText cycle)
  | nestedInstances span type =>
    span.text ++ ": instances of `" ++ type.text ++ "` are nested too deeply"

/-- Why an attempt to evaluate ended early: something is not known yet, or there is an error. -/
inductive Interrupt where
  | deferred (deferrals : List Deferral)
  | failed (error : EvalError)

/-- The interrupt of a single unresolved reference. -/
def Interrupt.waiting (span : Span) (reason : DeferReason) : Interrupt :=
  .deferred [⟨span, reason⟩]

/-- The deferrals in order, each once. -/
def dedupeDeferrals (deferrals : List Deferral) : List Deferral :=
  deferrals.foldl (fun unique d => if d ∈ unique then unique else unique ++ [d]) []

/-- The stuck statements that wait for each other's resources, as edges between their keys. -/
def waitingEdges (stuck : List StuckStatement) : Graph.Edges Key :=
  let declared := stuck.filterMap StuckStatement.key
  stuck.foldl (fun edges statement =>
    match statement.key with
    | none => edges
    | some key =>
      let targets := statement.deferrals.filterMap fun d =>
        match d.reason with
        | .resource target => if target ∈ declared then some target else none
        | _ => none
      Table.set edges key (Sorted.union ((Table.get? edges key).getD []) targets)) []

/-- The error of an evaluation that settled with stuck statements. -/
def EvalError.ofStuck (stuck : List StuckStatement) : EvalError :=
  .unresolvable stuck (Graph.cycles (waitingEdges stuck))

end Provision

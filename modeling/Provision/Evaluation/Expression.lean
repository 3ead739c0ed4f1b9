import Provision.Evaluation.Error
import Provision.Evaluation.Operator
import Provision.Inventory
import Provision.Scope

/-!
# Expressions

The value of an expression under a view of what is known so far.  Evaluation
only reads the view; besides its value it records the resources that were read,
also when it ends early.
-/

namespace Provision

open Provision.Language (Node Entry Operator)

/-- What an expression is evaluated under. -/
structure View where
  inventory : Inventory
  scope : Scope
  /-- The instance being expanded: its resources are named below it. -/
  qualifier : Option String
  /-- Types that other statements may still declare. -/
  undeclared : List TypeName
  /-- The statement that the expression stands in. -/
  location : Span

/-- A computation that may end early and records the resources it read. -/
abbrev Recording := ExceptT Interrupt (StateM (List Key))

/-- Records that a resource was read. -/
def record (key : Key) : Recording Unit :=
  modify (Sorted.insert key)

/-- Ends with an error. -/
def failWith {α : Type} (error : EvalError) : Recording α :=
  throw (.failed error)

/-- A type name as it stands in a file. -/
def typeAt (span : Span) (text : String) : Except EvalError TypeName :=
  match TypeName.ofText text with
  | .ok type => .ok type
  | .error cause => .error (.invalidIdentity span cause)

/-- A key as it stands in a file. -/
def keyAt (span : Span) (type : TypeName) (name : String) : Except EvalError Key :=
  match Key.make type name with
  | .ok key => .ok key
  | .error cause => .error (.invalidIdentity span cause)

/-- An outcome without deferrals as a recording. -/
def settled {α : Type} : Except EvalError α → Recording α
  | .ok a => pure a
  | .error e => failWith e

/-- A name inside an instance. -/
def qualify : Option String → String → String
  | some qualifier, name => qualifier ++ "/" ++ name
  | none, name => name

/-- The position that a path segment names in a list. -/
def position? (segment : String) : Option Nat :=
  let digits := segment.toList
  if digits.isEmpty || !digits.all Char.isDigit then none else some (Decimal.natOfDigits digits)

/-- Follows a path into a value.  A step that leads nowhere gives null; a step from a resource
goes to one of its fields and records the resource. -/
def follow (view : View) (span : Span) : Value → List String → Recording Value
  | value, [] => pure value
  | .map entries, segment :: rest =>
    follow view span ((Table.get? entries segment).getD .null) rest
  | .list items, segment :: rest =>
    follow view span (((position? segment).bind fun i => items[i]?).getD .null) rest
  | .resource key, segment :: rest => do
    record key
    match view.inventory.resource? key with
    | none => pure .null
    | some resource =>
      match resource.type.schema.field? segment with
      | none => failWith (.unknownField span key segment)
      | some _ => follow view span ((resource.field? segment).getD .null) rest
  | _, _ :: rest => follow view span .null rest

/-- The resource itself, or what a path leads to from it. -/
def project (view : View) (span : Span) (path : List String) (key : Key) : Recording Value := do
  record key
  follow view span (.resource key) path

/-- The resource that a name refers to; inside an instance its own resources come first. -/
def locate (view : View) (span : Span) (type : TypeName) (name : String) : Recording Key := do
  let plain ← settled (keyAt span type name)
  match view.qualifier with
  | none =>
    if view.inventory.has plain then pure plain
    else throw (.waiting span (.resource plain))
  | some qualifier =>
    let own : Key := ⟨type, qualify (some qualifier) name⟩
    if view.inventory.has own then pure own
    else if view.inventory.has plain then pure plain
    else throw (.waiting span (.resource own))

/-- The keys of the resources of a type whose names start with the given characters. -/
def selected (inventory : Inventory) (type : TypeName) (front : String) : List Key :=
  (inventory.resources.map Resource.key).filter fun key =>
    key.type = type && opensWith front key.name

/-- Every resource of a type, once nothing can declare more of them. -/
def query (view : View) (span : Span) (type : TypeName) (front : String) (path : List String) :
    Recording Value := do
  if type ∈ view.undeclared then throw (.waiting span (.pendingType type))
  else
    let values ← (selected view.inventory type front).mapM (project view span path)
    pure (.list values)

/-- The name that a value gives to a resource. -/
def nameOf (view : View) : Value → Recording String
  | .text name => pure name
  | .number x => pure (numberText x)
  | other => failWith (.invalidName view.location other.label)

/-- The word for a kind of node. -/
def nodeLabel : Node → String
  | .null | .bool _ | .number _ | .text _ => "a literal"
  | .interpolated _ => "a string"
  | .list _ => "a list"
  | .map _ => "a map"
  | .var _ _ | .ref _ _ _ _ => "a reference"
  | .binary _ _ _ => "an expression"
  | .pair _ => "a pair"
  | .resource _ _ _ _ => "a resource"
  | .block _ _ _ => "a block"
  | .directive _ => "a directive"

/-- The value of a variable, followed along a path. -/
def variableValue (view : View) (span : Span) : List String → Recording Value
  | [] => pure .null
  | head :: rest =>
    match view.scope.find head with
    | none => throw (.waiting span (.name head))
    | some value => follow view span value rest

/-- A type that a reference may name. -/
def knownType (view : View) (span : Span) (text : String) : Recording TypeName := do
  let type ← settled (typeAt span text)
  if (view.inventory.registry.type? type).isSome || (view.inventory.virtual? type).isSome then
    pure type
  else failWith (.unknownType span type)

/-- What a named reference stands for: one resource, or those whose names start so. -/
def namedValue (view : View) (span : Span) (type : TypeName) (name : String) (path : List String) :
    Recording Value :=
  match Text.dropEnding? ['*'] name.toList with
  | some front => query view span type (String.ofList front) path
  | none => do
    let key ← locate view span type name
    project view span path key

/-- The result of an operator, or the error that it has none. -/
def operate (view : View) (op : Operator) (left right : Value) : Recording Value :=
  match op.apply? left right with
  | some value => pure value
  | none => failWith (.invalidOperands view.location op.symbol left.label right.label)

mutual

/-- The value of an expression. -/
def evaluate (view : View) : Node → Recording Value
  | .null => pure .null
  | .bool b => pure (.bool b)
  | .number x => pure (.number x)
  | .text s => pure (.text s)
  | .interpolated parts => do
    let values ← evaluateAll view parts
    pure (.text (String.join (values.map Value.plainText)))
  | .list items => do
    let values ← evaluateAll view items
    pure (.list values)
  | .map entries => do
    let pairs ← evaluateEntries view entries
    pure (.map (Table.ofPairs pairs))
  | .var path span => variableValue view span path
  | .ref type none path span => do
    let type ← knownType view span type
    query view span type "" path
  | .ref type (some name) path span => do
    let type ← knownType view span type
    let value ← evaluate view name
    let name ← nameOf view value
    namedValue view span type name path
  | .binary op left right => do
    let a ← evaluate view left
    if op = .and && !a.isTruthy then pure (.bool false)
    else if op = .or && a.isTruthy then pure (.bool true)
    else do
      let b ← evaluate view right
      if op = .and || op = .or then pure (.bool b.isTruthy) else operate view op a b
  | .pair _ => failWith (.unexpectedNode view.location "a value" "a pair")
  | .resource _ _ _ _ => failWith (.unexpectedNode view.location "a value" "a resource")
  | .block _ _ _ => failWith (.unexpectedNode view.location "a value" "a block")
  | .directive _ => failWith (.unexpectedNode view.location "a value" "a directive")

/-- The values of expressions, one after another. -/
def evaluateAll (view : View) : List Node → Recording (List Value)
  | [] => pure []
  | node :: rest => do
    let value ← evaluate view node
    let values ← evaluateAll view rest
    pure (value :: values)

/-- The keys and values of map entries, one after another. -/
def evaluateEntries (view : View) : List Entry → Recording (List (String × Value))
  | [] => pure []
  | ⟨key, node, _⟩ :: rest => do
    let value ← evaluate view node
    let pairs ← evaluateEntries view rest
    pure ((key, value) :: pairs)

end

end Provision

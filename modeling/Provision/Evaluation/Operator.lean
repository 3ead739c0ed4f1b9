import Provision.Language.Node
import Provision.Value

/-!
# Operators on values

What the binary operators make of two values.  Arithmetic that leaves the
finite numbers, and operands of the wrong kind, have no result.
-/

namespace Provision

/-- A finite number as a value. -/
def Value.finite? (x : Float) : Option Value :=
  if x.isFinite then some (.number x) else none

/-- The order of two numbers or two texts; a number that is not one has no order. -/
def Value.compare? : Value → Value → Option Ordering
  | .number x, .number y =>
    if x < y then some .lt else if x > y then some .gt else if x == y then some .eq else none
  | .text s, .text t => some (if s < t then .lt else if s = t then .eq else .gt)
  | _, _ => none

/-- Whether a value can be appended to a text. -/
def Value.isScalar : Value → Bool
  | .bool _ | .number _ | .text _ => true
  | _ => false

/-- Sums of numbers, concatenations of lists and of texts with scalars. -/
def Value.add? : Value → Value → Option Value
  | .number x, .number y => Value.finite? (x + y)
  | .list xs, .list ys => some (.list (xs ++ ys))
  | .text s, right => if right.isScalar then some (.text (s ++ right.plainText)) else none
  | left, .text t => if left.isScalar then some (.text (left.plainText ++ t)) else none
  | _, _ => none

/-- The result of an operator on two evaluated operands. -/
def Language.Operator.apply? (op : Language.Operator) (left right : Value) : Option Value :=
  match op with
  | .eq => some (.bool (left.same right))
  | .ne => some (.bool (!left.same right))
  | .lt => (left.compare? right).map fun o => .bool (o == .lt)
  | .le => (left.compare? right).map fun o => .bool (o != .gt)
  | .gt => (left.compare? right).map fun o => .bool (o == .gt)
  | .ge => (left.compare? right).map fun o => .bool (o != .lt)
  | .add => left.add? right
  | .sub =>
    match left, right with
    | .number x, .number y => Value.finite? (x - y)
    | _, _ => none
  | .mul =>
    match left, right with
    | .number x, .number y => Value.finite? (x * y)
    | _, _ => none
  | .div =>
    match left, right with
    | .number x, .number y => if y == 0.0 then none else Value.finite? (x / y)
    | _, _ => none
  | .and => some (.bool (left.isTruthy && right.isTruthy))
  | .or => some (.bool (left.isTruthy || right.isTruthy))

end Provision

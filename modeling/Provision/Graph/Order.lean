import Provision.Sorted
import Provision.Text

/-!
# Execution order

Orders the nodes of a dependency graph so that each comes after those it
depends on, the earliest listed first among those that are ready.  The nodes
that no order can hold are the ones on a cycle or behind one.
-/

namespace Provision.Graph

/-- A node and the keys of the nodes it depends on. -/
structure Vertex (κ : Type) where
  key : κ
  needs : List κ

variable {κ : Type} [DecidableEq κ]

/-- Whether a vertex waits for the vertex `other`: dependencies on itself do not count. -/
def Vertex.waitsFor (v other : Vertex κ) : Bool :=
  v.key ≠ other.key && v.needs.contains other.key

/-- Whether a vertex waits for none of the vertices that are left. -/
def isReady (left : List (Nat × Vertex κ)) (v : Vertex κ) : Bool :=
  left.all fun other => !v.waitsFor other.2

/-- Takes the first ready vertex of those that are left, again and again.  Answers the positions
taken and the vertices that never became ready. -/
def drain : Nat → List (Nat × Vertex κ) → List Nat × List (Nat × Vertex κ)
  | 0, left => ([], left)
  | n + 1, left =>
    match left.find? fun entry => isReady left entry.2 with
    | none => ([], left)
    | some entry =>
      let (order, stuck) := drain n (left.filter fun other => other.1 ≠ entry.1)
      (entry.1 :: order, stuck)

/-- The vertices with their positions in the list. -/
def numbered (vertices : List (Vertex κ)) : List (Nat × Vertex κ) :=
  vertices.zipIdx.map fun p => (p.2, p.1)

/-- Why there is no order. -/
inductive OrderError (κ : Type) where
  | duplicateKey
  /-- The keys, in increasing order, that lie on a cycle or depend on one. -/
  | cycle (stuck : List κ)

/-- The wording of an ordering error, given the text of a key. -/
def OrderError.message (text : κ → String) : OrderError κ → String
  | duplicateKey => "internal graph error: duplicate node key"
  | cycle stuck => "dependency cycle detected among: " ++ joinTexts " -> " (stuck.map text)

/-- The positions of the vertices in execution order.  Dependencies on keys that are not listed
are ignored. -/
def order [Ranked κ] (vertices : List (Vertex κ)) : Except (OrderError κ) (List Nat) :=
  if ¬ (vertices.map Vertex.key).Nodup then .error .duplicateKey
  else
    match drain vertices.length (numbered vertices) with
    | (positions, []) => .ok positions
    | (_, stuck) => .error (.cycle (Sorted.ofList (stuck.map fun entry => entry.2.key)))

end Provision.Graph

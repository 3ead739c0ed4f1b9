import Provision.Sorted
import Provision.Table

/-!
# Cycles

Finds cycles of a graph by depth-first search.  Each is reported once, starting
at its smallest node.  A node whose search has ended is not entered again, so a
graph with cycles always reports one, though not necessarily every one.
-/

namespace Provision.Graph

variable {κ : Type} [Ranked κ] [DecidableEq κ]

/-- The targets of the edges that leave each node. -/
abbrev Edges (κ : Type) := Table κ (List κ)

/-- What a search has learnt. -/
structure Search (κ : Type) where
  finished : List κ
  cycles : List (List κ)

/-- The smallest of some nodes. -/
def smallest (first : κ) : List κ → κ
  | [] => first
  | k :: rest => smallest (if Ranked.before k first then k else first) rest

/-- A cycle turned so that it starts at its smallest node. -/
def rotate : List κ → List κ
  | [] => []
  | k :: rest =>
    let least := smallest k rest
    let cycle := k :: rest
    cycle.dropWhile (· ≠ least) ++ cycle.takeWhile (· ≠ least)

/-- Visits `node` below the nodes of `path`, which lists the way here from the start. -/
def visit (edges : Edges κ) : Nat → List κ → κ → Search κ → Search κ
  | 0, _, _, search => search
  | n + 1, path, node, search =>
    if node ∈ search.finished then search
    else if node ∈ path then
      { search with cycles := Sorted.insert (rotate (path.dropWhile (· ≠ node))) search.cycles }
    else
      let targets := Sorted.ofList ((edges.get? node).getD [])
      let search := targets.foldl (fun s target => visit edges n (path ++ [node]) target s) search
      { search with finished := node :: search.finished }

/-- A bound on the length of paths without repetition, with room for one step more. -/
def pathBound (edges : Edges κ) : Nat :=
  edges.foldl (fun bound entry => bound + entry.2.length) edges.length + 2

/-- The cycles found, in increasing order. -/
def cycles (edges : Edges κ) : List (List κ) :=
  let starts := Sorted.ofList edges.keys
  (starts.foldl (fun s start => visit edges (pathBound edges) [] start s) ⟨[], []⟩).cycles

end Provision.Graph

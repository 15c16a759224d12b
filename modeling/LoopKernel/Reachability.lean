/-!
# What can be reached

The nodes of a finite directed graph that can be reached from some of its nodes, found by
depth-first search. Every node is visited once, so each step leaves one node fewer to visit.
-/

namespace LoopKernel.Reachability

variable {α : Type} [BEq α]

/-- Visit the pending nodes and what they lead to, without leaving the unvisited nodes, in at most
so many steps. -/
def visit (next : α → List α) : (steps : Nat) → (unvisited pending : List α) → List α
  | 0, _, _ => []
  | steps + 1, unvisited, pending =>
    match pending.dropWhile fun a => !unvisited.contains a with
    | [] => []
    | a :: rest => a :: visit next steps (unvisited.erase a) (next a ++ rest)

/-- The nodes that can be reached from the given ones, themselves included. -/
def reachable (nodes : List α) (next : α → List α) (start : List α) : List α :=
  visit next nodes.length nodes start

end LoopKernel.Reachability

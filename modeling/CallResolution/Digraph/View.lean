import CallResolution.Digraph.Basic
import CallResolution.Search.Breadth
import CallResolution.Search.Paths

/-!
What a search needs of a graph: how many nodes there are and which nodes follow and
precede each of them. Reversing a view swaps the two directions.
-/

namespace CallResolution

structure GraphView where
  nodeCount : Nat
  successors : NodeId → List NodeId
  predecessors : NodeId → List NodeId

def Digraph.view {α β : Type} (graph : Digraph α β) : GraphView :=
  ⟨graph.nodeCount, graph.successors, graph.predecessors⟩

namespace GraphView

def reverse (view : GraphView) : GraphView :=
  ⟨view.nodeCount, view.predecessors, view.successors⟩

def nodeIds (view : GraphView) : List NodeId :=
  Handle.upTo .nodes view.nodeCount

def bfs (view : GraphView) (start : NodeId) : List NodeId :=
  if start.index < view.nodeCount then
    Search.breadthFirst view.successors [start] (Search.without view.nodeIds [start])
  else []

def bfsWithin (view : GraphView) (start : NodeId) (depth : Nat) : List NodeId :=
  if start.index < view.nodeCount then
    start :: Search.layers view.successors depth [start] (Search.without view.nodeIds [start])
  else []

/-- The paths from `start` without a repeated node that have `hops` steps, or fewer and
end at a node without successors. -/
def simplePaths (view : GraphView) (start : NodeId) (hops : Nat) : List (List NodeId) :=
  if start.index < view.nodeCount then
    Search.simplePaths view.successors hops [] start
  else []

end GraphView

end CallResolution

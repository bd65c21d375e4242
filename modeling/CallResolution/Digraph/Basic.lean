import CallResolution.Handle

/-!
Directed graphs with data on nodes and edges. Nodes and edges are numbered in the order
they are added and are never removed. Parallel edges and self loops are allowed.
-/

namespace CallResolution

structure Edge (β : Type) where
  source : NodeId
  target : NodeId
  data : β
  deriving DecidableEq, Repr

/-- Beside nodes and edges the graph keeps, for every node, the edges that leave it and
the edges that enter it, both in the order they were added. -/
structure Digraph (α β : Type) where
  nodes : Array α
  edges : Array (Edge β)
  outgoing : Array (List EdgeId)
  incoming : Array (List EdgeId)
  deriving DecidableEq, Repr

inductive GraphError where
  | noSource (node : NodeId) (nodeCount : Nat)
  | noTarget (node : NodeId) (nodeCount : Nat)
  | noEdge (edge : EdgeId)
  deriving DecidableEq, Repr

namespace GraphError

def message : GraphError → String
  | .noSource node nodeCount => "source" ++ missing node nodeCount
  | .noTarget node nodeCount => "target" ++ missing node nodeCount
  | .noEdge edge => "Missing edge " ++ edge.label
where
  missing (node : NodeId) (nodeCount : Nat) : String :=
    " node " ++ node.label ++ " does not exist in graph with " ++ toString nodeCount ++ " nodes"

end GraphError

namespace Digraph

variable {α β : Type}

def empty : Digraph α β := ⟨#[], #[], #[], #[]⟩

def nodeCount (graph : Digraph α β) : Nat :=
  graph.nodes.size

def edgeCount (graph : Digraph α β) : Nat :=
  graph.edges.size

def isEmpty (graph : Digraph α β) : Bool :=
  graph.nodes.isEmpty

def containsNode (graph : Digraph α β) (node : NodeId) : Bool :=
  decide (node.index < graph.nodeCount)

def nodeIds (graph : Digraph α β) : List NodeId :=
  Handle.upTo .nodes graph.nodeCount

def edgeIds (graph : Digraph α β) : List EdgeId :=
  Handle.upTo .edges graph.edgeCount

def node? (graph : Digraph α β) (node : NodeId) : Option α :=
  graph.nodes[node.index]?

def edge? (graph : Digraph α β) (edge : EdgeId) : Option (Edge β) :=
  graph.edges[edge.index]?

def addNode (graph : Digraph α β) (data : α) : Digraph α β × NodeId :=
  ({ graph with
      nodes := graph.nodes.push data
      outgoing := graph.outgoing.push []
      incoming := graph.incoming.push [] },
    ⟨graph.nodeCount⟩)

/-- Adds an edge between two nodes of the graph; the source is looked at first. -/
def addEdge (graph : Digraph α β) (source target : NodeId) (data : β) :
    Except GraphError (Digraph α β × EdgeId) :=
  if !graph.containsNode source then .error (.noSource source graph.nodeCount)
  else if !graph.containsNode target then .error (.noTarget target graph.nodeCount)
  else
    let id : EdgeId := ⟨graph.edgeCount⟩
    .ok
      ({ graph with
          edges := graph.edges.push ⟨source, target, data⟩
          outgoing := graph.outgoing.modify source.index (· ++ [id])
          incoming := graph.incoming.modify target.index (· ++ [id]) },
        id)

def modifyNode? (graph : Digraph α β) (node : NodeId) (change : α → α) :
    Option (Digraph α β) :=
  if node.index < graph.nodes.size then
    some { graph with nodes := graph.nodes.modify node.index change }
  else none

def modifyEdge? (graph : Digraph α β) (edge : EdgeId) (change : β → β) :
    Option (Digraph α β) :=
  if edge.index < graph.edges.size then
    some { graph with
      edges := graph.edges.modify edge.index fun entry => { entry with data := change entry.data } }
  else none

def outgoingIds (graph : Digraph α β) (node : NodeId) : List EdgeId :=
  (graph.outgoing[node.index]?).getD []

def incomingIds (graph : Digraph α β) (node : NodeId) : List EdgeId :=
  (graph.incoming[node.index]?).getD []

def outgoingEdges (graph : Digraph α β) (node : NodeId) : List (EdgeId × Edge β) :=
  (graph.outgoingIds node).filterMap fun id => (graph.edge? id).map fun edge => (id, edge)

/-- Targets of the outgoing edges, one for each edge. -/
def successors (graph : Digraph α β) (node : NodeId) : List NodeId :=
  (graph.outgoingIds node).filterMap fun id => (graph.edge? id).map Edge.target

def predecessors (graph : Digraph α β) (node : NodeId) : List NodeId :=
  (graph.incomingIds node).filterMap fun id => (graph.edge? id).map Edge.source

def outDegree (graph : Digraph α β) (node : NodeId) : Nat :=
  (graph.outgoingIds node).length

def inDegree (graph : Digraph α β) (node : NodeId) : Nat :=
  (graph.incomingIds node).length

def findEdge? (graph : Digraph α β) (source target : NodeId) : Option EdgeId :=
  (graph.outgoingIds source).find? fun id =>
    (graph.edge? id).any fun edge => edge.target == target

def entryNodes (graph : Digraph α β) : List NodeId :=
  graph.nodeIds.filter fun node => (graph.incomingIds node).isEmpty

def exitNodes (graph : Digraph α β) : List NodeId :=
  graph.nodeIds.filter fun node => (graph.outgoingIds node).isEmpty

def nodeEntries (graph : Digraph α β) : List (NodeId × α) :=
  graph.nodeIds.filterMap fun id => (graph.node? id).map fun data => (id, data)

def edgeEntries (graph : Digraph α β) : List (EdgeId × Edge β) :=
  graph.edgeIds.filterMap fun id => (graph.edge? id).map fun edge => (id, edge)

end Digraph

end CallResolution

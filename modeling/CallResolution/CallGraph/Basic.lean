import CallResolution.Digraph.Basic
import CallResolution.Invocation

/-!
Call graphs: methods as nodes, one edge for each pair of caller and callee, and on the
edge every call site that leads from one to the other.
-/

namespace CallResolution

/-- How a call graph is built. Blocks may be resolved in any order when `parallel` is
set; the graph does not show it. Chains of callers are only given with `indexCallers`. -/
structure BuildOptions where
  parallel : Bool
  indexCallers : Bool
  deriving DecidableEq, Repr

namespace BuildOptions

def standard : BuildOptions := ⟨true, true⟩

def sequential : BuildOptions := ⟨false, true⟩

def minimal : BuildOptions := ⟨false, false⟩

end BuildOptions

inductive CallTarget where
  | external
  /-- The class has no such method. -/
  | missing
  | resolved (methods : List MethodId)
  /-- No receiver answers, so the method the call names stands for its target. -/
  | unresolved (method : MethodId)
  deriving DecidableEq, Repr

namespace CallTarget

def targets : CallTarget → List MethodId
  | .external => []
  | .missing => []
  | .resolved methods => methods
  | .unresolved method => [method]

def isResolved : CallTarget → Bool
  | .resolved _ => true
  | _ => false

def isPolymorphic : CallTarget → Bool
  | .resolved methods => decide (1 < methods.length)
  | _ => false

end CallTarget

structure CallSite where
  caller : MethodId
  block : BlockId
  statement : Nat
  invocation : Invocation
  deriving DecidableEq, Repr

structure Counters where
  invocations : Nat
  resolved : Nat
  polymorphic : Nat
  unresolved : Nat
  external : Nat
  missing : Nat
  deriving DecidableEq, Repr

namespace Counters

def zero : Counters := ⟨0, 0, 0, 0, 0, 0⟩

def count (counters : Counters) (target : CallTarget) : Counters :=
  let counted := { counters with invocations := counters.invocations + 1 }
  match target with
  | .external => { counted with external := counted.external + 1 }
  | .missing => { counted with missing := counted.missing + 1 }
  | .unresolved _ => { counted with unresolved := counted.unresolved + 1 }
  | .resolved _ =>
    { counted with
      resolved := counted.resolved + 1
      polymorphic := counted.polymorphic + if target.isPolymorphic then 1 else 0 }

end Counters

structure CallGraph where
  graph : Digraph MethodId (List CallSite)
  nodeIndex : List (MethodId × NodeId)
  options : BuildOptions
  counters : Counters
  deriving DecidableEq, Repr

namespace CallGraph

def empty (options : BuildOptions) : CallGraph := ⟨.empty, [], options, .zero⟩

def methods (callGraph : CallGraph) : List MethodId :=
  callGraph.graph.nodes.toList

def methodCount (callGraph : CallGraph) : Nat :=
  callGraph.graph.nodeCount

def edgeCount (callGraph : CallGraph) : Nat :=
  callGraph.graph.edgeCount

def nodeOf? (callGraph : CallGraph) (method : MethodId) : Option NodeId :=
  callGraph.nodeIndex.lookup method

def methodsAt (callGraph : CallGraph) (nodes : List NodeId) : List MethodId :=
  nodes.filterMap callGraph.graph.node?

end CallGraph

end CallResolution

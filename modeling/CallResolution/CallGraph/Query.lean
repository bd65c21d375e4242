import CallResolution.CallGraph.Basic
import CallResolution.Digraph.View

/-!
Questions about a call graph: who calls whom, through which sites, and along which
chains. A method outside the graph has no callers and no callees.
-/

namespace CallResolution.CallGraph

def contains (callGraph : CallGraph) (method : MethodId) : Bool :=
  (callGraph.nodeOf? method).isSome

def callSites (callGraph : CallGraph) (caller callee : MethodId) : List CallSite :=
  match callGraph.nodeOf? caller, callGraph.nodeOf? callee with
  | some source, some target =>
    match (callGraph.graph.findEdge? source target).bind callGraph.graph.edge? with
    | some edge => edge.data
    | none => []
  | _, _ => []

def callees (callGraph : CallGraph) (method : MethodId) : List MethodId :=
  match callGraph.nodeOf? method with
  | some node => callGraph.methodsAt (callGraph.graph.successors node)
  | none => []

def callers (callGraph : CallGraph) (method : MethodId) : List MethodId :=
  match callGraph.nodeOf? method with
  | some node => callGraph.methodsAt (callGraph.graph.predecessors node)
  | none => []

/-- The methods that call `method` through at most `depth` calls, itself first. -/
def callersWithin (callGraph : CallGraph) (method : MethodId) (depth : Nat) : List MethodId :=
  match callGraph.nodeOf? method with
  | some node => callGraph.methodsAt (callGraph.graph.view.reverse.bfsWithin node depth)
  | none => []

/-- Chains of callers from `method` on, each with `depth` calls or as long as there are
callers. A method that nobody calls has none. -/
def callerChains (callGraph : CallGraph) (method : MethodId) (depth : Nat) :
    List (List MethodId) :=
  if callGraph.options.indexCallers then
    match callGraph.nodeOf? method with
    | some node =>
      if callGraph.graph.inDegree node = 0 then []
      else (callGraph.graph.view.reverse.simplePaths node depth).map callGraph.methodsAt
    | none => []
  else []

def reachableFrom (callGraph : CallGraph) (method : MethodId) : List MethodId :=
  match callGraph.nodeOf? method with
  | some node => callGraph.methodsAt (callGraph.graph.view.bfs node)
  | none => []

def entryPoints (callGraph : CallGraph) : List MethodId :=
  callGraph.methodsAt callGraph.graph.entryNodes

def leafMethods (callGraph : CallGraph) : List MethodId :=
  callGraph.methodsAt callGraph.graph.exitNodes

end CallResolution.CallGraph

import CallResolution.CallGraph.Basic
import CallResolution.Dot
import CallResolution.Program.Basic

/-!
Drawing a call graph. Methods that nobody calls are green, those that call nobody blue,
and an edge with several call sites shows their number.
-/

namespace CallResolution.CallGraph

/-- A method as it is written in the program, or its handle if the program lacks it. -/
def methodLabel (program : Program) (method : MethodId) : String :=
  match program.method? method with
  | some entry => entry.render
  | none => method.label

def nodeFill (callGraph : CallGraph) (node : NodeId) : Option String :=
  if callGraph.graph.inDegree node = 0 then some "lightgreen"
  else if callGraph.graph.outDegree node = 0 then some "lightblue"
  else none

def drawNode (callGraph : CallGraph) (program : Program) (entry : NodeId × MethodId) : Dot.Node :=
  ⟨entry.1, methodLabel program entry.2, callGraph.nodeFill entry.1⟩

def drawEdge (edge : Edge (List CallSite)) : Dot.Edge :=
  ⟨edge.source, edge.target,
    if 1 < edge.data.length then some (toString edge.data.length) else none⟩

/-- Nodes in node order; edges by their source, then in the order they were added. -/
def drawing (callGraph : CallGraph) (program : Program) (title : Option String) : Dot.Graph where
  name := "CallGraph"
  title := title
  nodes := callGraph.graph.nodeEntries.map (callGraph.drawNode program)
  edges := callGraph.graph.nodeIds.flatMap fun node =>
    (callGraph.graph.outgoingEdges node).map fun entry => drawEdge entry.2

end CallResolution.CallGraph

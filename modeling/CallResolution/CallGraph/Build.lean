import CallResolution.CallGraph.Basic
import CallResolution.Dispatch
import CallResolution.Event

/-!
Building a call graph. First every block's calls are resolved, each on its own. Then the
results are merged in block order, so the graph does not depend on the order in which
they were found.
-/

namespace CallResolution

structure ResolvedCall where
  statement : Nat
  invocation : Invocation
  target : CallTarget
  warning : Option Event
  deriving DecidableEq, Repr

structure BlockCalls where
  caller : MethodId
  block : BlockId
  calls : List ResolvedCall
  deriving DecidableEq, Repr

inductive BuildError where
  | query (error : QueryError)
  | graph (error : GraphError)
  deriving DecidableEq, Repr

def BuildError.message : BuildError → String
  | .query error => error.message
  | .graph error => error.message

namespace Hierarchy

/-- Resolves a call found inside `caller`. A failed dispatch and one without receivers
fall back on the method that the call names. -/
def resolveCall (hierarchy : Hierarchy) (caller : MethodId) (invocation : Invocation) :
    Query (CallTarget × Option Event) :=
  if (hierarchy.program.classId? invocation.className).isNone then
    pure (.external, none)
  else
    match hierarchy.program.findMethod? invocation.className invocation.signature with
    | none => pure (.missing, some (.missingMethod invocation))
    | some callee => do
      let answer ← Query.observe (hierarchy.targets invocation.kind callee caller)
      match answer with
      | .ok [] => pure (.unresolved callee, some (.noReceiver invocation))
      | .ok targets => pure (.resolved targets, none)
      | .error error =>
        if error.isRecoverable then pure (.unresolved callee, some (.dispatchFailed error))
        else throw error

def resolveBlock (hierarchy : Hierarchy) (id : BlockId) (block : BlockEntry) :
    Query BlockCalls := do
  let calls ← (Statement.invocations block.statements).mapM fun entry => do
    let outcome ← hierarchy.resolveCall block.method entry.2
    pure ⟨entry.1, entry.2, outcome.1, outcome.2⟩
  pure ⟨block.method, id, calls⟩

def resolveBlocks (hierarchy : Hierarchy) (blocks : List (BlockId × BlockEntry)) :
    Query (List BlockCalls) :=
  blocks.mapM fun entry => hierarchy.resolveBlock entry.1 entry.2

end Hierarchy

namespace Program

def blockEntries (program : Program) : List (BlockId × BlockEntry) :=
  program.blockIds.filterMap fun id => (program.block? id).map fun block => (id, block)

end Program

namespace CallGraph

def intern (callGraph : CallGraph) (method : MethodId) : CallGraph × NodeId :=
  match callGraph.nodeOf? method with
  | some node => (callGraph, node)
  | none =>
    let (graph, node) := callGraph.graph.addNode method
    ({ callGraph with graph := graph, nodeIndex := (method, node) :: callGraph.nodeIndex }, node)

/-- A call graph while results are merged into it, with the edge of each pair of nodes that
has one. -/
structure Draft where
  callGraph : CallGraph
  edgeIndex : List ((NodeId × NodeId) × EdgeId)

namespace Draft

def intern (draft : Draft) (method : MethodId) : Draft × NodeId :=
  let (extended, node) := draft.callGraph.intern method
  ({ draft with callGraph := extended }, node)

def count (draft : Draft) (target : CallTarget) : Draft :=
  { draft with
    callGraph := { draft.callGraph with counters := draft.callGraph.counters.count target } }

def addSite (draft : Draft) (source target : NodeId) (site : CallSite) :
    Except GraphError Draft :=
  match draft.edgeIndex.lookup (source, target) with
  | some edge =>
    match draft.callGraph.graph.modifyEdge? edge (· ++ [site]) with
    | some graph => .ok { draft with callGraph := { draft.callGraph with graph := graph } }
    | none => .error (.noEdge edge)
  | none => do
    let (graph, edge) ← draft.callGraph.graph.addEdge source target [site]
    .ok
      { callGraph := { draft.callGraph with graph := graph }
        edgeIndex := ((source, target), edge) :: draft.edgeIndex }

def addTarget (source : NodeId) (site : CallSite) (draft : Draft) (target : MethodId) :
    Except GraphError Draft :=
  let (extended, node) := draft.intern target
  extended.addSite source node site

def addCall (caller : MethodId) (block : BlockId) (source : NodeId) (draft : Draft)
    (call : ResolvedCall) : Except GraphError Draft :=
  let site : CallSite := ⟨caller, block, call.statement, call.invocation⟩
  call.target.targets.foldlM (addTarget source site) (draft.count call.target)

/-- Adds a block's calls. Its method becomes a node even if it calls nothing. -/
def addBlock (draft : Draft) (block : BlockCalls) : Except GraphError Draft :=
  let (extended, source) := draft.intern block.caller
  block.calls.foldlM (addCall block.caller block.block source) extended

end Draft

def merge (options : BuildOptions) (blocks : List BlockCalls) : Except GraphError CallGraph := do
  let draft ← blocks.foldlM Draft.addBlock ⟨empty options, []⟩
  .ok draft.callGraph

def inBlockOrder (program : Program) (blocks : List BlockCalls) : List BlockCalls :=
  program.blockIds.filterMap fun id => blocks.find? fun calls => calls.block == id

def warnings (blocks : List BlockCalls) : List Event :=
  blocks.flatMap fun block => block.calls.filterMap ResolvedCall.warning

def builtEvent (callGraph : CallGraph) : Event :=
  .callGraphBuilt callGraph.methodCount callGraph.edgeCount callGraph.counters.invocations
    callGraph.counters.unresolved callGraph.counters.external

/-- Builds the call graph by resolving the blocks in the order of `schedule`. The events
come in the order they arose. -/
def buildScheduled (hierarchy : Hierarchy) (options : BuildOptions)
    (schedule : List (BlockId × BlockEntry)) :
    ExceptT BuildError (StateM Memos) (CallGraph × List Event) := fun memos =>
  match hierarchy.resolveBlocks schedule memos with
  | (.error error, later) => (.error (.query error), later)
  | (.ok blocks, later) =>
    match merge options (inBlockOrder hierarchy.program blocks) with
    | .error error => (.error (.graph error), later)
    | .ok callGraph => (.ok (callGraph, warnings blocks ++ [callGraph.builtEvent]), later)

def build (hierarchy : Hierarchy) (options : BuildOptions) :
    ExceptT BuildError (StateM Memos) (CallGraph × List Event) :=
  buildScheduled hierarchy options hierarchy.program.blockEntries

end CallGraph

end CallResolution

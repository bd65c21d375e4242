import CallResolution.Binary64
import CallResolution.CallGraph.Query

/-!
Figures of a call graph and the share of calls that could be resolved.
-/

namespace CallResolution

structure KindCounts where
  virtual : Nat
  interface : Nat
  special : Nat
  static : Nat
  dynamic : Nat
  deriving DecidableEq, Repr

namespace KindCounts

def ofFn (number : InvocationKind → Nat) : KindCounts :=
  ⟨number .virtual, number .interface, number .special, number .static, number .dynamic⟩

def get (counts : KindCounts) : InvocationKind → Nat
  | .virtual => counts.virtual
  | .interface => counts.interface
  | .special => counts.special
  | .static => counts.static
  | .dynamic => counts.dynamic

def toList (counts : KindCounts) : List (InvocationKind × Nat) :=
  InvocationKind.all.map fun kind => (kind, counts.get kind)

end KindCounts

structure Stats where
  methodCount : Nat
  edgeCount : Nat
  totalCallSites : Nat
  callsByKind : KindCounts
  entryPoints : Nat
  leafMethods : Nat
  counters : Counters
  deriving DecidableEq, Repr

namespace Stats

/-- Calls of methods of the program. The figures are 64-bit words, and so is their sum. -/
def programCalls (stats : Stats) : Nat :=
  (stats.counters.resolved + stats.counters.unresolved) % Nat.pow 2 64

/-- The bits of the share of the program's calls that were resolved, one if there are no
such calls. -/
def resolutionRateBits (stats : Stats) : Nat :=
  if stats.programCalls = 0 then Binary64.ratioBits 1 1
  else Binary64.ratioBits stats.counters.resolved stats.programCalls

def render (stats : Stats) : String :=
  let sizes := toString stats.methodCount ++ " methods, " ++ toString stats.edgeCount ++
    " edges, " ++ toString stats.totalCallSites ++ " call sites"
  let kinds := (stats.callsByKind.toList.filter fun entry => entry.2 ≠ 0).map fun entry =>
    ", " ++ entry.1.name ++ ": " ++ toString entry.2
  let failures :=
    if 0 < stats.counters.unresolved ∨ 0 < stats.counters.missing then
      " (" ++ toString stats.counters.unresolved ++ " unresolved, " ++
        toString stats.counters.missing ++ " missing)"
    else ""
  sizes ++ String.join kinds ++ failures

end Stats

namespace CallGraph

def allSites (callGraph : CallGraph) : List CallSite :=
  callGraph.graph.edges.toList.flatMap Edge.data

def stats (callGraph : CallGraph) : Stats where
  methodCount := callGraph.methodCount
  edgeCount := callGraph.edgeCount
  totalCallSites := callGraph.allSites.length
  callsByKind := .ofFn fun kind =>
    callGraph.allSites.countP fun site => site.invocation.kind == kind
  entryPoints := callGraph.entryPoints.length
  leafMethods := callGraph.leafMethods.length
  counters := callGraph.counters

end CallGraph

end CallResolution

import CallResolution.Proofs.Building
import CallResolution.Proofs.Figures
import CallResolution.Proofs.Traversal

/-!
Who leads to whom in a built call graph. Methods that a method can reach and methods that lead to
it are two views of the same chains of calls, and followed far enough back these chains begin at
the entry points.
-/

namespace CallResolution.CallGraph

namespace Records

variable {seen : List MethodId} {placed : List Resolution} {callGraph : CallGraph}
  {caller callee method entry : MethodId}

theorem mem_methodsAt (records : callGraph.Records seen placed) {nodes : List NodeId} :
    method ∈ callGraph.methodsAt nodes ↔
      ∃ node ∈ nodes, callGraph.nodeOf? method = some node := by
  simp only [methodsAt, List.mem_filterMap, records.nodeOf]

theorem mem_searched (records : callGraph.Records seen placed) (search : NodeId → List NodeId) :
    method ∈ (match callGraph.nodeOf? entry with
      | some node => callGraph.methodsAt (search node)
      | none => []) ↔
      ∃ start goal, callGraph.nodeOf? entry = some start ∧ callGraph.nodeOf? method = some goal ∧
        goal ∈ search start := by
  cases callGraph.nodeOf? entry with
  | none => simp
  | some start =>
      dsimp only
      rw [records.mem_methodsAt]
      constructor
      · rintro ⟨goal, reached, found⟩
        exact ⟨start, goal, rfl, found, reached⟩
      · rintro ⟨_, goal, ⟨⟩, found, reached⟩
        exact ⟨goal, reached, found⟩

theorem mem_reachableFrom (records : callGraph.Records seen placed) :
    callee ∈ callGraph.reachableFrom caller ↔
      ∃ source target, callGraph.nodeOf? caller = some source ∧
        callGraph.nodeOf? callee = some target ∧ target ∈ callGraph.graph.view.bfs source :=
  records.mem_searched callGraph.graph.view.bfs

theorem mem_callersWithin (records : callGraph.Records seen placed) {depth : Nat} :
    caller ∈ callGraph.callersWithin callee depth ↔
      ∃ target source, callGraph.nodeOf? callee = some target ∧
        callGraph.nodeOf? caller = some source ∧
        source ∈ callGraph.graph.view.reverse.bfsWithin target depth :=
  records.mem_searched fun node => callGraph.graph.view.reverse.bfsWithin node depth

theorem reachableFrom_iff_callersWithin (records : callGraph.Records seen placed) {depth : Nat}
    (enough : callGraph.methodCount - 1 ≤ depth) :
    callee ∈ callGraph.reachableFrom caller ↔ caller ∈ callGraph.callersWithin callee depth := by
  have coherent := records.consistent.view_coherent
  have bounded (node : NodeId) : callGraph.graph.view.reverse.bfs node =
      callGraph.graph.view.reverse.bfsWithin node depth := GraphView.bfs_eq_bfsWithin enough node
  rw [records.mem_reachableFrom, records.mem_callersWithin]
  constructor
  · rintro ⟨source, target, sourceFound, targetFound, reached⟩
    have back := coherent.mem_reverse_bfs reached
    exact ⟨target, source, targetFound, sourceFound, bounded target ▸ back⟩
  · rintro ⟨target, source, targetFound, sourceFound, reached⟩
    rw [← bounded target] at reached
    exact ⟨source, target, sourceFound, targetFound, coherent.reverse.mem_reverse_bfs reached⟩

theorem mem_entryPoints (records : callGraph.Records seen placed) :
    entry ∈ callGraph.entryPoints ↔ ∃ node, callGraph.nodeOf? entry = some node ∧
      callGraph.graph.predecessors node = [] := by
  rw [entryPoints, records.mem_methodsAt]
  constructor
  · rintro ⟨node, listed, found⟩
    have isolated := (records.consistent.mem_entryNodes.mp listed).2
    exact ⟨node, found, records.consistent.predecessors_eq_nil.mpr isolated⟩
  · rintro ⟨node, found, nobody⟩
    have isolated := records.consistent.predecessors_eq_nil.mp nobody
    exact ⟨node, records.consistent.mem_entryNodes.mpr ⟨records.node_bound found, isolated⟩, found⟩

theorem exists_method (records : callGraph.Records seen placed) {node : NodeId}
    (bound : node.index < callGraph.graph.nodeCount) :
    ∃ method, callGraph.nodeOf? method = some node := by
  have listed : callGraph.graph.node? node = some callGraph.graph.nodes[node.index] :=
    Array.getElem?_eq_getElem bound
  exact ⟨_, (records.nodeOf _ _).mpr listed⟩

theorem getLast?_methodsAt (records : callGraph.Records seen placed) {path : List NodeId}
    {node : NodeId} (last : path.getLast? = some node)
    (found : callGraph.nodeOf? method = some node) :
    (callGraph.methodsAt path).getLast? = some method := by
  have listed := (records.nodeOf method node).mp found
  obtain ⟨earlier, rfl⟩ := List.getLast?_eq_some_iff.mp last
  simp [methodsAt, listed]

theorem callerChains_eq (records : callGraph.Records seen placed)
    (indexed : callGraph.options.indexCallers = true) (called : callGraph.callers method ≠ [])
    (depth : Nat) :
    ∃ node, callGraph.nodeOf? method = some node ∧ callGraph.callerChains method depth =
      (callGraph.graph.view.reverse.simplePaths node depth).map callGraph.methodsAt := by
  unfold callers at called
  cases found : callGraph.nodeOf? method with
  | none => simp [found] at called
  | some node =>
      refine ⟨node, rfl, ?_⟩
      have entered : callGraph.graph.inDegree node ≠ 0 := by
        intro nobody
        rw [records.consistent.inDegree_eq_zero, ← records.consistent.predecessors_eq_nil] at nobody
        simp [found, nobody, methodsAt] at called
      simp [callerChains, indexed, found, entered]

theorem exists_callerChain (records : callGraph.Records seen placed)
    (indexed : callGraph.options.indexCallers = true) (called : callGraph.callers method ≠ [])
    {depth : Nat} (enough : callGraph.methodCount ≤ depth) :
    (∃ chain ∈ callGraph.callerChains method depth, chain.getLast? = some entry) ↔
      entry ∈ callGraph.entryPoints ∧ method ∈ callGraph.reachableFrom entry := by
  have coherent := records.consistent.view_coherent
  obtain ⟨start, found, chains⟩ := records.callerChains_eq indexed called depth
  have ends (goal : NodeId) : (∃ path ∈ callGraph.graph.view.reverse.simplePaths start depth,
      path.getLast? = some goal) ↔ goal ∈ callGraph.graph.view.reverse.bfs start ∧
        callGraph.graph.predecessors goal = [] := coherent.reverse.exists_simplePath enough
  rw [chains, records.mem_entryPoints, records.mem_reachableFrom]
  constructor
  · rintro ⟨_, listed, last⟩
    obtain ⟨path, enumerated, rfl⟩ := List.mem_map.mp listed
    cases pathEnd : path.getLast? with
    | none =>
        rw [List.getLast?_eq_none_iff.mp pathEnd] at last
        simp [methodsAt] at last
    | some goal =>
        obtain ⟨reached, nobody⟩ := (ends goal).mp ⟨path, enumerated, pathEnd⟩
        have back := coherent.reverse.mem_reverse_bfs reached
        obtain ⟨first, firstFound⟩ := records.exists_method (coherent.mem_bfs.mp back).1
        cases (records.getLast?_methodsAt pathEnd firstFound).symm.trans last
        exact ⟨⟨goal, firstFound, nobody⟩, goal, start, firstFound, found, back⟩
  · rintro ⟨⟨goal, goalFound, nobody⟩, source, target, sourceFound, targetFound, reached⟩
    cases goalFound.symm.trans sourceFound
    cases found.symm.trans targetFound
    obtain ⟨path, enumerated, last⟩ := (ends goal).mpr ⟨coherent.mem_reverse_bfs reached, nobody⟩
    exact ⟨_, List.mem_map_of_mem enumerated, records.getLast?_methodsAt last goalFound⟩

end Records

variable {program : Program}

theorem reachability_converse {classes : List ClassDecl} {detached : List DetachedMethod}
    (loaded : Program.load classes detached = .ok program) (policy : Policy)
    (requests : List Request) (options : BuildOptions)
    {schedule : List (BlockId × BlockEntry)} (shuffled : schedule.Perm program.blockEntries) :
    let built := Hierarchy.afterHistory program policy requests
    ∃ callGraph events, (buildScheduled built.1 options schedule built.2).1 =
        .ok (callGraph, events) ∧
      ∀ caller callee depth, callGraph.methodCount - 1 ≤ depth →
        (callee ∈ callGraph.reachableFrom caller ↔
          caller ∈ callGraph.callersWithin callee depth) := by
  have held := Hierarchy.exact_afterHistory program policy requests
  obtain ⟨_, callGraph, _, built, _, _, records⟩ :=
    buildScheduled_records (Program.load_wellFormed loaded) options shuffled held
  refine ⟨callGraph, _, congrArg Prod.fst built, fun caller callee depth enough => ?_⟩
  exact records.reachableFrom_iff_callersWithin enough

def relayClasses : List ClassDecl :=
  let call (name : String) : Statement := .invoke ⟨.static, "Relay", ⟨name, []⟩⟩
  let method (name : String) (statements : List Statement) : MethodDecl :=
    ⟨⟨name, []⟩, .publicBit, [statements]⟩
  [⟨"Relay", none, [], .publicBit, [method "start" [call "pass"],
    method "pass" [call "pass", call "hand"], method "hand" [call "pass"], method "idle" []]⟩]

def relayProgram : Program :=
  (Program.load relayClasses []).toOption.getD .empty

theorem relayProgram_loaded : Program.load relayClasses [] = .ok relayProgram := by
  decide +kernel

def relayBuild : Except BuildError (CallGraph × List Event) :=
  let built := Hierarchy.afterHistory relayProgram .standard [.subClasses ⟨0⟩]
  (buildScheduled built.1 .sequential relayProgram.blockEntries.reverse built.2).1

def relayGraph : CallGraph :=
  (relayBuild.toOption.map Prod.fst).getD (.empty .sequential)

theorem eq_relayGraph {callGraph : CallGraph} {events : List Event}
    (answered : relayBuild = .ok (callGraph, events)) : callGraph = relayGraph := by
  rw [relayGraph, answered]
  rfl

theorem reachability_converse_relay :
    ∃ callGraph events, relayBuild = .ok (callGraph, events) ∧ callGraph.methodCount - 1 ≤ 3 ∧
      ⟨0⟩ ∈ callGraph.callersWithin ⟨2⟩ 3 ∧ ⟨2⟩ ∈ callGraph.reachableFrom ⟨0⟩ ∧
      ⟨0⟩ ∉ callGraph.reachableFrom ⟨2⟩ := by
  obtain ⟨callGraph, events, answered, converse⟩ := reachability_converse relayProgram_loaded
    .standard [.subClasses ⟨0⟩] .sequential (List.reverse_perm _)
  obtain rfl := eq_relayGraph answered
  have enough : relayGraph.methodCount - 1 ≤ 3 := by decide +kernel
  have found : ⟨0⟩ ∈ relayGraph.callersWithin ⟨2⟩ 3 := by decide +kernel
  have missed : ⟨2⟩ ∉ relayGraph.callersWithin ⟨0⟩ 3 := by decide +kernel
  refine ⟨relayGraph, events, answered, enough, found, (converse _ _ 3 enough).mpr found, ?_⟩
  exact fun reached => missed ((converse _ _ 3 enough).mp reached)

theorem chains_end_at_entryPoints {classes : List ClassDecl} {detached : List DetachedMethod}
    (loaded : Program.load classes detached = .ok program) (policy : Policy)
    (requests : List Request) (options : BuildOptions) (indexed : options.indexCallers = true)
    {schedule : List (BlockId × BlockEntry)} (shuffled : schedule.Perm program.blockEntries) :
    let built := Hierarchy.afterHistory program policy requests
    ∃ callGraph events, (buildScheduled built.1 options schedule built.2).1 =
        .ok (callGraph, events) ∧
      ∀ method depth, callGraph.callers method ≠ [] → callGraph.methodCount ≤ depth → ∀ entry,
        (∃ chain ∈ callGraph.callerChains method depth, chain.getLast? = some entry) ↔
          entry ∈ callGraph.entryPoints ∧ method ∈ callGraph.reachableFrom entry := by
  have held := Hierarchy.exact_afterHistory program policy requests
  obtain ⟨_, callGraph, _, built, _, _, merged⟩ :=
    buildScheduled_merges (Program.load_wellFormed loaded) options shuffled held
  have kept : callGraph.options.indexCallers = true := by
    rw [merge_options merged, indexed]
  refine ⟨callGraph, _, congrArg Prod.fst built, fun method depth called enough entry => ?_⟩
  exact (records_of_merge merged).exists_callerChain kept called enough

theorem chains_end_at_entryPoints_relay :
    ∃ callGraph events, relayBuild = .ok (callGraph, events) ∧
      callGraph.callers ⟨2⟩ ≠ [] ∧ callGraph.methodCount ≤ 4 ∧
      (⟨0⟩ ∈ callGraph.entryPoints ∧ ⟨2⟩ ∈ callGraph.reachableFrom ⟨0⟩) ∧
      ⟨3⟩ ∈ callGraph.entryPoints ∧ ⟨2⟩ ∉ callGraph.reachableFrom ⟨3⟩ := by
  obtain ⟨callGraph, events, answered, ends⟩ := chains_end_at_entryPoints relayProgram_loaded
    .standard [.subClasses ⟨0⟩] .sequential rfl (List.reverse_perm _)
  obtain rfl := eq_relayGraph answered
  have called : relayGraph.callers ⟨2⟩ ≠ [] := by decide +kernel
  have enough : relayGraph.methodCount ≤ 4 := by decide +kernel
  have chains : relayGraph.callerChains ⟨2⟩ 4 = [[⟨2⟩, ⟨1⟩, ⟨0⟩]] := by decide +kernel
  have idle : ⟨3⟩ ∈ relayGraph.entryPoints := by decide +kernel
  have starts := (ends ⟨2⟩ 4 called enough ⟨0⟩).mp ⟨[⟨2⟩, ⟨1⟩, ⟨0⟩], by simp [chains], rfl⟩
  refine ⟨relayGraph, events, answered, called, enough, starts, idle, fun reached => ?_⟩
  obtain ⟨chain, listed, last⟩ := (ends ⟨2⟩ 4 called enough ⟨3⟩).mpr ⟨idle, reached⟩
  rw [chains, List.mem_singleton] at listed
  simp [listed] at last

end CallResolution.CallGraph

import CallResolution.Proofs.CallChains
import CallResolution.Proofs.Distances
import CallResolution.Proofs.PathListing

/-!
Chains of callers against sets of callers. A chain stays among the methods that its depth allows,
and a method that comes in with one more step ends a chain of that length: a shortest route passes
no node twice, so the listing of simple paths neither drops it nor cuts it short.
-/

namespace CallResolution

namespace Search

variable {α : Type} {next : α → List α} {start goal : α} {steps : List α} {length : Nat}

theorem Route.visits {node : α} (route : Route next start goal steps)
    (visited : node ∈ start :: steps) :
    ∃ earlier, Route next start node earlier ∧ earlier.length ≤ steps.length := by
  induction steps generalizing start with
  | nil => exact ⟨[], (List.mem_singleton.mp visited).symm, Nat.le_refl _⟩
  | cons first rest ih =>
      rcases List.mem_cons.mp visited with here | later
      · exact ⟨[], here.symm, Nat.zero_le _⟩
      · obtain ⟨earlier, leads, short⟩ := ih route.2 later
        refine ⟨first :: earlier, ⟨route.1, leads⟩, ?_⟩
        simp only [List.length_cons]
        omega

variable [DecidableEq α]

/-- The nodes of a route are enough for a simple one, which is as short as any if the route is. -/
theorem Distance.exists_simpleRoute (distance : Distance next start goal length) :
    ∃ steps, SimpleRoute next [] start goal steps ∧ steps.length = length := by
  obtain ⟨steps, route, shortest⟩ := distance.attained
  obtain ⟨simple, leads, unique, kept⟩ := route.exists_simple
  have bound := (List.subperm_of_subset unique.of_cons kept).length_le
  have least := distance.least simple leads
  exact ⟨simple, ⟨leads, unique, by simp⟩, by omega⟩

end Search

namespace GraphView

open Search

variable {view : GraphView} {start node : NodeId} {hops : Nat}

theorem Coherent.mem_bfsWithin_of_path (coherent : view.Coherent) {path : List NodeId}
    (listed : path ∈ view.simplePaths start hops) (visited : node ∈ path) :
    node ∈ view.bfsWithin start hops := by
  unfold simplePaths at listed
  split at listed
  · rename_i bound
    obtain ⟨goal, steps, rfl, simple, stops⟩ := mem_simplePaths.mp listed
    obtain ⟨earlier, leads, short⟩ := simple.route.visits visited
    refine coherent.mem_bfsWithin.mpr ⟨bound, earlier, leads, ?_⟩
    rcases stops with full | ⟨fewer, _⟩ <;> omega
  · simp at listed

theorem Coherent.distance_of_new (coherent : view.Coherent)
    (found : node ∈ view.bfsWithin start (hops + 1)) (new : node ∉ view.bfsWithin start hops) :
    start.index < view.nodeCount ∧ Distance view.successors start node (hops + 1) := by
  rw [coherent.mem_bfsWithin, exists_route_within] at found new
  obtain ⟨bound, length, short, distance⟩ := found
  have far : ¬ length ≤ hops := fun near => new ⟨bound, length, near, distance⟩
  obtain rfl : length = hops + 1 := by omega
  exact ⟨bound, distance⟩

theorem Coherent.exists_simplePath_of_new (coherent : view.Coherent)
    (found : node ∈ view.bfsWithin start (hops + 1)) (new : node ∉ view.bfsWithin start hops) :
    ∃ path ∈ view.simplePaths start (hops + 1), path.getLast? = some node := by
  obtain ⟨bound, distance⟩ := coherent.distance_of_new found new
  obtain ⟨steps, simple, full⟩ := distance.exists_simpleRoute
  refine ⟨start :: steps, ?_, simple.route.getLast?_eq⟩
  rw [simplePaths, if_pos bound]
  exact mem_simplePaths.mpr ⟨node, steps, rfl, simple, .inl full⟩

theorem Coherent.exists_successor_of_new (coherent : view.Coherent)
    (found : node ∈ view.bfsWithin start (hops + 1)) (new : node ∉ view.bfsWithin start hops) :
    ∃ first, first ∈ view.successors start := by
  obtain ⟨_, distance⟩ := coherent.distance_of_new found new
  obtain ⟨steps, route, full⟩ := distance.attained
  cases steps with
  | nil => simp at full
  | cons first rest => exact ⟨first, route.1⟩

end GraphView

namespace CallGraph

variable {callGraph : CallGraph} {method caller callee : MethodId} {depth : Nat}

theorem exists_path_of_callerChain {chain : List MethodId}
    (listed : chain ∈ callGraph.callerChains method depth) :
    ∃ node, callGraph.nodeOf? method = some node ∧
      ∃ path ∈ callGraph.graph.view.reverse.simplePaths node depth,
        callGraph.methodsAt path = chain := by
  unfold callerChains at listed
  split at listed
  · split at listed
    · rename_i node found
      split at listed
      · simp at listed
      · exact ⟨node, found, List.mem_map.mp listed⟩
    · simp at listed
  · simp at listed

namespace Records

variable {seen : List MethodId} {placed : List Resolution}

theorem callSites_ne_nil (records : callGraph.Records seen placed) {source target : NodeId}
    (callerFound : callGraph.nodeOf? caller = some source)
    (calleeFound : callGraph.nodeOf? callee = some target)
    (edge : source ∈ callGraph.graph.predecessors target) :
    callGraph.callSites caller callee ≠ [] := by
  have calls : caller ∈ callGraph.callers callee := by
    simp only [callers, calleeFound]
    exact records.mem_methodsAt.mpr ⟨source, edge, callerFound⟩
  rw [records.callSites_eq, Ne, Resolution.sitesOn_eq_nil, not_not]
  exact records.mem_callers.mp calls

theorem isChain_methodsAt (records : callGraph.Records seen placed) {path : List NodeId}
    (inside : ∀ node ∈ path, node.index < callGraph.graph.nodeCount)
    (follows : path.IsChain fun node after => after ∈ callGraph.graph.predecessors node) :
    (callGraph.methodsAt path).IsChain fun callee caller =>
      callGraph.callSites caller callee ≠ [] := by
  induction path with
  | nil => exact .nil
  | cons node rest ih =>
      have later := ih (fun other member => inside other (by simp [member])) follows.of_cons
      obtain ⟨callee, calleeFound⟩ := records.exists_method (inside node (by simp))
      have calleeRead := (records.nodeOf _ _).mp calleeFound
      cases rest with
      | nil => simp [methodsAt, calleeRead]
      | cons after rest =>
          obtain ⟨caller, callerFound⟩ := records.exists_method (inside after (by simp))
          have callerRead := (records.nodeOf _ _).mp callerFound
          obtain ⟨edge, _⟩ := List.isChain_cons_cons.mp follows
          simp only [methodsAt, List.filterMap_cons, calleeRead, callerRead] at later ⊢
          exact .cons_cons (records.callSites_ne_nil callerFound calleeFound edge) later

theorem callerChain_within (records : callGraph.Records seen placed) {chain : List MethodId}
    (listed : chain ∈ callGraph.callerChains method depth) :
    (∀ caller ∈ chain, caller ∈ callGraph.callersWithin method depth) ∧
      chain.IsChain fun callee caller => callGraph.callSites caller callee ≠ [] := by
  have coherent := records.consistent.view_coherent.reverse
  obtain ⟨start, found, path, enumerated, rfl⟩ := exists_path_of_callerChain listed
  have bound := records.node_bound found
  constructor
  · intro caller member
    obtain ⟨node, visited, callerFound⟩ := records.mem_methodsAt.mp member
    exact records.mem_callersWithin.mpr
      ⟨start, node, found, callerFound, coherent.mem_bfsWithin_of_path enumerated visited⟩
  · have lists := GraphView.simplePaths_lists callGraph.graph.view.reverse bound depth
    have bounded := (lists.exact path).mp enumerated
    refine records.isChain_methodsAt (fun node visited => ?_) bounded.follows
    have reached := coherent.mem_bfsWithin_of_path enumerated visited
    obtain ⟨_, steps, route, _⟩ := coherent.mem_bfsWithin.mp reached
    exact Handle.mem_upTo.mp (route.goal_inside coherent.inside (Handle.mem_upTo.mpr bound))

theorem exists_callerChain_of_new (records : callGraph.Records seen placed)
    (indexed : callGraph.options.indexCallers = true)
    (found : caller ∈ callGraph.callersWithin method (depth + 1))
    (new : caller ∉ callGraph.callersWithin method depth) :
    ∃ chain ∈ callGraph.callerChains method (depth + 1), chain.getLast? = some caller := by
  have coherent := records.consistent.view_coherent.reverse
  obtain ⟨start, goal, startFound, goalFound, reached⟩ := records.mem_callersWithin.mp found
  have missed : goal ∉ callGraph.graph.view.reverse.bfsWithin start depth := fun near =>
    new (records.mem_callersWithin.mpr ⟨start, goal, startFound, goalFound, near⟩)
  obtain ⟨first, edge⟩ := coherent.exists_successor_of_new reached missed
  obtain ⟨direct, directFound⟩ := records.exists_method (coherent.targetBound _ _ edge)
  have called : callGraph.callers method ≠ [] := by
    apply List.ne_nil_of_mem (a := direct)
    simp only [callers, startFound]
    exact records.mem_methodsAt.mpr ⟨first, edge, directFound⟩
  obtain ⟨node, nodeFound, chains⟩ := records.callerChains_eq indexed called (depth + 1)
  cases startFound.symm.trans nodeFound
  obtain ⟨path, enumerated, last⟩ := coherent.exists_simplePath_of_new reached missed
  rw [chains]
  exact ⟨_, List.mem_map_of_mem enumerated, records.getLast?_methodsAt last goalFound⟩

end Records

theorem chains_agree_with_callers {program : Program} {classes : List ClassDecl}
    {detached : List DetachedMethod} (loaded : Program.load classes detached = .ok program)
    (policy : Policy) (requests : List Request) (options : BuildOptions)
    (indexed : options.indexCallers = true) {schedule : List (BlockId × BlockEntry)}
    (shuffled : schedule.Perm program.blockEntries) :
    let built := Hierarchy.afterHistory program policy requests
    ∃ callGraph events, (buildScheduled built.1 options schedule built.2).1 =
        .ok (callGraph, events) ∧
      ∀ method depth,
        (∀ chain ∈ callGraph.callerChains method depth,
          (∀ caller ∈ chain, caller ∈ callGraph.callersWithin method depth) ∧
          chain.IsChain fun callee caller => callGraph.callSites caller callee ≠ []) ∧
        (1 ≤ depth → ∀ caller ∈ callGraph.callersWithin method depth,
          caller ∉ callGraph.callersWithin method (depth - 1) →
          ∃ chain ∈ callGraph.callerChains method depth, chain.getLast? = some caller) := by
  have held := Hierarchy.exact_afterHistory program policy requests
  obtain ⟨_, callGraph, _, built, _, _, merged⟩ :=
    buildScheduled_merges (Program.load_wellFormed loaded) options shuffled held
  have records := records_of_merge merged
  have kept : callGraph.options.indexCallers = true := by
    rw [merge_options merged, indexed]
  refine ⟨callGraph, _, congrArg Prod.fst built, fun method depth => ⟨?_, ?_⟩⟩
  · intro chain listed
    exact records.callerChain_within listed
  · intro positive caller found new
    obtain ⟨fewer, rfl⟩ : ∃ fewer, depth = fewer + 1 := ⟨depth - 1, by omega⟩
    exact records.exists_callerChain_of_new kept found new

theorem chains_agree_with_callers_relay :
    ∃ callGraph events, relayBuild = .ok (callGraph, events) ∧
      callGraph.callersWithin ⟨2⟩ 1 = [⟨2⟩, ⟨1⟩] ∧
      callGraph.callersWithin ⟨2⟩ 2 = [⟨2⟩, ⟨1⟩, ⟨0⟩] ∧
      (∃ chain ∈ callGraph.callerChains ⟨2⟩ 2, chain.getLast? = some ⟨0⟩) ∧
      callGraph.callerChains ⟨2⟩ 18446744073709551615 = [[⟨2⟩, ⟨1⟩, ⟨0⟩]] ∧
      callGraph.callSites ⟨1⟩ ⟨2⟩ ≠ [] ∧ callGraph.callSites ⟨0⟩ ⟨1⟩ ≠ [] := by
  obtain ⟨callGraph, events, answered, agree⟩ := chains_agree_with_callers relayProgram_loaded
    .standard [.subClasses ⟨0⟩] .sequential rfl (List.reverse_perm _)
  obtain rfl := eq_relayGraph answered
  have near : relayGraph.callersWithin ⟨2⟩ 1 = [⟨2⟩, ⟨1⟩] := by decide +kernel
  have far : relayGraph.callersWithin ⟨2⟩ 2 = [⟨2⟩, ⟨1⟩, ⟨0⟩] := by decide +kernel
  have ends := (agree ⟨2⟩ 2).2 (by decide) ⟨0⟩ (by simp [far]) (by simp [near])
  have chains : relayGraph.callerChains ⟨2⟩ 18446744073709551615 = [[⟨2⟩, ⟨1⟩, ⟨0⟩]] := by
    decide +kernel
  have called := ((agree ⟨2⟩ 18446744073709551615).1 [⟨2⟩, ⟨1⟩, ⟨0⟩] (by simp [chains])).2
  obtain ⟨first, rest⟩ := List.isChain_cons_cons.mp called
  exact ⟨relayGraph, events, answered, near, far, ends, chains, first,
    (List.isChain_cons_cons.mp rest).1⟩

end CallGraph

end CallResolution

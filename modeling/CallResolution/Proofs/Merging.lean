import CallResolution.CallGraph.Build
import CallResolution.CallGraph.Query
import CallResolution.Proofs.Adjacency
import CallResolution.Proofs.Distinct

/-!
What merging leaves in a call graph. Methods are listed in the order in which they first came
up, links in the order in which their first site was placed, and each link carries its sites
in the order of placing.
-/

namespace CallResolution

abbrev Resolution := CallSite × MethodId

namespace Resolution

def link (resolution : Resolution) : MethodId × MethodId :=
  (resolution.1.caller, resolution.2)

def sitesOn (placed : List Resolution) (link : MethodId × MethodId) : List CallSite :=
  (placed.filter fun resolution => resolution.link == link).map Prod.fst

theorem sitesOn_append (placed later : List Resolution) (link : MethodId × MethodId) :
    sitesOn (placed ++ later) link = sitesOn placed link ++ sitesOn later link := by
  simp [sitesOn]

theorem sitesOn_singleton (resolution : Resolution) (link : MethodId × MethodId) :
    sitesOn [resolution] link = if resolution.link = link then [resolution.1] else [] := by
  by_cases same : resolution.link = link <;> simp [sitesOn, same]

theorem sitesOn_eq_nil {placed : List Resolution} {link : MethodId × MethodId} :
    sitesOn placed link = [] ↔ link ∉ placed.map Resolution.link := by
  simp only [sitesOn, List.map_eq_nil_iff, List.filter_eq_nil_iff, beq_iff_eq, List.mem_map]
  constructor
  · intro nothing ⟨resolution, member, same⟩
    exact nothing resolution member same
  · intro absent resolution member same
    exact absent ⟨resolution, member, same⟩

end Resolution

open Resolution

namespace CallGraph

def describe (callGraph : CallGraph) (edge : Edge (List CallSite)) :
    Option MethodId × Option MethodId × List CallSite :=
  (callGraph.graph.node? edge.source, callGraph.graph.node? edge.target, edge.data)

structure Records (seen : List MethodId) (placed : List Resolution) (callGraph : CallGraph) :
    Prop where
  consistent : callGraph.graph.Consistent
  methods : callGraph.methods = seen.eraseDups
  nodeOf : ∀ method node,
    callGraph.nodeOf? method = some node ↔ callGraph.graph.node? node = some method
  edges : callGraph.graph.edges.toList.map callGraph.describe =
    (placed.map Resolution.link).eraseDups.map fun link =>
      (some link.1, some link.2, sitesOn placed link)

namespace Records

variable {seen : List MethodId} {placed : List Resolution} {callGraph : CallGraph}

theorem mem_seen (records : callGraph.Records seen placed) {method : MethodId} {node : NodeId}
    (found : callGraph.nodeOf? method = some node) : method ∈ seen := by
  have listed := (records.nodeOf method node).mp found
  have member : method ∈ callGraph.methods := by
    simpa [CallGraph.methods] using Array.mem_of_getElem? listed
  exact List.mem_eraseDups.mp (records.methods ▸ member)

theorem exists_node (records : callGraph.Records seen placed) {method : MethodId}
    (member : method ∈ seen) : ∃ node, callGraph.nodeOf? method = some node := by
  have listed : method ∈ callGraph.methods := records.methods ▸ List.mem_eraseDups.mpr member
  obtain ⟨index, found⟩ := List.mem_iff_getElem?.mp listed
  refine ⟨⟨index⟩, (records.nodeOf method ⟨index⟩).mpr ?_⟩
  simpa [CallGraph.methods, Digraph.node?] using found

theorem node_bound (records : callGraph.Records seen placed) {method : MethodId} {node : NodeId}
    (found : callGraph.nodeOf? method = some node) : node.index < callGraph.graph.nodeCount :=
  (Array.getElem?_eq_some_iff.mp ((records.nodeOf method node).mp found)).1

theorem nodeOf?_mono {later : List MethodId} {placedLater : List Resolution} {extended : CallGraph}
    (records : callGraph.Records seen placed)
    (recordsLater : extended.Records (seen ++ later) placedLater) {method : MethodId}
    {node : NodeId} (found : callGraph.nodeOf? method = some node) :
    extended.nodeOf? method = some node := by
  have before : seen.eraseDups[node.index]? = some method := by
    rw [← records.methods]
    simpa [CallGraph.methods, Digraph.node?] using (records.nodeOf method node).mp found
  have after : extended.methods[node.index]? = some method := by
    rw [recordsLater.methods, List.eraseDups_append]
    exact List.getElem?_append_left (List.getElem?_eq_some_iff.mp before).1 ▸ before
  rw [recordsLater.nodeOf]
  simpa [CallGraph.methods, Digraph.node?] using after

theorem mem_links (records : callGraph.Records seen placed) {id : EdgeId}
    {edge : Edge (List CallSite)} (listed : callGraph.graph.edge? id = some edge) :
    ∃ link ∈ placed.map Resolution.link,
      callGraph.nodeOf? link.1 = some edge.source ∧ callGraph.nodeOf? link.2 = some edge.target ∧
      edge.data = sitesOn placed link := by
  have described : callGraph.describe edge ∈ callGraph.graph.edges.toList.map callGraph.describe :=
    List.mem_map_of_mem (by simpa using Digraph.mem_edges_of_edge? listed)
  rw [records.edges] at described
  obtain ⟨link, member, same⟩ := List.mem_map.mp described
  simp only [describe, Prod.mk.injEq] at same
  refine ⟨link, List.mem_eraseDups.mp member, ?_, ?_, same.2.2.symm⟩
  · exact (records.nodeOf _ _).mpr same.1.symm
  · exact (records.nodeOf _ _).mpr same.2.1.symm

theorem exists_edge (records : callGraph.Records seen placed) {link : MethodId × MethodId}
    (member : link ∈ placed.map Resolution.link) :
    ∃ source target id, callGraph.nodeOf? link.1 = some source ∧
      callGraph.nodeOf? link.2 = some target ∧
      callGraph.graph.edge? id = some ⟨source, target, sitesOn placed link⟩ := by
  have described : (some link.1, some link.2, sitesOn placed link) ∈
      callGraph.graph.edges.toList.map callGraph.describe := by
    rw [records.edges]
    exact List.mem_map.mpr ⟨link, List.mem_eraseDups.mpr member, rfl⟩
  obtain ⟨edge, listed, same⟩ := List.mem_map.mp described
  obtain ⟨index, found⟩ := List.mem_iff_getElem?.mp listed
  simp only [describe, Prod.mk.injEq] at same
  refine ⟨edge.source, edge.target, ⟨index⟩, (records.nodeOf _ _).mpr same.1,
    (records.nodeOf _ _).mpr same.2.1, ?_⟩
  rw [← same.2.2]
  simpa [Digraph.edge?] using found

theorem describe_addNode (records : callGraph.Records seen placed) {extended : CallGraph}
    {method : MethodId} (grown : extended.graph = (callGraph.graph.addNode method).1) :
    extended.graph.edges.toList.map extended.describe =
      callGraph.graph.edges.toList.map callGraph.describe := by
  have edges : extended.graph.edges = callGraph.graph.edges := by rw [grown]; rfl
  rw [edges]
  refine List.map_congr_left fun edge member => ?_
  have bounds := records.consistent.endsBound edge (by simpa using member)
  have old {node : NodeId} (bound : node.index < callGraph.graph.nodeCount) :
      extended.graph.node? node = callGraph.graph.node? node := by
    simp only [grown, Digraph.node?, Digraph.addNode]
    exact Array.getElem?_push_lt bound ▸ (Array.getElem?_eq_getElem bound).symm
  simp only [describe, old bounds.1, old bounds.2]

theorem lookup_addNode (records : callGraph.Records seen placed) {method : MethodId}
    (absent : callGraph.nodeOf? method = none) (other : MethodId) (node : NodeId) :
    ((method, ⟨callGraph.graph.nodeCount⟩) :: callGraph.nodeIndex).lookup other = some node ↔
      (callGraph.graph.addNode method).1.node? node = some other := by
  have old := records.nodeOf other node
  have unlisted : callGraph.graph.node? node ≠ some method := fun listed =>
    absurd ((records.nodeOf method node).mpr listed) (by simp [absent])
  simp only [nodeOf?, Digraph.node?] at old unlisted
  simp only [Digraph.node?, Digraph.addNode, List.lookup_cons, Array.getElem?_push]
  by_cases last : node = ⟨callGraph.graph.nodeCount⟩
  · subst last
    have beyond : callGraph.graph.nodes[callGraph.graph.nodes.size]? = none := by simp
    simp only [Digraph.nodeCount, beyond] at old
    by_cases same : other = method
    · simp [same, Digraph.nodeCount]
    · simp [beq_false_of_ne same, Digraph.nodeCount, old, Ne.symm same]
  · have apart : node.index ≠ callGraph.graph.nodes.size := fun equal =>
      last (Handle.eq_of_index_eq equal)
    by_cases same : other = method
    · subst same
      simp [apart, unlisted, Ne.symm last]
    · simp [beq_false_of_ne same, apart, old]

theorem intern (records : callGraph.Records seen placed) (method : MethodId) :
    (callGraph.intern method).1.Records (seen ++ [method]) placed ∧
      (callGraph.intern method).1.nodeOf? method = some (callGraph.intern method).2 := by
  cases found : callGraph.nodeOf? method with
  | some node =>
      have known := eraseDups_append_of_mem (records.mem_seen found)
      simp only [CallGraph.intern, found, and_true]
      exact { records with methods := records.methods.trans known.symm }
  | none =>
      have fresh : method ∉ seen := by
        intro member
        obtain ⟨node, known⟩ := records.exists_node member
        rw [found] at known
        cases known
      simp only [CallGraph.intern, found]
      refine ⟨⟨Digraph.addNode_consistent records.consistent method, ?_,
        records.lookup_addNode found, ?_⟩, ?_⟩
      · rw [eraseDups_append_of_not_mem fresh, ← records.methods]
        simp [CallGraph.methods, Digraph.addNode]
      · rw [← records.edges]
        exact records.describe_addNode rfl
      · simp [nodeOf?]

theorem nodeOf?_injective (records : callGraph.Records seen placed) {left right : MethodId}
    {node : NodeId} (leftFound : callGraph.nodeOf? left = some node)
    (rightFound : callGraph.nodeOf? right = some node) : left = right := by
  rw [records.nodeOf] at leftFound rightFound
  exact Option.some.inj (leftFound.symm.trans rightFound)

theorem edge?_eq_none (records : callGraph.Records seen placed) {index : Nat} :
    callGraph.graph.edge? ⟨index⟩ = none ↔
      (placed.map Resolution.link).eraseDups[index]? = none := by
  have lengths := congrArg List.length records.edges
  simp only [List.length_map, Array.length_toList] at lengths
  simp [Digraph.edge?, lengths]

theorem link_at (records : callGraph.Records seen placed) {index : Nat}
    {edge : Edge (List CallSite)} (listed : callGraph.graph.edge? ⟨index⟩ = some edge) :
    ∃ link, (placed.map Resolution.link).eraseDups[index]? = some link ∧
      callGraph.graph.node? edge.source = some link.1 ∧
      callGraph.graph.node? edge.target = some link.2 ∧ edge.data = sitesOn placed link := by
  have old := congrArg (fun entries => entries[index]?) records.edges
  have found : callGraph.graph.edges[index]? = some edge := listed
  simp only [List.getElem?_map, Array.getElem?_toList, found, Option.map_some] at old
  obtain ⟨link, linked, same⟩ := Option.map_eq_some_iff.mp old.symm
  simp only [describe, Prod.mk.injEq] at same
  exact ⟨link, linked, same.1.symm, same.2.1.symm, same.2.2.symm⟩

theorem link_eq_iff (records : callGraph.Records seen placed) {left right : MethodId × MethodId}
    {leftSource leftTarget rightSource rightTarget : NodeId}
    (leftFound : callGraph.nodeOf? left.1 = some leftSource ∧
      callGraph.nodeOf? left.2 = some leftTarget)
    (rightFound : callGraph.nodeOf? right.1 = some rightSource ∧
      callGraph.nodeOf? right.2 = some rightTarget) :
    left = right ↔ rightSource = leftSource ∧ rightTarget = leftTarget := by
  constructor
  · rintro rfl
    exact ⟨Option.some.inj (rightFound.1.symm.trans leftFound.1),
      Option.some.inj (rightFound.2.symm.trans leftFound.2)⟩
  · rintro ⟨rfl, rfl⟩
    exact Prod.ext (records.nodeOf?_injective leftFound.1 rightFound.1)
      (records.nodeOf?_injective leftFound.2 rightFound.2)

theorem modifyEdge? (records : callGraph.Records seen placed) {resolution : Resolution}
    {source target : NodeId} {id : EdgeId} {data : List CallSite}
    {changed : Digraph MethodId (List CallSite)}
    (sourceFound : callGraph.nodeOf? resolution.1.caller = some source)
    (targetFound : callGraph.nodeOf? resolution.2 = some target)
    (listed : callGraph.graph.edge? id = some ⟨source, target, data⟩)
    (only : ∀ other, callGraph.graph.Joins source target other → other = id)
    (modified : callGraph.graph.modifyEdge? id (· ++ [resolution.1]) = some changed) :
    Records seen (placed ++ [resolution]) { callGraph with graph := changed } := by
  have shape := Digraph.modifyEdge?_eq_some modified
  have nodes : changed.nodes = callGraph.graph.nodes := by rw [shape]
  have node? (node : NodeId) : changed.node? node = callGraph.graph.node? node := by
    simp only [Digraph.node?, nodes]
  have ends : callGraph.nodeOf? resolution.link.1 = some source ∧
      callGraph.nodeOf? resolution.link.2 = some target := ⟨sourceFound, targetFound⟩
  have known : resolution.link ∈ placed.map Resolution.link := by
    obtain ⟨link, member, sourceAt, targetAt, _⟩ := records.mem_links listed
    exact (records.link_eq_iff ends ⟨sourceAt, targetAt⟩).mpr ⟨rfl, rfl⟩ ▸ member
  refine ⟨Digraph.modifyEdge?_consistent records.consistent modified, ?_, ?_, ?_⟩
  · simpa only [CallGraph.methods, nodes] using records.methods
  · simpa only [nodeOf?, node?] using records.nodeOf
  · -- Links and edges correspond position by position, so only one entry changes.
    rw [List.map_append, List.map_singleton, eraseDups_append_of_mem known]
    apply List.ext_getElem?
    intro index
    have entry := Digraph.edge?_of_modifyEdge? modified ⟨index⟩
    simp only [List.getElem?_map, Array.getElem?_toList]
    rw [show changed.edges[index]? = _ from entry]
    cases found : callGraph.graph.edge? ⟨index⟩ with
    | none => simp [records.edge?_eq_none.mp found]
    | some edge =>
        obtain ⟨link, linked, sourceAt, targetAt, sites⟩ := records.link_at found
        have here : ⟨index⟩ = id ↔ resolution.link = link := by
          rw [records.link_eq_iff ends
            ⟨(records.nodeOf _ _).mpr sourceAt, (records.nodeOf _ _).mpr targetAt⟩]
          constructor
          · rintro rfl
            rw [listed, Option.some.injEq] at found
            exact found ▸ ⟨rfl, rfl⟩
          · rintro ⟨rfl, rfl⟩
            exact only ⟨index⟩ ⟨edge.data, found⟩
        simp only [Option.map_some, linked, Option.some.injEq, describe, node?, sitesOn_append,
          sitesOn_singleton, here]
        split <;> simp [sourceAt, targetAt, sites]

theorem link (records : callGraph.Records seen placed) {resolution : Resolution}
    {source target : NodeId} (sourceFound : callGraph.nodeOf? resolution.1.caller = some source)
    (targetFound : callGraph.nodeOf? resolution.2 = some target)
    (fresh : ∀ id, ¬ callGraph.graph.Joins source target id) :
    Records seen (placed ++ [resolution])
      { callGraph with graph := callGraph.graph.link source target [resolution.1] } := by
  have apart : resolution.link ∉ placed.map Resolution.link := by
    intro member
    obtain ⟨_, _, id, sourceSame, targetSame, listed⟩ := records.exists_edge member
    obtain rfl := Option.some.inj (sourceFound.symm.trans sourceSame)
    obtain rfl := Option.some.inj (targetFound.symm.trans targetSame)
    exact fresh id ⟨_, listed⟩
  refine ⟨Digraph.link_consistent _ records.consistent (records.node_bound sourceFound)
    (records.node_bound targetFound), records.methods, records.nodeOf, ?_⟩
  have earlier : (placed.map Resolution.link).eraseDups.map (fun link =>
      (some link.1, some link.2, sitesOn (placed ++ [resolution]) link)) =
      (placed.map Resolution.link).eraseDups.map fun link =>
        (some link.1, some link.2, sitesOn placed link) := by
    refine List.map_congr_left fun link member => ?_
    have different : resolution.link ≠ link := fun same =>
      apart (same ▸ List.mem_eraseDups.mp member)
    simp [sitesOn_append, sitesOn_singleton, different]
  rw [List.map_append, List.map_singleton, eraseDups_append_of_not_mem apart, List.map_append,
    earlier, ← records.edges, List.map_singleton, sitesOn_append, sitesOn_singleton,
    sitesOn_eq_nil.mpr apart]
  have sourceAt := (records.nodeOf _ _).mp sourceFound
  have targetAt := (records.nodeOf _ _).mp targetFound
  simp only [Digraph.node?] at sourceAt targetAt
  simp [Digraph.link, describe, Digraph.node?, sourceAt, targetAt, Resolution.link]

end Records

namespace Draft

structure Records (seen : List MethodId) (placed : List Resolution) (draft : Draft) : Prop where
  callGraph : draft.callGraph.Records seen placed
  edgeOf : ∀ source target id, draft.edgeIndex.lookup (source, target) = some id ↔
    draft.callGraph.graph.Joins source target id

namespace Records

variable {seen : List MethodId} {placed : List Resolution} {draft : Draft}

theorem empty (options : BuildOptions) :
    (⟨CallGraph.empty options, []⟩ : Draft).Records [] [] := by
  refine ⟨⟨Digraph.empty_consistent, rfl, ?_, rfl⟩, ?_⟩
  · simp [CallGraph.empty, nodeOf?, Digraph.empty, Digraph.node?]
  · simp [CallGraph.empty, Digraph.empty, Digraph.Joins, Digraph.edge?]

theorem intern (records : draft.Records seen placed) (method : MethodId) :
    (draft.intern method).1.Records (seen ++ [method]) placed ∧
      (draft.intern method).1.callGraph.nodeOf? method = some (draft.intern method).2 := by
  obtain ⟨recorded, found⟩ := records.callGraph.intern method
  have joins (source target : NodeId) (id : EdgeId) :
      (draft.intern method).1.callGraph.graph.Joins source target id ↔
        draft.callGraph.graph.Joins source target id := by
    simp only [Draft.intern, CallGraph.intern]
    split <;> rfl
  refine ⟨⟨recorded, fun source target id => ?_⟩, found⟩
  rw [joins]
  exact records.edgeOf source target id

theorem count (records : draft.Records seen placed) (target : CallTarget) :
    (draft.count target).Records seen placed :=
  ⟨⟨records.callGraph.consistent, records.callGraph.methods, records.callGraph.nodeOf,
    records.callGraph.edges⟩, records.edgeOf⟩

theorem addSite (records : draft.Records seen placed) (resolution : Resolution)
    {source target : NodeId}
    (sourceFound : draft.callGraph.nodeOf? resolution.1.caller = some source)
    (targetFound : draft.callGraph.nodeOf? resolution.2 = some target) :
    ∃ next, draft.addSite source target resolution.1 = .ok next ∧
      next.Records seen (placed ++ [resolution]) := by
  cases looked : draft.edgeIndex.lookup (source, target) with
  | some id =>
      obtain ⟨data, listed⟩ := (records.edgeOf source target id).mp looked
      have bound := (Array.getElem?_eq_some_iff.mp listed).1
      obtain ⟨changed, modified⟩ : ∃ changed,
          draft.callGraph.graph.modifyEdge? id (· ++ [resolution.1]) = some changed := by
        simp [Digraph.modifyEdge?, bound]
      refine ⟨{ draft with callGraph := { draft.callGraph with graph := changed } },
        by simp [Draft.addSite, looked, modified], ?_, ?_⟩
      · refine records.callGraph.modifyEdge? sourceFound targetFound listed ?_ modified
        intro other joins
        have same := (records.edgeOf source target other).mpr joins
        exact Option.some.inj (same.symm.trans looked)
      · intro left right other
        rw [Digraph.joins_modifyEdge? modified]
        exact records.edgeOf left right other
  | none =>
      have sourceBound := records.callGraph.node_bound sourceFound
      have targetBound := records.callGraph.node_bound targetFound
      have added := Digraph.addEdge_eq_link [resolution.1] sourceBound targetBound
      refine ⟨⟨{ draft.callGraph with
          graph := draft.callGraph.graph.link source target [resolution.1] },
          ((source, target), ⟨draft.callGraph.graph.edgeCount⟩) :: draft.edgeIndex⟩,
        by simp only [Draft.addSite, looked, added]; rfl, ?_, ?_⟩
      · refine records.callGraph.link sourceFound targetFound fun id joins => ?_
        rw [(records.edgeOf source target id).mpr joins] at looked
        cases looked
      · intro left right other
        rw [Digraph.joins_link, ← records.edgeOf, List.lookup_cons]
        by_cases here : (left, right) = (source, target)
        · cases here
          simp [looked, eq_comm]
        · have away : ¬ (source = left ∧ target = right ∧
              other = ⟨draft.callGraph.graph.edgeCount⟩) := by
            rintro ⟨rfl, rfl, _⟩
            exact here rfl
          simp [beq_false_of_ne here, away]

theorem foldlM {ι : Type} {step : Draft → ι → Except GraphError Draft} (ready : Draft → Prop)
    {methods : ι → List MethodId} {resolutions : ι → List Resolution}
    (each : ∀ item seen placed (draft : Draft), draft.Records seen placed → ready draft →
      ∃ next, step draft item = .ok next ∧
        next.Records (seen ++ methods item) (placed ++ resolutions item) ∧ ready next)
    (items : List ι) (records : draft.Records seen placed) (start : ready draft) :
    ∃ next, items.foldlM step draft = .ok next ∧
      next.Records (seen ++ items.flatMap methods) (placed ++ items.flatMap resolutions) ∧
      ready next := by
  induction items generalizing draft seen placed with
  | nil => exact ⟨draft, rfl, by simpa using records, start⟩
  | cons item items ih =>
      obtain ⟨middle, stepped, recorded, still⟩ := each item seen placed draft records start
      obtain ⟨next, folded, recordedAll, last⟩ := ih recorded still
      refine ⟨next, ?_, by simpa using recordedAll, last⟩
      rw [List.foldlM_cons, stepped]
      exact folded

theorem addTarget (records : draft.Records seen placed) (site : CallSite) {source : NodeId}
    (sourceFound : draft.callGraph.nodeOf? site.caller = some source) (target : MethodId) :
    ∃ next, Draft.addTarget source site draft target = .ok next ∧
      next.Records (seen ++ [target]) (placed ++ [(site, target)]) ∧
      next.callGraph.nodeOf? site.caller = some source := by
  obtain ⟨interned, targetFound⟩ := records.intern target
  have stillFound := records.callGraph.nodeOf?_mono interned.callGraph sourceFound
  obtain ⟨next, added, recorded⟩ := interned.addSite (site, target) stillFound targetFound
  exact ⟨next, added, recorded, records.callGraph.nodeOf?_mono recorded.callGraph sourceFound⟩

end Records

end Draft

end CallGraph

namespace BlockCalls

def site (block : BlockCalls) (call : ResolvedCall) : CallSite :=
  ⟨block.caller, block.block, call.statement, call.invocation⟩

def methods (block : BlockCalls) : List MethodId :=
  block.caller :: block.calls.flatMap fun call => call.target.targets

def resolutions (block : BlockCalls) : List Resolution :=
  block.calls.flatMap fun call => call.target.targets.map fun target => (block.site call, target)

end BlockCalls

namespace CallGraph

theorem Draft.Records.addCall {seen : List MethodId} {placed : List Resolution} {draft : Draft}
    (records : draft.Records seen placed) (block : BlockCalls) (call : ResolvedCall)
    {source : NodeId} (sourceFound : draft.callGraph.nodeOf? block.caller = some source) :
    ∃ next, draft.addCall block.caller block.block source call = .ok next ∧
      next.Records (seen ++ call.target.targets)
        (placed ++ call.target.targets.map fun target => (block.site call, target)) ∧
      next.callGraph.nodeOf? block.caller = some source := by
  obtain ⟨next, folded, recorded, found⟩ := (records.count call.target).foldlM
    (fun draft => draft.callGraph.nodeOf? block.caller = some source)
    (fun target _ _ _ records found => records.addTarget (block.site call) found target)
    call.target.targets sourceFound
  refine ⟨next, folded, ?_, found⟩
  simpa [List.map_eq_flatMap] using recorded

theorem Draft.Records.addBlock {seen : List MethodId} {placed : List Resolution} {draft : Draft}
    (records : draft.Records seen placed) (block : BlockCalls) :
    ∃ next, draft.addBlock block = .ok next ∧
      next.Records (seen ++ block.methods) (placed ++ block.resolutions) := by
  obtain ⟨interned, sourceFound⟩ := records.intern block.caller
  obtain ⟨next, folded, recorded, _⟩ := interned.foldlM
    (fun draft => draft.callGraph.nodeOf? block.caller = some _)
    (fun call _ _ _ records found => records.addCall block call found) block.calls sourceFound
  refine ⟨next, folded, ?_⟩
  simpa [BlockCalls.methods, BlockCalls.resolutions] using recorded

/-- Results of whatever blocks can be merged, and the graph records them in their order. -/
theorem merge_records (options : BuildOptions) (blocks : List BlockCalls) :
    ∃ callGraph, merge options blocks = .ok callGraph ∧
      callGraph.Records (blocks.flatMap BlockCalls.methods)
        (blocks.flatMap BlockCalls.resolutions) := by
  obtain ⟨draft, folded, recorded, _⟩ := (Draft.Records.empty options).foldlM (fun _ => True)
    (fun block _ _ _ records _ => by simpa using records.addBlock block) blocks trivial
  refine ⟨draft.callGraph, ?_, by simpa using recorded.callGraph⟩
  rw [merge, folded]
  rfl

end CallGraph

end CallResolution

import CallResolution.Digraph.Basic
import Mathlib.Data.List.Basic

/-!
The edge lists that a graph keeps for its nodes always agree with its edges: they name the
edges at the node, all of them, in the order they were added.
-/

namespace CallResolution.Digraph

variable {α β : Type}

def edgesWhere (graph : Digraph α β) (condition : Edge β → Bool) : List EdgeId :=
  graph.edgeIds.filter fun id => (graph.edge? id).any condition

structure Consistent (graph : Digraph α β) : Prop where
  outgoingIds : ∀ node, graph.outgoingIds node = graph.edgesWhere fun edge => edge.source == node
  incomingIds : ∀ node, graph.incomingIds node = graph.edgesWhere fun edge => edge.target == node
  outgoingSize : graph.outgoing.size = graph.nodeCount
  incomingSize : graph.incoming.size = graph.nodeCount
  endsBound : ∀ edge ∈ graph.edges,
    edge.source.index < graph.nodeCount ∧ edge.target.index < graph.nodeCount

def Joins (graph : Digraph α β) (source target : NodeId) (id : EdgeId) : Prop :=
  ∃ data, graph.edge? id = some ⟨source, target, data⟩

theorem mem_edges_of_edge? {graph : Digraph α β} {id : EdgeId} {edge : Edge β}
    (found : graph.edge? id = some edge) : edge ∈ graph.edges :=
  Array.mem_of_getElem? found

theorem mem_edgesWhere {graph : Digraph α β} {condition : Edge β → Bool} {id : EdgeId} :
    id ∈ graph.edgesWhere condition ↔
      ∃ edge, graph.edge? id = some edge ∧ condition edge = true := by
  rw [edgesWhere, List.mem_filter, Option.any_eq_true]
  refine ⟨fun listed => listed.2, fun satisfied => ⟨?_, satisfied⟩⟩
  obtain ⟨edge, found, _⟩ := satisfied
  exact Handle.mem_upTo.mpr (Array.getElem?_eq_some_iff.mp found).1

theorem edgesWhere_congr {graph other : Digraph α β} {condition : Edge β → Bool}
    (size : other.edgeCount = graph.edgeCount)
    (same : ∀ id, (other.edge? id).any condition = (graph.edge? id).any condition) :
    other.edgesWhere condition = graph.edgesWhere condition := by
  unfold edgesWhere edgeIds
  rw [size]
  exact List.filter_congr fun id _ => same id

theorem filterMap_edgesWhere {γ : Type} (graph : Digraph α β) (condition : Edge β → Bool)
    (view : Edge β → γ) :
    (graph.edgesWhere condition).filterMap (fun id => (graph.edge? id).map view) =
      (graph.edges.toList.filter condition).map view := by
  have entries : graph.edgeIds.filterMap graph.edge? = graph.edges.toList :=
    Handle.filterMap_upTo graph.edges
  rw [← entries, edgesWhere]
  induction graph.edgeIds with
  | nil => rfl
  | cons id ids ih =>
      cases found : graph.edge? id with
      | none => simp [found, ih]
      | some edge => by_cases holds : condition edge <;> simp [found, holds, ih]

theorem length_edgesWhere (graph : Digraph α β) (condition : Edge β → Bool) :
    (graph.edgesWhere condition).length = graph.edges.toList.countP condition := by
  have entries : graph.edgeIds.filterMap graph.edge? = graph.edges.toList :=
    Handle.filterMap_upTo graph.edges
  rw [← entries, List.countP_filterMap, edgesWhere, ← List.countP_eq_length_filter]
  refine List.countP_congr fun id _ => ?_
  cases graph.edge? id <;> simp

theorem edgesWhere_eq_nil {graph : Digraph α β} {condition : Edge β → Bool} :
    graph.edgesWhere condition = [] ↔ ∀ edge ∈ graph.edges, condition edge = false := by
  rw [← List.length_eq_zero_iff, length_edgesWhere, List.countP_eq_zero]
  simp

theorem empty_consistent : (empty : Digraph α β).Consistent := by
  constructor <;> simp [empty, Digraph.outgoingIds, Digraph.incomingIds, edgesWhere, edgeIds,
    edgeCount, nodeCount, Handle.upTo]

theorem addNode_consistent {graph : Digraph α β} (consistent : graph.Consistent) (data : α) :
    (graph.addNode data).1.Consistent := by
  have unchanged (condition : Edge β → Bool) :
      (graph.addNode data).1.edgesWhere condition = graph.edgesWhere condition :=
    edgesWhere_congr rfl fun _ => rfl
  refine ⟨fun node => ?_, fun node => ?_, ?_, ?_, fun edge member => ?_⟩
  · rw [unchanged, ← consistent.outgoingIds]
    simp only [Digraph.outgoingIds, addNode, Array.getElem?_push]
    split <;> simp_all
  · rw [unchanged, ← consistent.incomingIds]
    simp only [Digraph.incomingIds, addNode, Array.getElem?_push]
    split <;> simp_all
  · simpa [addNode, nodeCount] using consistent.outgoingSize
  · simpa [addNode, nodeCount] using consistent.incomingSize
  · have bounds := consistent.endsBound edge member
    simp only [addNode, nodeCount, Array.size_push] at bounds ⊢
    omega

def link (graph : Digraph α β) (source target : NodeId) (data : β) : Digraph α β :=
  { graph with
    edges := graph.edges.push ⟨source, target, data⟩
    outgoing := graph.outgoing.modify source.index (· ++ [⟨graph.edgeCount⟩])
    incoming := graph.incoming.modify target.index (· ++ [⟨graph.edgeCount⟩]) }

theorem addEdge_eq_link {graph : Digraph α β} {source target : NodeId} (data : β)
    (sourceBound : source.index < graph.nodeCount) (targetBound : target.index < graph.nodeCount) :
    graph.addEdge source target data =
      .ok (graph.link source target data, ⟨graph.edgeCount⟩) := by
  simp [addEdge, link, containsNode, sourceBound, targetBound]

theorem edgesWhere_push {graph other : Digraph α β} {edge : Edge β} (condition : Edge β → Bool)
    (pushed : other.edges = graph.edges.push edge) :
    other.edgesWhere condition =
      graph.edgesWhere condition ++ if condition edge then [⟨graph.edgeCount⟩] else [] := by
  have ids : other.edgeIds = graph.edgeIds ++ [⟨graph.edgeCount⟩] := by
    simp [edgeIds, edgeCount, pushed, Handle.upTo, List.range_succ]
  have last : other.edge? ⟨graph.edgeCount⟩ = some edge := by
    simp [edge?, edgeCount, pushed]
  have earlier : ∀ id ∈ graph.edgeIds, other.edge? id = graph.edge? id := by
    intro id member
    have bound : id.index < graph.edges.size := Handle.mem_upTo.mp member
    simp [edge?, pushed, Array.getElem?_push, Nat.ne_of_lt bound]
  rw [edgesWhere, ids, List.filter_append, edgesWhere]
  congr 1
  · exact List.filter_congr fun id member => by rw [earlier id member]
  · by_cases holds : condition edge <;> simp [last, holds]

theorem joins_link {graph : Digraph α β} {source target left right : NodeId} {data : β}
    {id : EdgeId} : (graph.link source target data).Joins left right id ↔
      graph.Joins left right id ∨ source = left ∧ target = right ∧ id = ⟨graph.edgeCount⟩ := by
  simp only [Joins, link, edge?, Array.getElem?_push]
  by_cases last : id = ⟨graph.edgeCount⟩
  · subst last
    simp [edgeCount]
  · have apart : id.index ≠ graph.edges.size := fun equal =>
      last (Handle.eq_of_index_eq equal)
    simp [last, apart]

theorem getD_modify_append {ids : Array (List EdgeId)} {side node : NodeId} {id : EdgeId}
    (bound : side.index < ids.size) :
    ((ids.modify side.index (· ++ [id]))[node.index]?).getD [] =
      (ids[node.index]?).getD [] ++ if side == node then [id] else [] := by
  rw [Array.getElem?_modify]
  by_cases same : side = node
  · subst same
    simp [bound]
  · have apart : side.index ≠ node.index := fun equal => same (Handle.eq_of_index_eq equal)
    simp [same, apart]

theorem link_consistent {graph : Digraph α β} {source target : NodeId} (data : β)
    (consistent : graph.Consistent) (sourceBound : source.index < graph.nodeCount)
    (targetBound : target.index < graph.nodeCount) :
    (graph.link source target data).Consistent := by
  refine ⟨fun node => ?_, fun node => ?_, ?_, ?_, fun edge member => ?_⟩
  · rw [edgesWhere_push _ rfl, ← consistent.outgoingIds]
    exact getD_modify_append (consistent.outgoingSize ▸ sourceBound)
  · rw [edgesWhere_push _ rfl, ← consistent.incomingIds]
    exact getD_modify_append (consistent.incomingSize ▸ targetBound)
  · simpa [link, nodeCount] using consistent.outgoingSize
  · simpa [link, nodeCount] using consistent.incomingSize
  · rcases Array.mem_push.mp member with earlier | last
    · exact consistent.endsBound edge earlier
    · subst last
      exact ⟨sourceBound, targetBound⟩

theorem modifyEdge?_eq_some {graph changed : Digraph α β} {id : EdgeId} {change : β → β}
    (modified : graph.modifyEdge? id change = some changed) :
    changed = { graph with edges := graph.edges.modify id.index fun edge =>
      { edge with data := change edge.data } } := by
  simp only [modifyEdge?] at modified
  split at modified
  · exact (Option.some.inj modified).symm
  · cases modified

theorem edge?_of_modifyEdge? {graph changed : Digraph α β} {id : EdgeId} {change : β → β}
    (modified : graph.modifyEdge? id change = some changed) (other : EdgeId) :
    changed.edge? other = (graph.edge? other).map fun edge =>
      if other = id then { edge with data := change edge.data } else edge := by
  rw [modifyEdge?_eq_some modified, edge?, edge?, Array.getElem?_modify]
  by_cases same : other = id
  · simp [same]
  · have apart : id.index ≠ other.index := fun equal => same (Handle.eq_of_index_eq equal.symm)
    simp [same, apart]

theorem joins_modifyEdge? {graph changed : Digraph α β} {id : EdgeId} {change : β → β}
    (modified : graph.modifyEdge? id change = some changed) {left right : NodeId}
    {other : EdgeId} : changed.Joins left right other ↔ graph.Joins left right other := by
  simp only [Joins, edge?_of_modifyEdge? modified]
  cases graph.edge? other with
  | none => simp
  | some edge =>
      cases edge
      by_cases same : other = id <;> simp [same]

theorem modifyEdge?_consistent {graph changed : Digraph α β} {id : EdgeId} {change : β → β}
    (consistent : graph.Consistent) (modified : graph.modifyEdge? id change = some changed) :
    changed.Consistent := by
  have edges := edge?_of_modifyEdge? modified
  have shape := modifyEdge?_eq_some modified
  have count : changed.nodeCount = graph.nodeCount := by rw [shape]; rfl
  have unchanged {condition : Edge β → Bool} (ends : ∀ edge data,
      condition { edge with data := data } = condition edge) :
      changed.edgesWhere condition = graph.edgesWhere condition := by
    refine edgesWhere_congr (by simp [shape, edgeCount]) fun other => ?_
    rw [edges other]
    cases graph.edge? other with
    | none => rfl
    | some edge => simp only [Option.map_some, Option.any_some]; split <;> simp [ends]
  refine ⟨fun node => ?_, fun node => ?_, ?_, ?_, fun edge member => ?_⟩
  · rw [unchanged fun _ _ => rfl, ← consistent.outgoingIds, shape]
    rfl
  · rw [unchanged fun _ _ => rfl, ← consistent.incomingIds, shape]
    rfl
  · rw [count, ← consistent.outgoingSize, shape]
  · rw [count, ← consistent.incomingSize, shape]
  · rw [count]
    obtain ⟨index, listed⟩ := Array.mem_iff_getElem?.mp member
    have same := (edges ⟨index⟩).symm.trans listed
    obtain ⟨old, found, rfl⟩ := Option.map_eq_some_iff.mp same
    have bounds := consistent.endsBound old (mem_edges_of_edge? found)
    split <;> exact bounds

theorem Consistent.successors_eq {graph : Digraph α β} (consistent : graph.Consistent)
    (node : NodeId) :
    graph.successors node =
      (graph.edges.toList.filter fun edge => edge.source == node).map Edge.target := by
  rw [successors, consistent.outgoingIds, filterMap_edgesWhere]

theorem Consistent.predecessors_eq {graph : Digraph α β} (consistent : graph.Consistent)
    (node : NodeId) :
    graph.predecessors node =
      (graph.edges.toList.filter fun edge => edge.target == node).map Edge.source := by
  rw [predecessors, consistent.incomingIds, filterMap_edgesWhere]

theorem Consistent.mem_successors {graph : Digraph α β} (consistent : graph.Consistent)
    {source target : NodeId} : target ∈ graph.successors source ↔
      ∃ edge ∈ graph.edges, edge.source = source ∧ edge.target = target := by
  rw [consistent.successors_eq]
  simp [and_assoc]

theorem Consistent.mem_predecessors {graph : Digraph α β} (consistent : graph.Consistent)
    {source target : NodeId} : source ∈ graph.predecessors target ↔
      ∃ edge ∈ graph.edges, edge.source = source ∧ edge.target = target := by
  rw [consistent.predecessors_eq]
  simp [and_assoc, and_comm]

theorem Consistent.mem_entryNodes {graph : Digraph α β} (consistent : graph.Consistent)
    {node : NodeId} : node ∈ graph.entryNodes ↔
      node.index < graph.nodeCount ∧ ∀ edge ∈ graph.edges, edge.target ≠ node := by
  rw [entryNodes, List.mem_filter, nodeIds, Handle.mem_upTo, List.isEmpty_iff,
    consistent.incomingIds, edgesWhere_eq_nil]
  simp

theorem Consistent.predecessors_eq_nil {graph : Digraph α β} (consistent : graph.Consistent)
    {node : NodeId} :
    graph.predecessors node = [] ↔ ∀ edge ∈ graph.edges, edge.target ≠ node := by
  rw [consistent.predecessors_eq]
  simp

theorem Consistent.inDegree_eq_zero {graph : Digraph α β} (consistent : graph.Consistent)
    {node : NodeId} :
    graph.inDegree node = 0 ↔ ∀ edge ∈ graph.edges, edge.target ≠ node := by
  rw [inDegree, List.length_eq_zero_iff, consistent.incomingIds, edgesWhere_eq_nil]
  simp

theorem Consistent.joins_of_findEdge? {graph : Digraph α β} (consistent : graph.Consistent)
    {source target : NodeId} {id : EdgeId} (found : graph.findEdge? source target = some id) :
    graph.Joins source target id := by
  rw [findEdge?, consistent.outgoingIds] at found
  obtain ⟨edge, listed, leaves⟩ := mem_edgesWhere.mp (List.mem_of_find?_eq_some found)
  have enters := List.find?_some found
  simp only [listed, Option.any_some, beq_iff_eq] at enters leaves
  exact ⟨edge.data, by rw [listed, ← enters, ← leaves]⟩

theorem Consistent.findEdge?_isSome {graph : Digraph α β} (consistent : graph.Consistent)
    {source target : NodeId} {id : EdgeId} (joins : graph.Joins source target id) :
    (graph.findEdge? source target).isSome = true := by
  obtain ⟨data, listed⟩ := joins
  rw [findEdge?, consistent.outgoingIds, List.find?_isSome]
  exact ⟨id, mem_edgesWhere.mpr ⟨_, listed, by simp⟩, by simp [listed]⟩

end CallResolution.Digraph

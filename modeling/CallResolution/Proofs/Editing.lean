import CallResolution.Proofs.Adjacency
import Mathlib.Algebra.BigOperators.Group.Finset.Basic
import Mathlib.Algebra.GroupWithZero.Nat

/-!
Graphs that come about by editing. Whatever is added or changed, and whatever is refused, the
edge lists of the nodes stay in step with the edges, so every question about the graph can be
answered from them.
-/

namespace CallResolution.Digraph

variable {α β : Type}

inductive Edit (α β : Type) where
  | addNode (data : α)
  | addEdge (source target : NodeId) (data : β)
  | modifyNode (node : NodeId) (change : α → α)
  | modifyEdge (edge : EdgeId) (change : β → β)

/-- What becomes of the graph; a request that is refused leaves it as it is. -/
def edited (graph : Digraph α β) : Edit α β → Digraph α β
  | .addNode data => (graph.addNode data).1
  | .addEdge source target data =>
    match graph.addEdge source target data with
    | .ok (grown, _) => grown
    | .error _ => graph
  | .modifyNode node change => (graph.modifyNode? node change).getD graph
  | .modifyEdge edge change => (graph.modifyEdge? edge change).getD graph

def ofEdits (edits : List (Edit α β)) : Digraph α β :=
  edits.foldl edited empty

theorem ofEdits_concat (edits : List (Edit α β)) (edit : Edit α β) :
    ofEdits (edits ++ [edit]) = (ofEdits edits).edited edit := by
  simp only [ofEdits, List.foldl_append, List.foldl_cons, List.foldl_nil]

section AddEdge

variable {graph : Digraph α β} {source target : NodeId} {data : β}

theorem addEdge_noSource (missing : graph.nodeCount ≤ source.index) :
    graph.addEdge source target data = .error (.noSource source graph.nodeCount) := by
  simp [addEdge, containsNode, Nat.not_lt.mpr missing]

theorem addEdge_noTarget (sourceBound : source.index < graph.nodeCount)
    (missing : graph.nodeCount ≤ target.index) :
    graph.addEdge source target data = .error (.noTarget target graph.nodeCount) := by
  simp [addEdge, containsNode, sourceBound, Nat.not_lt.mpr missing]

theorem addEdge_cases (graph : Digraph α β) (source target : NodeId) (data : β) :
    graph.nodeCount ≤ source.index ∧
        graph.addEdge source target data = .error (.noSource source graph.nodeCount) ∨
      source.index < graph.nodeCount ∧ graph.nodeCount ≤ target.index ∧
        graph.addEdge source target data = .error (.noTarget target graph.nodeCount) ∨
      source.index < graph.nodeCount ∧ target.index < graph.nodeCount ∧
        graph.addEdge source target data =
          .ok (graph.link source target data, ⟨graph.edgeCount⟩) := by
  rcases Nat.lt_or_ge source.index graph.nodeCount with sourceBound | missing
  · rcases Nat.lt_or_ge target.index graph.nodeCount with targetBound | missing
    · exact .inr (.inr ⟨sourceBound, targetBound, addEdge_eq_link data sourceBound targetBound⟩)
    · exact .inr (.inl ⟨sourceBound, missing, addEdge_noTarget sourceBound missing⟩)
  · exact .inl ⟨missing, addEdge_noSource missing⟩

theorem addEdge_refused : (∃ error, graph.addEdge source target data = .error error) ↔
    graph.nodeCount ≤ source.index ∨ graph.nodeCount ≤ target.index := by
  rcases graph.addEdge_cases source target data with
    ⟨missing, refused⟩ | ⟨_, missing, refused⟩ | ⟨sourceBound, targetBound, added⟩
  · simp [refused, missing]
  · simp [refused, missing]
  · simp [added, sourceBound, targetBound]

theorem addEdge_added {grown : Digraph α β} {id : EdgeId}
    (added : graph.addEdge source target data = .ok (grown, id)) :
    id = ⟨graph.edgeCount⟩ ∧ grown.nodes = graph.nodes ∧
      grown.edges = graph.edges.push ⟨source, target, data⟩ := by
  rcases graph.addEdge_cases source target data with
    ⟨_, refused⟩ | ⟨_, _, refused⟩ | ⟨_, _, linked⟩
  · cases refused.symm.trans added
  · cases refused.symm.trans added
  · cases linked.symm.trans added
    exact ⟨rfl, rfl, rfl⟩

end AddEdge

theorem modifyNode?_consistent {graph changed : Digraph α β} {node : NodeId} {change : α → α}
    (consistent : graph.Consistent) (modified : graph.modifyNode? node change = some changed) :
    changed.Consistent := by
  simp only [modifyNode?] at modified
  split at modified
  · cases modified
    have count : (graph.nodes.modify node.index change).size = graph.nodeCount :=
      Array.size_modify
    refine ⟨consistent.outgoingIds, consistent.incomingIds, ?_, ?_, fun edge member => ?_⟩
    · exact consistent.outgoingSize.trans count.symm
    · exact consistent.incomingSize.trans count.symm
    · have bounds := consistent.endsBound edge member
      simp only [nodeCount, Array.size_modify] at bounds ⊢
      exact bounds
  · cases modified

theorem edited_consistent {graph : Digraph α β} (consistent : graph.Consistent)
    (edit : Edit α β) : (graph.edited edit).Consistent := by
  cases edit with
  | addNode data => exact addNode_consistent consistent data
  | addEdge source target data =>
      simp only [edited]
      rcases graph.addEdge_cases source target data with
        ⟨_, refused⟩ | ⟨_, _, refused⟩ | ⟨sourceBound, targetBound, added⟩
      · rw [refused]
        exact consistent
      · rw [refused]
        exact consistent
      · rw [added]
        exact link_consistent data consistent sourceBound targetBound
  | modifyNode node change =>
      simp only [edited]
      cases modified : graph.modifyNode? node change with
      | none => exact consistent
      | some changed => exact modifyNode?_consistent consistent modified
  | modifyEdge edge change =>
      simp only [edited]
      cases modified : graph.modifyEdge? edge change with
      | none => exact consistent
      | some changed => exact modifyEdge?_consistent consistent modified

theorem foldl_edited_consistent {graph : Digraph α β} (consistent : graph.Consistent)
    (edits : List (Edit α β)) : (edits.foldl edited graph).Consistent := by
  induction edits generalizing graph with
  | nil => exact consistent
  | cons edit edits ih => exact ih (edited_consistent consistent edit)

theorem edgesWhere_increasing (graph : Digraph α β) (condition : Edge β → Bool) :
    (graph.edgesWhere condition).Pairwise fun left right => left.index < right.index :=
  (Handle.upTo_increasing graph.edgeCount).filter _

theorem sum_edgesWhere {graph : Digraph α β} {side : Edge β → NodeId}
    (inside : ∀ edge ∈ graph.edges, (side edge).index < graph.nodeCount) :
    (graph.nodeIds.map fun node => (graph.edgesWhere fun edge => side edge == node).length).sum =
      graph.edgeCount := by
  have ends (node : NodeId) : (graph.edgesWhere fun edge => side edge == node).length =
      (graph.edges.toList.map side).count node := by
    rw [length_edgesWhere, List.count, List.countP_map]
    rfl
  have listed (node : NodeId)
      (member : node ∈ (graph.edges.toList.map side : Multiset NodeId)) :
      node ∈ graph.nodeIds.toFinset := by
    obtain ⟨edge, found, rfl⟩ := List.mem_map.mp (Multiset.mem_coe.mp member)
    exact List.mem_toFinset.mpr (Handle.mem_upTo.mpr (inside edge (by simpa using found)))
  have unique : graph.nodeIds.Nodup := Handle.nodup_upTo graph.nodeCount
  have counted := Multiset.sum_count_eq_card listed
  rw [List.sum_toFinset _ unique] at counted
  simpa [ends, edgeCount] using counted

namespace Consistent

variable {graph : Digraph α β} (consistent : graph.Consistent)

include consistent

theorem sum_outDegree : (graph.nodeIds.map graph.outDegree).sum = graph.edgeCount := by
  have degree (node : NodeId) : graph.outDegree node =
      (graph.edgesWhere fun edge => edge.source == node).length := by
    rw [outDegree, consistent.outgoingIds]
  rw [funext degree]
  exact sum_edgesWhere fun edge member => (consistent.endsBound edge member).1

theorem sum_inDegree : (graph.nodeIds.map graph.inDegree).sum = graph.edgeCount := by
  have degree (node : NodeId) : graph.inDegree node =
      (graph.edgesWhere fun edge => edge.target == node).length := by
    rw [inDegree, consistent.incomingIds]
  rw [funext degree]
  exact sum_edgesWhere fun edge member => (consistent.endsBound edge member).2

theorem count_successors (source target : NodeId) :
    (graph.successors source).count target = (graph.predecessors target).count source := by
  rw [consistent.successors_eq, consistent.predecessors_eq, List.count, List.count,
    List.countP_map, List.countP_map, List.countP_filter, List.countP_filter]
  exact List.countP_congr fun edge _ => by simp [and_comm]

theorem mem_exitNodes {node : NodeId} : node ∈ graph.exitNodes ↔
    node.index < graph.nodeCount ∧ ∀ edge ∈ graph.edges, edge.source ≠ node := by
  rw [exitNodes, List.mem_filter, nodeIds, Handle.mem_upTo, List.isEmpty_iff,
    consistent.outgoingIds, edgesWhere_eq_nil]
  simp

theorem findEdge?_le {source target : NodeId} {id other : EdgeId}
    (found : graph.findEdge? source target = some id) (joins : graph.Joins source target other) :
    id.index ≤ other.index := by
  obtain ⟨data, listed⟩ := joins
  have increasing := graph.edgesWhere_increasing fun edge => edge.source == source
  have member : other ∈ graph.edgesWhere fun edge => edge.source == source :=
    mem_edgesWhere.mpr ⟨_, listed, by simp⟩
  rw [findEdge?, consistent.outgoingIds] at found
  obtain ⟨_, before, after, split, passed⟩ := List.find?_eq_some_iff_append.mp found
  rw [split] at increasing member
  rcases List.mem_append.mp member with earlier | later
  · have elsewhere := passed other earlier
    simp [listed] at elsewhere
  · rcases List.mem_cons.mp later with same | further
    · exact Nat.le_of_eq (congrArg Handle.index same.symm)
    · have ordered := (List.pairwise_append.mp increasing).2.1
      exact Nat.le_of_lt ((List.pairwise_cons.mp ordered).1 other further)

theorem findEdge?_eq_some {source target : NodeId} {id : EdgeId} :
    graph.findEdge? source target = some id ↔ graph.Joins source target id ∧
      ∀ other, graph.Joins source target other → id.index ≤ other.index := by
  constructor
  · intro found
    exact ⟨consistent.joins_of_findEdge? found, fun other => consistent.findEdge?_le found⟩
  · rintro ⟨joins, least⟩
    obtain ⟨first, found⟩ := Option.isSome_iff_exists.mp (consistent.findEdge?_isSome joins)
    have below := consistent.findEdge?_le found joins
    have above := least first (consistent.joins_of_findEdge? found)
    rw [found, Handle.eq_of_index_eq (Nat.le_antisymm below above)]

theorem findEdge?_eq_none {source target : NodeId} :
    graph.findEdge? source target = none ↔ ∀ id, ¬ graph.Joins source target id := by
  constructor
  · intro nothing id joins
    have some := consistent.findEdge?_isSome joins
    simp [nothing] at some
  · intro apart
    cases found : graph.findEdge? source target with
    | none => rfl
    | some id => exact absurd (consistent.joins_of_findEdge? found) (apart id)

theorem length_successors (node : NodeId) :
    (graph.successors node).length = graph.outDegree node := by
  rw [consistent.successors_eq, outDegree, consistent.outgoingIds, length_edgesWhere,
    List.length_map, List.countP_eq_length_filter]

theorem length_predecessors (node : NodeId) :
    (graph.predecessors node).length = graph.inDegree node := by
  rw [consistent.predecessors_eq, inDegree, consistent.incomingIds, length_edgesWhere,
    List.length_map, List.countP_eq_length_filter]

theorem outgoingEdges_fst (node : NodeId) :
    (graph.outgoingEdges node).map Prod.fst = graph.outgoingIds node := by
  have found : ∀ id ∈ graph.outgoingIds node,
      ((graph.edge? id).map fun edge => (id, edge)).map Prod.fst = some id := by
    intro id member
    rw [consistent.outgoingIds] at member
    obtain ⟨edge, listed, _⟩ := mem_edgesWhere.mp member
    simp [listed]
  rw [outgoingEdges, List.map_filterMap, List.filterMap_congr found, List.filterMap_some]

theorem mem_outgoingIds {node : NodeId} {id : EdgeId} :
    id ∈ graph.outgoingIds node ↔ ∃ edge, graph.edge? id = some edge ∧ edge.source = node := by
  rw [consistent.outgoingIds, mem_edgesWhere]
  simp

theorem mem_incomingIds {node : NodeId} {id : EdgeId} :
    id ∈ graph.incomingIds node ↔ ∃ edge, graph.edge? id = some edge ∧ edge.target = node := by
  rw [consistent.incomingIds, mem_edgesWhere]
  simp

end Consistent

/-- The edge lists of the nodes say what the edges say, and every question is answered by it. -/
structure Indexed (graph : Digraph α β) : Prop where
  outgoingSize : graph.outgoing.size = graph.nodeCount
  incomingSize : graph.incoming.size = graph.nodeCount
  outgoingOrder : ∀ node,
    (graph.outgoingIds node).Pairwise fun left right => left.index < right.index
  incomingOrder : ∀ node,
    (graph.incomingIds node).Pairwise fun left right => left.index < right.index
  outgoing : ∀ node id,
    id ∈ graph.outgoingIds node ↔ ∃ edge, graph.edge? id = some edge ∧ edge.source = node
  incoming : ∀ node id,
    id ∈ graph.incomingIds node ↔ ∃ edge, graph.edge? id = some edge ∧ edge.target = node
  ends : ∀ edge ∈ graph.edges,
    edge.source.index < graph.nodeCount ∧ edge.target.index < graph.nodeCount
  inRange : ∀ node, ∀ id ∈ graph.outgoingIds node ++ graph.incomingIds node,
    id.index < graph.edgeCount
  lookups : ∀ node, (graph.successors node).length = graph.outDegree node ∧
    (graph.predecessors node).length = graph.inDegree node ∧
    (graph.outgoingEdges node).map Prod.fst = graph.outgoingIds node
  multiplicity : ∀ source target,
    (graph.successors source).count target = (graph.predecessors target).count source
  outDegrees : (graph.nodeIds.map graph.outDegree).sum = graph.edgeCount
  inDegrees : (graph.nodeIds.map graph.inDegree).sum = graph.edgeCount
  entryNodes : ∀ node, node ∈ graph.entryNodes ↔
    node.index < graph.nodeCount ∧ ∀ edge ∈ graph.edges, edge.target ≠ node
  exitNodes : ∀ node, node ∈ graph.exitNodes ↔
    node.index < graph.nodeCount ∧ ∀ edge ∈ graph.edges, edge.source ≠ node
  firstEdge : ∀ source target id, graph.findEdge? source target = some id ↔
    graph.Joins source target id ∧
      ∀ other, graph.Joins source target other → id.index ≤ other.index
  noEdge : ∀ source target, graph.findEdge? source target = none ↔
    ∀ id, ¬ graph.Joins source target id

theorem Consistent.indexed {graph : Digraph α β} (consistent : graph.Consistent) :
    graph.Indexed where
  outgoingSize := consistent.outgoingSize
  incomingSize := consistent.incomingSize
  outgoingOrder node := by
    rw [consistent.outgoingIds]
    exact graph.edgesWhere_increasing _
  incomingOrder node := by
    rw [consistent.incomingIds]
    exact graph.edgesWhere_increasing _
  outgoing _ _ := consistent.mem_outgoingIds
  incoming _ _ := consistent.mem_incomingIds
  ends := consistent.endsBound
  inRange node id member := by
    have found : ∃ edge, graph.edge? id = some edge := by
      rcases List.mem_append.mp member with leaving | entering
      · obtain ⟨edge, listed, _⟩ := consistent.mem_outgoingIds.mp leaving
        exact ⟨edge, listed⟩
      · obtain ⟨edge, listed, _⟩ := consistent.mem_incomingIds.mp entering
        exact ⟨edge, listed⟩
    obtain ⟨edge, listed⟩ := found
    exact (Array.getElem?_eq_some_iff.mp listed).1
  lookups node := ⟨consistent.length_successors node, consistent.length_predecessors node,
    consistent.outgoingEdges_fst node⟩
  multiplicity := consistent.count_successors
  outDegrees := consistent.sum_outDegree
  inDegrees := consistent.sum_inDegree
  entryNodes _ := consistent.mem_entryNodes
  exitNodes _ := consistent.mem_exitNodes
  firstEdge _ _ _ := consistent.findEdge?_eq_some
  noEdge _ _ := consistent.findEdge?_eq_none

/-- Every graph that comes about by editing is indexed. An edge is refused exactly if an end is
missing, the source being looked at first, and then the graph stays as it is. -/
theorem edits_indexed (edits : List (Edit α β)) (source target : NodeId) (data : β) :
    let graph := ofEdits edits
    let answer := graph.addEdge source target data
    let after := ofEdits (edits ++ [.addEdge source target data])
    graph.Indexed ∧
    ((∃ error, answer = .error error) ↔
      graph.nodeCount ≤ source.index ∨ graph.nodeCount ≤ target.index) ∧
    (graph.nodeCount ≤ source.index → answer = .error (.noSource source graph.nodeCount)) ∧
    (source.index < graph.nodeCount → graph.nodeCount ≤ target.index →
      answer = .error (.noTarget target graph.nodeCount)) ∧
    (∀ error, answer = .error error → after = graph) ∧
    ∀ grown id, answer = .ok (grown, id) → after = grown ∧ id = ⟨graph.edgeCount⟩ ∧
      grown.nodes = graph.nodes ∧ grown.edges = graph.edges.push ⟨source, target, data⟩ := by
  intro graph answer after
  have indexed : graph.Indexed := (foldl_edited_consistent empty_consistent edits).indexed
  have last : after = graph.edited (.addEdge source target data) := ofEdits_concat edits _
  refine ⟨indexed, addEdge_refused, addEdge_noSource, addEdge_noTarget, ?_, ?_⟩
  · intro error refused
    have kept : graph.addEdge source target data = .error error := refused
    rw [last, edited, kept]
  · intro grown id added
    have replaced : graph.addEdge source target data = .ok (grown, id) := added
    refine ⟨?_, addEdge_added added⟩
    rw [last, edited, replaced]

def refusedEdits : List (Edit Nat Nat) :=
  [.addNode 5, .addNode 6, .addEdge ⟨0⟩ ⟨1⟩ 7, .addEdge ⟨2⟩ ⟨0⟩ 1, .addEdge ⟨1⟩ ⟨1⟩ 8,
    .addEdge ⟨0⟩ ⟨1⟩ 9, .addEdge ⟨1⟩ ⟨18446744073709551615⟩ 1, .modifyNode ⟨1⟩ (· + 1),
    .modifyNode ⟨2⟩ (· + 1), .modifyEdge ⟨0⟩ (· * 2), .modifyEdge ⟨3⟩ (· * 2)]

theorem edits_indexed_refused :
    let graph := ofEdits refusedEdits
    graph.Indexed ∧ graph.nodeCount = 2 ∧ graph.edgeCount = 3 ∧
    graph.successors ⟨0⟩ = [⟨1⟩, ⟨1⟩] ∧ graph.predecessors ⟨1⟩ = [⟨0⟩, ⟨1⟩, ⟨0⟩] ∧
    graph.findEdge? ⟨0⟩ ⟨1⟩ = some ⟨0⟩ ∧
    graph.addEdge ⟨3⟩ ⟨4⟩ 1 = .error (.noSource ⟨3⟩ 2) ∧
    graph.addEdge ⟨0⟩ ⟨4⟩ 1 = .error (.noTarget ⟨4⟩ 2) ∧
    ofEdits (refusedEdits ++ [.addEdge ⟨0⟩ ⟨4⟩ 1]) = graph := by
  intro graph
  obtain ⟨indexed, _, noSource, _⟩ := edits_indexed refusedEdits ⟨3⟩ ⟨4⟩ 1
  obtain ⟨_, _, _, noTarget, unchanged, _⟩ := edits_indexed refusedEdits ⟨0⟩ ⟨4⟩ 1
  have refused := noTarget (by decide) (by decide)
  exact ⟨indexed, by decide, by decide, by decide, by decide, by decide, noSource (by decide),
    refused, unchanged _ refused⟩

end CallResolution.Digraph

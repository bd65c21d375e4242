import CallResolution.Proofs.Distinct
import CallResolution.Proofs.Editing
import CallResolution.Proofs.Traversal

/-!
Distances in a graph. Breadth-first search lists nearer nodes before farther ones, and the nodes up
to a given distance make up the beginning of its list. Both searches can be carried out with an
array of marks, one for each node, and never look for a mark outside of it.
-/

namespace CallResolution

namespace Search

variable {α : Type} {next : α → List α} {start goal : α} {steps : List α}

structure Distance (next : α → List α) (start goal : α) (length : Nat) : Prop where
  attained : ∃ steps, Route next start goal steps ∧ steps.length = length
  least : ∀ steps, Route next start goal steps → length ≤ steps.length

theorem Route.exists_distance (route : Route next start goal steps) :
    ∃ length, length ≤ steps.length ∧ Distance next start goal length := by
  induction size : steps.length using Nat.strongRecOn generalizing steps with
  | ind length ih =>
      by_cases shortest : ∀ other, Route next start goal other → length ≤ other.length
      · exact ⟨length, Nat.le_refl _, ⟨steps, route, size⟩, shortest⟩
      · push Not at shortest
        obtain ⟨other, leads, shorter⟩ := shortest
        obtain ⟨least, bound, distance⟩ := ih other.length shorter leads rfl
        exact ⟨least, by omega, distance⟩

theorem exists_route_within {depth : Nat} :
    (∃ steps, Route next start goal steps ∧ steps.length ≤ depth) ↔
      ∃ length, length ≤ depth ∧ Distance next start goal length := by
  constructor
  · rintro ⟨steps, route, short⟩
    obtain ⟨length, bound, distance⟩ := route.exists_distance
    exact ⟨length, by omega, distance⟩
  · rintro ⟨length, bound, distance⟩
    obtain ⟨steps, route, same⟩ := distance.attained
    exact ⟨steps, route, by omega⟩

theorem pairwise_of_prefixes {items : List α} (unique : items.Nodup) {beginning : Nat → List α}
    (begins : ∀ length, beginning length <+: items) :
    items.Pairwise fun left right =>
      ∀ length, right ∈ beginning length → left ∈ beginning length := by
  rw [List.pairwise_iff_getElem]
  intro first second firstBound secondBound before length listed
  obtain ⟨position, inside, same⟩ := List.mem_iff_getElem.mp listed
  have bound := (begins length).length_le
  rw [(begins length).getElem inside] at same
  have here : position = second := (List.Nodup.getElem_inj_iff unique).mp same
  rw [← (begins length).getElem (by omega : first < (beginning length).length)]
  exact List.getElem_mem _

variable [DecidableEq α]

theorem layers_unvisited {depth : Nat} {layer unvisited : List α} {node : α}
    (listed : node ∈ layers next depth layer unvisited) : node ∈ unvisited := by
  induction depth generalizing layer unvisited with
  | zero => simp [layers] at listed
  | succ depth ih =>
      rw [layers_succ] at listed
      rcases List.mem_append.mp listed with found | later
      · exact (mem_fresh.mp found).2
      · exact (mem_without.mp (ih later)).1

theorem nodup_layers (depth : Nat) (layer unvisited : List α) :
    (layers next depth layer unvisited).Nodup := by
  induction depth generalizing layer unvisited with
  | zero => simp [layers]
  | succ depth ih =>
      rw [layers_succ, List.nodup_append]
      refine ⟨nodup_eraseDups _, ih _ _, ?_⟩
      rintro node found other listed rfl
      exact (mem_without.mp (layers_unvisited listed)).2 found

theorem layers_mono {depth deeper : Nat} (bound : depth ≤ deeper) (layer unvisited : List α) :
    layers next depth layer unvisited <+: layers next deeper layer unvisited := by
  induction depth generalizing deeper layer unvisited with
  | zero => simp [layers]
  | succ depth ih =>
      cases deeper with
      | zero => omega
      | succ deeper =>
          rw [layers_succ, layers_succ, List.prefix_append_right_inj]
          exact ih (by omega) _ _

theorem fresh_cons (unvisited : List α) (node : α) (nodes : List α) :
    fresh unvisited (node :: nodes) =
      if node ∈ unvisited then node :: fresh (without unvisited [node]) nodes
      else fresh unvisited nodes := by
  have alone : fresh unvisited [node] = if node ∈ unvisited then [node] else [] := by
    by_cases member : node ∈ unvisited <;> simp [fresh, member, List.eraseDups_cons]
  rw [← List.singleton_append, fresh_append, alone]
  split <;> simp

end Search

namespace Marks

open Search

/-- Looks at one node after the other. Those without a mark are marked and kept. There is no
answer if a node has no place in the array. -/
def mark : List NodeId → Array Bool → Option (List NodeId × Array Bool)
  | [], marks => some ([], marks)
  | node :: nodes, marks => do
    let marked ← marks[node.index]?
    if marked then mark nodes marks
    else
      let (found, later) ← mark nodes (marks.setIfInBounds node.index true)
      some (node :: found, later)

def initial (count : Nat) (start : NodeId) : Array Bool :=
  (Array.replicate count false).setIfInBounds start.index true

/-- A queue is worked off from its front. Each node it yields first puts the unmarked nodes that
follow it at the end. -/
inductive Yields (next : NodeId → List NodeId) : List NodeId → Array Bool → List NodeId → Prop
  | done {marks} : Yields next [] marks []
  | take {node queue marks found later rest} : mark (next node) marks = some (found, later) →
      Yields next (queue ++ found) later rest → Yields next (node :: queue) marks (node :: rest)

def reach (next : NodeId → List NodeId) :
    Nat → List NodeId → List NodeId → Array Bool → Option (List NodeId)
  | 0, reached, _, _ => some reached
  | depth + 1, reached, layer, marks => do
    let (found, later) ← mark (layer.flatMap next) marks
    if found.isEmpty then some reached else reach next depth (reached ++ found) found later

structure Tracks (count : Nat) (unvisited : List NodeId) (marks : Array Bool) : Prop where
  size : marks.size = count
  marked : ∀ node : NodeId, node.index < count →
    marks[node.index]? = some (decide (node ∉ unvisited))

variable {count : Nat} {unvisited : List NodeId} {marks : Array Bool}

theorem Tracks.visit (tracks : Tracks count unvisited marks) (node : NodeId) :
    Tracks count (without unvisited [node]) (marks.setIfInBounds node.index true) := by
  refine ⟨by simp [tracks.size], ?_⟩
  intro other bound
  rw [Array.getElem?_setIfInBounds]
  by_cases same : other = node
  · subst same
    simp [tracks.size, bound]
  · have apart : node.index ≠ other.index := fun equal => same (Handle.eq_of_index_eq equal.symm)
    simp [apart, same, tracks.marked other bound]

theorem tracks_initial (count : Nat) (start : NodeId) :
    Tracks count (without (Handle.upTo .nodes count) [start]) (initial count start) := by
  have unmarked : Tracks count (Handle.upTo .nodes count) (Array.replicate count false) := by
    refine ⟨by simp, ?_⟩
    intro node bound
    simp [bound]
  exact unmarked.visit start

theorem mark_eq {nodes : List NodeId} (tracks : Tracks count unvisited marks)
    (inside : ∀ node ∈ nodes, node.index < count) :
    ∃ later, mark nodes marks = some (fresh unvisited nodes, later) ∧
      Tracks count (without unvisited (fresh unvisited nodes)) later := by
  induction nodes generalizing unvisited marks with
  | nil => exact ⟨marks, by simp [mark, fresh], by simpa [fresh] using tracks⟩
  | cons node nodes ih =>
      have looked := tracks.marked node (inside node (by simp))
      have rest : ∀ other ∈ nodes, other.index < count := by
        intro other member
        exact inside other (by simp [member])
      rw [fresh_cons]
      by_cases member : node ∈ unvisited
      · obtain ⟨later, marked, kept⟩ := ih (tracks.visit node) rest
        refine ⟨later, ?_, ?_⟩
        · simp [mark, looked, member, marked]
        · rw [if_pos member, ← List.singleton_append, ← without_without]
          exact kept
      · obtain ⟨later, marked, kept⟩ := ih tracks rest
        refine ⟨later, ?_, ?_⟩
        · simp [mark, looked, member, marked]
        · rw [if_neg member]
          exact kept

variable {next : NodeId → List NodeId}

theorem yields_breadthFirst (inside : ∀ node, ∀ after ∈ next node, after.index < count)
    (tracks : Tracks count unvisited marks) (queue : List NodeId) :
    Yields next queue marks (breadthFirst next queue unvisited) := by
  fun_induction breadthFirst next queue unvisited generalizing marks with
  | case1 => exact .done
  | case2 node queue unvisited ih =>
      obtain ⟨later, marked, kept⟩ := mark_eq tracks (inside node)
      exact .take marked (ih kept)

theorem reach_eq (inside : ∀ node, ∀ after ∈ next node, after.index < count)
    (tracks : Tracks count unvisited marks) (depth : Nat) (reached layer : List NodeId) :
    reach next depth reached layer marks =
      some (reached ++ layers next depth layer unvisited) := by
  induction depth generalizing reached layer unvisited marks with
  | zero => simp [reach, layers]
  | succ depth ih =>
      have followed : ∀ node ∈ layer.flatMap next, node.index < count := by
        intro node member
        obtain ⟨before, _, edge⟩ := List.mem_flatMap.mp member
        exact inside before node edge
      obtain ⟨later, marked, kept⟩ := mark_eq tracks followed
      simp only [reach, layers, marked, Option.bind_eq_bind, Option.bind_some]
      split
      · simp
      · rw [ih kept, List.append_assoc]

end Marks

namespace GraphView

open Search

variable {view : GraphView} {start node : NodeId}

theorem bfsWithin_mono {depth deeper : Nat} (bound : depth ≤ deeper) (start : NodeId) :
    view.bfsWithin start depth <+: view.bfsWithin start deeper := by
  unfold bfsWithin
  split
  · exact (List.prefix_cons_inj start).mpr (layers_mono bound _ _)
  · exact List.prefix_rfl

theorem bfsWithin_begins (depth : Nat) (start : NodeId) :
    view.bfsWithin start depth <+: view.bfs start := by
  rw [bfs_eq_bfsWithin (Nat.le_max_left _ depth)]
  exact bfsWithin_mono (Nat.le_max_right _ _) start

theorem nodup_bfs (view : GraphView) (start : NodeId) : (view.bfs start).Nodup := by
  rw [bfs_eq_bfsWithin (Nat.le_refl _), bfsWithin]
  split
  · refine List.nodup_cons.mpr ⟨fun again => ?_, nodup_layers _ _ _⟩
    simpa using layers_unvisited again
  · exact List.nodup_nil

/-- Breadth-first search from a node, judged by what it lists and in which order, and by how it is
carried out with marks. -/
structure SearchesByDistance (view : GraphView) (start : NodeId) : Prop where
  inside : ∀ node, ∀ after ∈ view.successors node, after.index < view.nodeCount
  yields : Marks.Yields view.successors [start] (Marks.initial view.nodeCount start)
    (view.bfs start)
  reaches : ∀ depth, Marks.reach view.successors depth [start] [start]
    (Marks.initial view.nodeCount start) = some (view.bfsWithin start depth)
  starts : (view.bfs start).head? = some start
  unique : (view.bfs start).Nodup
  reachable : ∀ node, node ∈ view.bfs start ↔ ∃ steps, Route view.successors start node steps
  measured : ∀ node ∈ view.bfs start, ∃ length, Distance view.successors start node length
  ordered : (view.bfs start).Pairwise fun left right => ∀ near far,
    Distance view.successors start left near → Distance view.successors start right far →
      near ≤ far
  begins : ∀ depth, view.bfsWithin start depth <+: view.bfs start
  within : ∀ depth node, node ∈ view.bfsWithin start depth ↔
    ∃ length, length ≤ depth ∧ Distance view.successors start node length
  grows : ∀ depth deeper, depth ≤ deeper →
    view.bfsWithin start depth <+: view.bfsWithin start deeper
  whole : ∀ depth, view.nodeCount - 1 ≤ depth → view.bfsWithin start depth = view.bfs start

theorem Coherent.searchesByDistance (coherent : view.Coherent)
    (bound : start.index < view.nodeCount) : view.SearchesByDistance start := by
  have inside : ∀ node, ∀ after ∈ view.successors node, after.index < view.nodeCount :=
    coherent.targetBound
  have tracks := Marks.tracks_initial view.nodeCount start
  have reachable : ∀ node, node ∈ view.bfs start ↔
      ∃ steps, Route view.successors start node steps := by
    intro node
    rw [coherent.mem_bfs]
    exact and_iff_right bound
  have within : ∀ depth node, node ∈ view.bfsWithin start depth ↔
      ∃ length, length ≤ depth ∧ Distance view.successors start node length := by
    intro depth node
    rw [coherent.mem_bfsWithin, exists_route_within]
    exact and_iff_right bound
  refine ⟨inside, ?_, ?_, ?_, view.nodup_bfs start, reachable, ?_, ?_,
    fun depth => bfsWithin_begins depth start, within,
    fun depth deeper deep => bfsWithin_mono deep start,
    fun depth enough => (bfs_eq_bfsWithin enough start).symm⟩
  · rw [bfs, if_pos bound]
    exact Marks.yields_breadthFirst inside tracks [start]
  · intro depth
    rw [bfsWithin, if_pos bound]
    exact Marks.reach_eq inside tracks depth [start] [start]
  · rw [bfs_eq_bfsWithin (Nat.le_refl _), bfsWithin, if_pos bound]
    rfl
  · intro node listed
    obtain ⟨steps, route⟩ := (reachable node).mp listed
    obtain ⟨length, _, distance⟩ := route.exists_distance
    exact ⟨length, distance⟩
  · -- what is listed up to the distance of the later node holds the earlier one as well
    refine (pairwise_of_prefixes (view.nodup_bfs start)
      fun depth => bfsWithin_begins depth start).imp ?_
    intro left right earlier near far nearer farther
    have listed := earlier far ((within far right).mpr ⟨far, Nat.le_refl _, farther⟩)
    obtain ⟨length, short, distance⟩ := (within far left).mp listed
    obtain ⟨steps, route, same⟩ := distance.attained
    have least := nearer.least steps route
    omega

end GraphView

namespace Digraph

variable {α β : Type}

theorem searches_by_distance (edits : List (Edit α β)) {start : NodeId}
    (bound : start.index < (ofEdits edits).nodeCount) :
    let graph := ofEdits edits
    graph.view.SearchesByDistance start ∧ graph.view.reverse.SearchesByDistance start ∧
    (∀ node, graph.view.successors node =
      (graph.edges.toList.filter fun edge => edge.source == node).map Edge.target) ∧
    ∀ node, graph.view.reverse.successors node =
      (graph.edges.toList.filter fun edge => edge.target == node).map Edge.source := by
  intro graph
  have consistent : graph.Consistent := foldl_edited_consistent empty_consistent edits
  have coherent := consistent.view_coherent
  exact ⟨coherent.searchesByDistance bound, coherent.reverse.searchesByDistance bound,
    consistent.successors_eq, consistent.predecessors_eq⟩

def detourEdits : List (Edit Nat Nat) :=
  [.addNode 0, .addNode 1, .addNode 2, .addNode 3, .addNode 4, .addEdge ⟨0⟩ ⟨2⟩ 0,
    .addEdge ⟨0⟩ ⟨1⟩ 0, .addEdge ⟨2⟩ ⟨3⟩ 0, .addEdge ⟨2⟩ ⟨3⟩ 0, .addEdge ⟨1⟩ ⟨1⟩ 0,
    .addEdge ⟨1⟩ ⟨2⟩ 0, .addEdge ⟨3⟩ ⟨0⟩ 0, .addEdge ⟨4⟩ ⟨3⟩ 0]

theorem searches_by_distance_detour :
    let graph := ofEdits detourEdits
    (⟨0⟩ : NodeId).index < graph.nodeCount ∧ graph.view.SearchesByDistance ⟨0⟩ ∧
    graph.view.bfsWithin ⟨0⟩ 1 = [⟨0⟩, ⟨2⟩, ⟨1⟩] ∧
    graph.view.bfs ⟨0⟩ = [⟨0⟩, ⟨2⟩, ⟨1⟩, ⟨3⟩] ∧
    graph.view.reverse.SearchesByDistance ⟨0⟩ ∧
    graph.view.reverse.bfsWithin ⟨0⟩ 1 = [⟨0⟩, ⟨3⟩] ∧
    graph.view.reverse.bfs ⟨0⟩ = [⟨0⟩, ⟨3⟩, ⟨2⟩, ⟨4⟩, ⟨1⟩] := by
  intro graph
  have bound : (⟨0⟩ : NodeId).index < graph.nodeCount := by decide
  obtain ⟨forward, backward, _⟩ := searches_by_distance detourEdits bound
  refine ⟨bound, forward, by decide, ?_, backward, by decide, ?_⟩
  · rw [← forward.whole 4 (by decide)]
    decide
  · rw [← backward.whole 4 (by decide)]
    decide

end Digraph

end CallResolution

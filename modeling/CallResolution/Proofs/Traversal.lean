import CallResolution.Digraph.View
import CallResolution.Proofs.Adjacency
import CallResolution.Proofs.Layers

/-!
Searching a graph in both directions. Over a view whose two directions agree, the searches find
what can be reached, and what is found forwards from a node is where it is found backwards.
-/

namespace CallResolution

/-- Successors and predecessors tell of the same edges, all between nodes of the graph. -/
structure GraphView.Coherent (view : GraphView) : Prop where
  converse : ∀ source target, target ∈ view.successors source ↔ source ∈ view.predecessors target
  sourceBound : ∀ source target, target ∈ view.successors source → source.index < view.nodeCount
  targetBound : ∀ source target, target ∈ view.successors source → target.index < view.nodeCount

namespace GraphView

open Search

variable {view : GraphView} {start node : NodeId}

theorem Coherent.reverse (coherent : view.Coherent) : view.reverse.Coherent where
  converse source target := (coherent.converse target source).symm
  sourceBound source target edge :=
    coherent.targetBound target source ((coherent.converse target source).mpr edge)
  targetBound source target edge :=
    coherent.sourceBound target source ((coherent.converse target source).mpr edge)

theorem Coherent.inside (coherent : view.Coherent) (source : NodeId) :
    ∀ target ∈ view.successors source, target ∈ view.nodeIds :=
  fun target edge => Handle.mem_upTo.mpr (coherent.targetBound source target edge)

theorem Coherent.mem_bfsWithin (coherent : view.Coherent) {depth : Nat} :
    node ∈ view.bfsWithin start depth ↔ start.index < view.nodeCount ∧
      ∃ steps, Route view.successors start node steps ∧ steps.length ≤ depth := by
  unfold bfsWithin
  split
  · rename_i bound
    rw [List.mem_cons, mem_layers]
    constructor
    · rintro (here | ⟨origin, listed, steps, route, _, _, short⟩)
      · exact ⟨bound, [], here.symm, by simp⟩
      · rw [List.mem_singleton.mp listed] at route
        exact ⟨bound, steps, route, short⟩
    · rintro ⟨_, steps, route, short⟩
      obtain ⟨rest, leads, shorter, _, away⟩ := route.leaves_start
      by_cases arrived : rest = []
      · subst arrived
        exact .inl (Eq.symm leads)
      · refine .inr ⟨start, by simp, rest, leads, arrived, fun other step => ?_, by omega⟩
        refine mem_without.mpr ⟨leads.inside coherent.inside step, fun back => away ?_⟩
        exact List.mem_singleton.mp back ▸ step
  · rename_i foreign
    simp [foreign]

theorem bfs_eq_bfsWithin {depth : Nat} (enough : view.nodeCount - 1 ≤ depth) (start : NodeId) :
    view.bfs start = view.bfsWithin start depth := by
  unfold bfs bfsWithin
  split
  · rename_i bound
    have listed : start ∈ view.nodeIds := Handle.mem_upTo.mpr bound
    -- every layer visits a node or is the last, and the start is visited already
    have fewer := length_without_lt listed (List.mem_singleton_self start)
    rw [nodeIds, Handle.length_upTo] at fewer
    exact breadthFirst_eq_layers [start] (by rw [nodeIds]; omega)
  · rfl

theorem Coherent.mem_bfs (coherent : view.Coherent) :
    node ∈ view.bfs start ↔ start.index < view.nodeCount ∧
      ∃ steps, Route view.successors start node steps := by
  constructor
  · intro found
    rw [bfs_eq_bfsWithin (Nat.le_refl _), coherent.mem_bfsWithin] at found
    obtain ⟨bound, steps, route, _⟩ := found
    exact ⟨bound, steps, route⟩
  · rintro ⟨bound, steps, route⟩
    rw [bfs_eq_bfsWithin (Nat.le_max_left _ steps.length), coherent.mem_bfsWithin]
    exact ⟨bound, steps, route, Nat.le_max_right _ _⟩

theorem Coherent.mem_reverse_bfs (coherent : view.Coherent) (found : node ∈ view.bfs start) :
    start ∈ view.reverse.bfs node := by
  obtain ⟨bound, steps, route⟩ := coherent.mem_bfs.mp found
  have goalBound : node ∈ view.nodeIds :=
    route.goal_inside coherent.inside (Handle.mem_upTo.mpr bound)
  obtain ⟨back, leads⟩ := route.reverse fun source target edge =>
    (coherent.converse source target).mp edge
  exact coherent.reverse.mem_bfs.mpr ⟨Handle.mem_upTo.mp goalBound, back, leads⟩

theorem Coherent.exists_simplePath (coherent : view.Coherent) {hops : Nat}
    (enough : view.nodeCount ≤ hops) :
    (∃ path ∈ view.simplePaths start hops, path.getLast? = some node) ↔
      node ∈ view.bfs start ∧ view.successors node = [] := by
  have short {steps : List NodeId} (bound : start.index < view.nodeCount)
      (unique : (start :: steps).Nodup) (route : Route view.successors start node steps) :
      steps.length < view.nodeCount := by
    have fewer := length_lt_of_nodup unique (Handle.mem_upTo.mpr bound)
      (route.inside coherent.inside)
    rwa [Handle.length_upTo] at fewer
  rw [coherent.mem_bfs]
  unfold simplePaths
  split
  · rename_i bound
    constructor
    · rintro ⟨path, listed, last⟩
      obtain ⟨goal, steps, rfl, simple, stops⟩ := mem_simplePaths.mp listed
      cases simple.route.getLast?_eq.symm.trans last
      refine ⟨⟨bound, steps, simple.route⟩, ?_⟩
      have fewer := short bound simple.unique simple.route
      rcases stops with full | ⟨_, ends⟩
      · omega
      · exact ends
    · rintro ⟨⟨_, steps, route⟩, ends⟩
      obtain ⟨simple, leads, unique, _⟩ := route.exists_simple
      have fewer := short bound unique leads
      refine ⟨start :: simple, mem_simplePaths.mpr ?_, leads.getLast?_eq⟩
      exact ⟨node, simple, rfl, ⟨leads, unique, by simp⟩, .inr ⟨by omega, ends⟩⟩
  · rename_i foreign
    simp [foreign]

end GraphView

theorem Digraph.Consistent.view_coherent {α β : Type} {graph : Digraph α β}
    (consistent : graph.Consistent) : graph.view.Coherent where
  converse source target := consistent.mem_successors.trans consistent.mem_predecessors.symm
  sourceBound source target follows := by
    obtain ⟨edge, member, leaves, _⟩ := consistent.mem_successors.mp follows
    exact leaves ▸ (consistent.endsBound edge member).1
  targetBound source target follows := by
    obtain ⟨edge, member, _, enters⟩ := consistent.mem_successors.mp follows
    exact enters ▸ (consistent.endsBound edge member).2

end CallResolution

import CallResolution.Proofs.Distinct
import CallResolution.Proofs.Editing
import CallResolution.Proofs.Traversal

/-!
Listing simple paths. The list can be worked off with a stack of paths, where a path gives way to
all the paths that go one step further. They are longer, and no path grows beyond the allowed hops,
so the work comes to an end. What it lists is what the enumeration by recursion lists: every simple
path up to where it stops, once, in the order of the successors at the first node where two paths
part.
-/

namespace CallResolution

open Relation

namespace Search

variable {α : Type} {next : α → List α} {start goal : α} {steps path : List α} {hops : Nat}

/-- A path from `start` along successors that meets no node twice. It has all its hops, or fewer
and ends where there is nowhere to go. -/
structure BoundedPath (next : α → List α) (start : α) (hops : Nat) (path : List α) : Prop where
  starts : path.head? = some start
  follows : path.IsChain fun node after => after ∈ next node
  unique : path.Nodup
  stops : path.length = hops + 1 ∨
    path.length ≤ hops ∧ ∀ last, path.getLast? = some last → next last = []

theorem route_iff : Route next start goal steps ↔
    (start :: steps).IsChain (fun node after => after ∈ next node) ∧
      (start :: steps).getLast? = some goal := by
  induction steps generalizing start with
  | nil => simp [Route]
  | cons first rest ih =>
      rw [Route, ih, List.isChain_cons_cons, List.getLast?_cons_cons, and_assoc]

/-- At each step of a path, where its next node first stands among the successors. -/
def choices [DecidableEq α] (next : α → List α) : List α → List Nat
  | node :: after :: rest => (next node).idxOf after :: choices next (after :: rest)
  | _ => []

variable [DecidableEq α]

theorem mem_simplePaths_iff : path ∈ simplePaths next hops [] start ↔
    BoundedPath next start hops path := by
  rw [mem_simplePaths]
  constructor
  · rintro ⟨goal, steps, rfl, ⟨route, unique, _⟩, stops⟩
    obtain ⟨follows, last⟩ := route_iff.mp route
    refine ⟨rfl, follows, unique, ?_⟩
    rcases stops with full | ⟨short, ends⟩
    · exact .inl (by simp [full])
    · refine .inr ⟨short, fun other otherLast => ?_⟩
      cases last.symm.trans otherLast
      exact ends
  · rintro ⟨starts, follows, unique, stops⟩
    obtain ⟨steps, rfl⟩ := List.head?_eq_some_iff.mp starts
    obtain ⟨goal, last⟩ : ∃ goal, (start :: steps).getLast? = some goal :=
      ⟨_, List.getLast?_eq_some_getLast (List.cons_ne_nil _ _)⟩
    refine ⟨goal, steps, rfl, ⟨route_iff.mpr ⟨follows, last⟩, unique, by simp⟩, ?_⟩
    rcases stops with full | ⟨short, ends⟩
    · exact .inl (by simpa using full)
    · exact .inr ⟨short, ends goal last⟩

theorem head_of_mem_simplePaths {passed : List α}
    (listed : path ∈ simplePaths next hops passed start) : ∃ steps, path = start :: steps := by
  obtain ⟨_, steps, same, _⟩ := mem_simplePaths.mp listed
  exact ⟨steps, same⟩

theorem simplePaths_ordered (next : α → List α) (hops : Nat) (passed : List α) (node : α) :
    (simplePaths next hops passed node).Pairwise fun left right =>
      choices next left < choices next right := by
  induction hops generalizing passed node with
  | zero => simp [simplePaths]
  | succ hops ih =>
      simp only [simplePaths]
      split
      · exact List.pairwise_singleton _ _
      · rw [List.pairwise_map, List.pairwise_flatMap]
        constructor
        · -- below one successor the choice at this node is the same
          intro target _
          refine (ih (node :: passed) target).imp_of_mem fun leftListed rightListed before => ?_
          obtain ⟨left, rfl⟩ := head_of_mem_simplePaths leftListed
          obtain ⟨right, rfl⟩ := head_of_mem_simplePaths rightListed
          exact List.cons_lt_cons_iff.mpr (.inr ⟨rfl, before⟩)
        · refine ((eraseDups_ordered (next node)).filter _).imp ?_
          intro first second before left leftListed right rightListed
          obtain ⟨_, rfl⟩ := head_of_mem_simplePaths leftListed
          obtain ⟨_, rfl⟩ := head_of_mem_simplePaths rightListed
          exact List.cons_lt_cons_iff.mpr (.inl before)

structure Worklist (α : Type) where
  pending : List (List α)
  listed : List (List α)

namespace Worklist

def extensions (path successors : List α) : List α :=
  successors.foldl
    (fun found node => if node ∈ path ∨ node ∈ found then found else found ++ [node]) []

/-- One turn of the work. The next path is listed if it has all its hops or nowhere to go.
Otherwise its extensions take its place, the first of them on top. -/
def turn (next : α → List α) (hops : Nat) (work : Worklist α) : Option (Worklist α) :=
  match work.pending with
  | [] => none
  | path :: pending =>
    match path.getLast? with
    | none => some ⟨pending, work.listed⟩
    | some last =>
      if hops < path.length then some ⟨pending, work.listed ++ [path]⟩
      else if (next last).isEmpty then some ⟨pending, work.listed ++ [path]⟩
      else some ⟨(extensions path (next last)).map (path ++ [·]) ++ pending, work.listed⟩

def Leads (next : α → List α) (hops : Nat) : Worklist α → Worklist α → Prop :=
  ReflTransGen fun before after => turn next hops before = some after

theorem extensions_eq (path successors : List α) :
    extensions path successors = successors.eraseDups.filter (· ∉ path) := by
  induction successors using List.reverseRecOn with
  | nil => rfl
  | append_singleton successors node ih =>
      have pushed : extensions path (successors ++ [node]) =
          if node ∈ path ∨ node ∈ extensions path successors then extensions path successors
          else extensions path successors ++ [node] := by
        rw [extensions, List.foldl_append]
        rfl
      rw [pushed, ih]
      by_cases member : node ∈ successors
      · rw [eraseDups_append_of_mem member]
        by_cases passed : node ∈ path <;> simp [passed, member]
      · rw [eraseDups_append_of_not_mem member]
        by_cases passed : node ∈ path <;> simp [passed, member]

theorem leads_path (next : α → List α) (passed : List α) (node : α) {remaining : Nat}
    (bound : passed.length + remaining = hops) (pending listed : List (List α)) :
    Leads next hops ⟨(passed.reverse ++ [node]) :: pending, listed⟩
      ⟨pending, listed ++ (simplePaths next remaining passed node).map (passed.reverse ++ ·)⟩ := by
  induction remaining generalizing passed node pending listed with
  | zero =>
      refine .single ?_
      have full : hops < passed.length + 1 := by omega
      simp [turn, simplePaths, full]
  | succ remaining ih =>
      have short : ¬ hops < passed.length + 1 := by omega
      by_cases ends : next node = []
      · refine .single ?_
        simp [turn, simplePaths, ends, short]
      · have extended : turn next hops ⟨(passed.reverse ++ [node]) :: pending, listed⟩ =
            some ⟨(((next node).eraseDups.filter (· ∉ node :: passed)).map
              ((node :: passed).reverse ++ [·])) ++ pending, listed⟩ := by
          simp [turn, short, ends, extensions_eq, Bool.and_comm]
        have below (targets : List α) (listed : List (List α)) :
            Leads next hops ⟨targets.map ((node :: passed).reverse ++ [·]) ++ pending, listed⟩
              ⟨pending, listed ++ (targets.flatMap fun target =>
                (simplePaths next remaining (node :: passed) target).map
                  ((node :: passed).reverse ++ ·))⟩ := by
          induction targets generalizing listed with
          | nil =>
              simp only [List.map_nil, List.nil_append, List.flatMap_nil, List.append_nil]
              exact .refl
          | cons target targets later =>
              have fewer : (node :: passed).length + remaining = hops := by
                simp only [List.length_cons]
                omega
              refine (ih (node :: passed) target fewer
                (targets.map ((node :: passed).reverse ++ [·]) ++ pending) listed).trans ?_
              rw [List.flatMap_cons, ← List.append_assoc]
              exact later _
        refine .head extended ?_
        have listing := below ((next node).eraseDups.filter (· ∉ node :: passed)) listed
        simpa [Leads, simplePaths, ends, List.map_flatMap, Function.comp_def] using listing

end Worklist

end Search

namespace GraphView

open Search

structure ListsPaths (view : GraphView) (start : NodeId) (hops : Nat) : Prop where
  ends : Worklist.Leads view.successors hops ⟨[[start]], []⟩ ⟨[], view.simplePaths start hops⟩
  unique : (view.simplePaths start hops).Nodup
  exact : ∀ path, path ∈ view.simplePaths start hops ↔
    BoundedPath view.successors start hops path
  ordered : ((view.simplePaths start hops).map (choices view.successors)).Pairwise (· < ·)

theorem simplePaths_lists (view : GraphView) {start : NodeId}
    (bound : start.index < view.nodeCount) (hops : Nat) : view.ListsPaths start hops := by
  have same : view.simplePaths start hops = Search.simplePaths view.successors hops [] start :=
    if_pos bound
  have ordered := simplePaths_ordered view.successors hops [] start
  rw [← same] at ordered
  refine ⟨?_, ?_, ?_, List.pairwise_map.mpr ordered⟩
  · have worked := Worklist.leads_path view.successors [] start (Nat.zero_add hops) [] []
    simpa [same] using worked
  · refine ordered.imp fun before equal => ?_
    rw [equal] at before
    exact List.lt_irrefl _ before
  · intro path
    rw [same, mem_simplePaths_iff]

end GraphView

namespace Digraph

variable {α β : Type}

theorem simplePaths_enumerated (edits : List (Edit α β)) {start : NodeId}
    (bound : start.index < (ofEdits edits).nodeCount) (hops : Nat) :
    let graph := ofEdits edits
    graph.view.ListsPaths start hops ∧ graph.view.reverse.ListsPaths start hops ∧
    (∀ node, graph.view.successors node =
      (graph.edges.toList.filter fun edge => edge.source == node).map Edge.target) ∧
    ∀ node, graph.view.reverse.successors node =
      (graph.edges.toList.filter fun edge => edge.target == node).map Edge.source := by
  intro graph
  have consistent : graph.Consistent := foldl_edited_consistent empty_consistent edits
  exact ⟨graph.view.simplePaths_lists bound hops, graph.view.reverse.simplePaths_lists bound hops,
    consistent.successors_eq, consistent.predecessors_eq⟩

def roundaboutEdits : List (Edit Nat Nat) :=
  [.addNode 0, .addNode 1, .addNode 2, .addNode 3, .addEdge ⟨0⟩ ⟨2⟩ 0, .addEdge ⟨0⟩ ⟨1⟩ 0,
    .addEdge ⟨1⟩ ⟨1⟩ 0, .addEdge ⟨1⟩ ⟨2⟩ 0, .addEdge ⟨1⟩ ⟨2⟩ 0, .addEdge ⟨2⟩ ⟨0⟩ 0,
    .addEdge ⟨2⟩ ⟨3⟩ 0]

theorem simplePaths_enumerated_roundabout :
    let graph := ofEdits roundaboutEdits
    (⟨0⟩ : NodeId).index < graph.nodeCount ∧
    graph.view.ListsPaths ⟨0⟩ 18446744073709551615 ∧
    graph.view.reverse.ListsPaths ⟨0⟩ 18446744073709551615 ∧
    graph.view.simplePaths ⟨0⟩ 9 = [[⟨0⟩, ⟨2⟩, ⟨3⟩], [⟨0⟩, ⟨1⟩, ⟨2⟩, ⟨3⟩]] ∧
    graph.view.reverse.simplePaths ⟨0⟩ 2 = [[⟨0⟩, ⟨2⟩, ⟨1⟩]] := by
  intro graph
  have bound : (⟨0⟩ : NodeId).index < graph.nodeCount := by decide
  obtain ⟨forward, backward, _⟩ :=
    simplePaths_enumerated roundaboutEdits bound 18446744073709551615
  exact ⟨bound, forward, backward, by decide, by decide⟩

end Digraph

end CallResolution

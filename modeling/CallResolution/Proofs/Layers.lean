import CallResolution.Proofs.Routes
import CallResolution.Search.Breadth

/-!
Breadth-first search finds what routes lead to. The queue works through one layer after the other,
so the two searches list the same nodes, and a bound on layers is a bound on the steps of a route.
-/

namespace CallResolution.Search

variable {α : Type} [DecidableEq α] {next : α → List α}

theorem fresh_append (unvisited first second : List α) :
    fresh unvisited (first ++ second) =
      fresh unvisited first ++ fresh (without unvisited (fresh unvisited first)) second := by
  simp only [fresh, without, List.filter_append, List.eraseDups_append, List.removeAll,
    List.filter_filter]
  congr 2
  apply List.filter_congr
  intro node _
  by_cases member : node ∈ unvisited <;> simp [member]

theorem layers_nil (depth : Nat) (unvisited : List α) : layers next depth [] unvisited = [] := by
  cases depth <;> simp [layers, fresh]

theorem layers_succ (depth : Nat) (layer unvisited : List α) :
    layers next (depth + 1) layer unvisited =
      fresh unvisited (layer.flatMap next) ++
        layers next depth (fresh unvisited (layer.flatMap next))
          (without unvisited (fresh unvisited (layer.flatMap next))) := by
  rw [layers]
  split
  · rename_i nothing
    rw [List.isEmpty_iff.mp nothing, layers_nil]
    rfl
  · rfl

theorem mem_layers {depth : Nat} {layer unvisited : List α} {node : α} :
    node ∈ layers next depth layer unvisited ↔
      ∃ start ∈ layer, ∃ steps, Route next start node steps ∧ steps ≠ [] ∧ steps ⊆ unvisited ∧
        steps.length ≤ depth := by
  induction depth generalizing layer unvisited with
  | zero =>
      simp only [layers, List.not_mem_nil, false_iff]
      rintro ⟨start, _, steps, _, some, _, bound⟩
      exact some (List.length_eq_zero_iff.mp (by omega))
  | succ depth ih =>
      rw [layers_succ, List.mem_append, ih]
      constructor
      · rintro (found | ⟨first, found, steps, route, _, within, bound⟩)
        · obtain ⟨follows, member⟩ := mem_fresh.mp found
          obtain ⟨start, listed, edge⟩ := List.mem_flatMap.mp follows
          exact ⟨start, listed, [node], ⟨edge, rfl⟩, by simp, by simpa using member, by simp⟩
        · obtain ⟨follows, member⟩ := mem_fresh.mp found
          obtain ⟨start, listed, edge⟩ := List.mem_flatMap.mp follows
          refine ⟨start, listed, first :: steps, ⟨edge, route⟩, by simp, ?_, by simpa using bound⟩
          exact List.cons_subset.mpr ⟨member, fun other step => (mem_without.mp (within step)).1⟩
      · rintro ⟨start, listed, steps, route, some, within, bound⟩
        -- what follows the last visit to the next layer is a route of the remaining search
        rcases route.last_visit (fresh unvisited (layer.flatMap next)) with
          avoids | ⟨first, found, rest, leads, shorter, kept, avoids⟩
        · cases steps with
          | nil => exact absurd rfl some
          | cons first rest =>
              have follows : first ∈ layer.flatMap next :=
                List.mem_flatMap.mpr ⟨start, listed, route.1⟩
              exact absurd (mem_fresh.mpr ⟨follows, within (by simp)⟩) (avoids first (by simp))
        · by_cases arrived : rest = []
          · subst arrived
            have here : first = node := leads
            exact .inl (here ▸ found)
          · refine .inr ⟨first, found, rest, leads, arrived, fun other step => ?_, by omega⟩
            exact mem_without.mpr ⟨within (kept step), avoids other step⟩

/-- The queue takes in the next layer while it works through this one. -/
theorem breadthFirst_append (layer queue unvisited : List α) :
    breadthFirst next (layer ++ queue) unvisited =
      layer ++ breadthFirst next (queue ++ fresh unvisited (layer.flatMap next))
        (without unvisited (fresh unvisited (layer.flatMap next))) := by
  induction layer generalizing queue unvisited with
  | nil => simp [fresh]
  | cons node layer ih =>
      rw [List.cons_append, breadthFirst, List.append_assoc, ih, List.flatMap_cons, fresh_append,
        without_without, List.append_assoc, List.cons_append]

theorem breadthFirst_eq_layers {depth : Nat} {unvisited : List α} (layer : List α)
    (enough : unvisited.length ≤ depth) :
    breadthFirst next layer unvisited = layer ++ layers next depth layer unvisited := by
  induction depth generalizing layer unvisited with
  | zero =>
      have nothing : unvisited = [] := List.length_eq_zero_iff.mp (by omega)
      have turned : breadthFirst next (layer ++ []) unvisited = _ := breadthFirst_append ..
      simpa [nothing, fresh, layers, breadthFirst] using turned
  | succ depth ih =>
      have turned : breadthFirst next (layer ++ []) unvisited = _ := breadthFirst_append ..
      rw [List.append_nil, List.nil_append] at turned
      rw [turned, layers_succ]
      cases found : fresh unvisited (layer.flatMap next) with
      | nil => simp [breadthFirst, layers_nil]
      | cons first others =>
          have member : first ∈ fresh unvisited (layer.flatMap next) := by simp [found]
          have smaller := length_without_lt (mem_fresh.mp member).2 member
          rw [found] at smaller
          rw [ih (first :: others) (by omega)]

end CallResolution.Search

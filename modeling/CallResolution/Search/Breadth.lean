import CallResolution.Search.Unvisited

/-!
Breadth-first search, once with a queue and without a bound, once layer by layer up to a
given distance.
-/

namespace CallResolution.Search

variable {α : Type} [DecidableEq α]

/-- Lists the queued nodes and all that is found from them. A node is visited when it
enters the queue. -/
def breadthFirst (next : α → List α) : List α → List α → List α
  | [], _ => []
  | node :: queue, unvisited =>
    node :: breadthFirst next (queue ++ fresh unvisited (next node))
      (without unvisited (fresh unvisited (next node)))
termination_by queue unvisited => (unvisited.length, queue.length)
decreasing_by
  by_cases nothing : fresh unvisited (next node) = []
  · simp only [nothing, without_nil, List.append_nil]
    exact Prod.Lex.right _ (by simp)
  · obtain ⟨found, member⟩ := List.exists_mem_of_ne_nil _ nothing
    exact Prod.Lex.left _ _ (length_without_lt (mem_fresh.mp member).2 member)

/-- The next `depth` layers after `layer`; an empty layer ends the search. -/
def layers (next : α → List α) : Nat → List α → List α → List α
  | 0, _, _ => []
  | depth + 1, layer, unvisited =>
    let found := fresh unvisited (layer.flatMap next)
    if found.isEmpty then []
    else found ++ layers next depth found (without unvisited found)

end CallResolution.Search

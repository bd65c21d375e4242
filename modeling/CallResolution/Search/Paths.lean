/-!
Paths that repeat no node, enumerated depth first up to a number of hops.
-/

namespace CallResolution.Search

variable {α : Type} [DecidableEq α]

/-- The paths from `node` that avoid the nodes already `passed`. A path ends after the
allowed hops or at a node without successors; one that could only go back to a node it
has passed is dropped. -/
def simplePaths (next : α → List α) : Nat → List α → α → List (List α)
  | 0, _, node => [[node]]
  | hops + 1, passed, node =>
    if (next node).isEmpty then [[node]]
    else
      let onward := (next node).eraseDups.filter (· ∉ node :: passed)
      (onward.flatMap fun target => simplePaths next hops (node :: passed) target).map (node :: ·)

end CallResolution.Search

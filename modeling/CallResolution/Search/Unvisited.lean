/-!
Searches keep the list of nodes not yet visited. Visiting removes nodes from it, so its
length bounds every search, cycles or not.
-/

namespace CallResolution.Search

variable {α : Type} [DecidableEq α]

/-- The candidates not yet visited, each once, in the order of their first occurrence. -/
def fresh (unvisited candidates : List α) : List α :=
  (candidates.filter (· ∈ unvisited)).eraseDups

def without (unvisited found : List α) : List α :=
  unvisited.filter (· ∉ found)

@[simp] theorem mem_fresh {unvisited candidates : List α} {node : α} :
    node ∈ fresh unvisited candidates ↔ node ∈ candidates ∧ node ∈ unvisited := by
  simp [fresh]

@[simp] theorem mem_without {unvisited found : List α} {node : α} :
    node ∈ without unvisited found ↔ node ∈ unvisited ∧ node ∉ found := by
  simp [without]

@[simp] theorem without_nil (unvisited : List α) : without unvisited [] = unvisited := by
  simp [without]

theorem length_without_le (unvisited found : List α) :
    (without unvisited found).length ≤ unvisited.length :=
  List.length_filter_le _ _

theorem length_without_lt {unvisited found : List α} {node : α}
    (member : node ∈ unvisited) (visited : node ∈ found) :
    (without unvisited found).length < unvisited.length :=
  List.length_filter_lt_length_iff_exists.mpr ⟨node, member, by simp [visited]⟩

theorem without_without (unvisited first second : List α) :
    without (without unvisited first) second = without unvisited (first ++ second) := by
  simp only [without, List.filter_filter]
  apply List.filter_congr
  intro node _
  simp [Bool.and_comm]

theorem without_congr {unvisited first second : List α}
    (same : ∀ node ∈ unvisited, node ∈ first ↔ node ∈ second) :
    without unvisited first = without unvisited second := by
  apply List.filter_congr
  intro node member
  simp [same node member]

end CallResolution.Search

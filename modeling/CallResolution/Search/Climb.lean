import CallResolution.Search.Unvisited

/-!
Following a partial function upwards. The walk ends where the function does, or where it
would come back to a node it has already passed.
-/

namespace CallResolution.Search

variable {α : Type} [DecidableEq α]

/-- The nodes above `node`, nearest first, as long as they are unvisited. -/
def climb (next : α → Option α) (node : α) (unvisited : List α) : List α :=
  match next node with
  | none => []
  | some above =>
    if above ∈ unvisited then above :: climb next above (without unvisited [above]) else []
termination_by unvisited.length
decreasing_by exact length_without_lt ‹_› (by simp)

theorem climb_subset {next : α → Option α} {start node : α} {unvisited : List α}
    (listed : node ∈ climb next start unvisited) : node ∈ unvisited := by
  fun_induction climb next start unvisited with
  | case1 => simp at listed
  | case2 start unvisited above _ member ih =>
      rcases List.mem_cons.mp listed with same | later
      · exact same ▸ member
      · exact (mem_without.mp (ih later)).1
  | case3 => simp at listed

theorem nodup_climb (next : α → Option α) (start : α) (unvisited : List α) :
    (climb next start unvisited).Nodup := by
  fun_induction climb next start unvisited with
  | case1 => exact List.nodup_nil
  | case2 start unvisited above _ _ ih =>
      refine List.nodup_cons.mpr ⟨fun again => ?_, ih⟩
      simpa using climb_subset again
  | case3 => exact List.nodup_nil

end CallResolution.Search

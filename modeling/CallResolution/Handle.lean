/-!
Handles name the entries of a program or a graph by position. The collection a handle
points into is part of its type, so a class is never taken for a method. A handle
promises nothing: the entry it names may not exist.
-/

namespace CallResolution

inductive Arena where
  | classes
  | methods
  | blocks
  | nodes
  | edges
  deriving DecidableEq, Repr

structure Handle (arena : Arena) where
  index : Nat
  deriving DecidableEq, Repr

abbrev ClassId := Handle .classes

abbrev MethodId := Handle .methods

abbrev BlockId := Handle .blocks

abbrev NodeId := Handle .nodes

abbrev EdgeId := Handle .edges

namespace Arena

def labelStem : Arena → String
  | .classes => "class#"
  | .methods => "method#"
  | .blocks => "block#"
  | .nodes => "n"
  | .edges => "e"

def handleName : Arena → String
  | .classes => "ClassId"
  | .methods => "MethodId"
  | .blocks => "BlockId"
  | .nodes => "NodeId"
  | .edges => "EdgeId"

end Arena

namespace Handle

variable {arena : Arena}

def label (handle : Handle arena) : String :=
  arena.labelStem ++ toString handle.index

def inspect (handle : Handle arena) : String :=
  arena.handleName ++ "(" ++ toString handle.index ++ ")"

instance : Ord (Handle arena) where
  compare left right := compare left.index right.index

theorem eq_of_index_eq {left right : Handle arena} (same : left.index = right.index) :
    left = right := by
  cases left
  cases right
  exact congrArg Handle.mk same

def upTo (arena : Arena) (count : Nat) : List (Handle arena) :=
  (List.range count).map Handle.mk

@[simp] theorem mem_upTo {count : Nat} {handle : Handle arena} :
    handle ∈ upTo arena count ↔ handle.index < count := by
  constructor
  · intro member
    obtain ⟨index, bound, same⟩ := List.mem_map.mp member
    subst same
    exact List.mem_range.mp bound
  · intro bound
    exact List.mem_map.mpr ⟨handle.index, List.mem_range.mpr bound, rfl⟩

@[simp] theorem length_upTo (count : Nat) : (upTo arena count).length = count := by
  simp [upTo]

theorem upTo_increasing (count : Nat) :
    (upTo arena count).Pairwise fun left right => left.index < right.index := by
  rw [upTo, List.pairwise_map]
  exact List.pairwise_lt_range

theorem nodup_upTo (count : Nat) : (upTo arena count).Nodup := by
  refine (upTo_increasing count).imp ?_
  intro left right before same
  exact Nat.ne_of_lt before (congrArg Handle.index same)

theorem map_upTo_entry (arena : Arena) {α : Type} (entries : Array α) :
    (upTo arena entries.size).map (fun handle => (handle, entries[handle.index]?)) =
      entries.toList.zipIdx.map fun entry => (⟨entry.2⟩, some entry.1) := by
  apply List.ext_getElem
  · simp
  · intro index _ bound
    have inside : index < entries.size := by simpa using bound
    simp [upTo, inside]

theorem map_upTo (arena : Arena) {α : Type} (entries : Array α) :
    (upTo arena entries.size).map (fun handle => entries[handle.index]?) =
      entries.toList.map some := by
  have looked := congrArg (List.map Prod.snd) (map_upTo_entry arena entries)
  rw [List.map_map, List.map_map] at looked
  rw [← List.zipIdx_map_fst 0 entries.toList, List.map_map]
  exact looked

theorem filterMap_upTo {α : Type} (entries : Array α) :
    (upTo arena entries.size).filterMap (fun handle => entries[handle.index]?) =
      entries.toList := by
  have looked := congrArg (List.filterMap id) (map_upTo arena entries)
  rw [List.filterMap_map, List.filterMap_map] at looked
  simpa using looked

theorem filterMap_upTo_entry {α : Type} (entries : Array α) :
    (upTo arena entries.size).filterMap (fun handle =>
      (entries[handle.index]?).map fun data => (handle, data)) =
      entries.toList.zipIdx.map fun entry => (⟨entry.2⟩, entry.1) := by
  have looked := congrArg (List.filterMap fun entry => entry.2.map fun data => (entry.1, data))
    (map_upTo_entry arena entries)
  rw [List.filterMap_map, List.filterMap_map] at looked
  simpa [Function.comp_def] using looked

end Handle

end CallResolution

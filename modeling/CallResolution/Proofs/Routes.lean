import CallResolution.Search.Paths
import Mathlib.Data.List.Nodup
import Mathlib.Data.List.Perm.Subperm

/-!
Routes from node to node. A route may come back to a node it has passed, but then a shorter one
leads to the same goal. The enumeration of simple paths lists the routes that never come back,
up to the nodes where it stops.
-/

namespace CallResolution.Search

variable {α : Type} {next : α → List α} {start goal : α} {steps : List α}

def Route (next : α → List α) : α → α → List α → Prop
  | start, goal, [] => start = goal
  | start, goal, first :: rest => first ∈ next start ∧ Route next first goal rest

namespace Route

theorem concat {middle : α} (route : Route next start middle steps) (last : goal ∈ next middle) :
    Route next start goal (steps ++ [goal]) := by
  induction steps generalizing start with
  | nil =>
      have same : start = middle := route
      exact ⟨same ▸ last, rfl⟩
  | cons first rest ih => exact ⟨route.1, ih route.2⟩

theorem reverse {prev : α → List α}
    (converse : ∀ node after, after ∈ next node → node ∈ prev after)
    (route : Route next start goal steps) : ∃ back, Route prev goal start back := by
  induction steps generalizing start with
  | nil => exact ⟨[], Eq.symm route⟩
  | cons first rest ih =>
      obtain ⟨back, leads⟩ := ih route.2
      exact ⟨back ++ [start], leads.concat (converse start first route.1)⟩

theorem getLast?_eq (route : Route next start goal steps) :
    (start :: steps).getLast? = some goal := by
  induction steps generalizing start with
  | nil =>
      have same : start = goal := route
      simp [same]
  | cons first rest ih => rw [List.getLast?_cons_cons, ih route.2]

theorem inside {domain : List α} (closed : ∀ node, ∀ after ∈ next node, after ∈ domain)
    (route : Route next start goal steps) : steps ⊆ domain := by
  induction steps generalizing start with
  | nil => simp
  | cons first rest ih =>
      intro node member
      rcases List.mem_cons.mp member with same | later
      · exact same ▸ closed start first route.1
      · exact ih route.2 later

theorem goal_inside {domain : List α} (closed : ∀ node, ∀ after ∈ next node, after ∈ domain)
    (route : Route next start goal steps) (listed : start ∈ domain) : goal ∈ domain := by
  induction steps generalizing start with
  | nil =>
      have same : start = goal := route
      exact same ▸ listed
  | cons first rest ih => exact ih route.2 (closed start first route.1)

variable [DecidableEq α]

/-- A route avoids the marked nodes, or what follows its last visit to one of them does. -/
theorem last_visit (marked : List α) (route : Route next start goal steps) :
    (∀ node ∈ steps, node ∉ marked) ∨
      ∃ visited ∈ marked, ∃ rest, Route next visited goal rest ∧ rest.length < steps.length ∧
        rest ⊆ steps ∧ ∀ node ∈ rest, node ∉ marked := by
  induction steps generalizing start with
  | nil => exact .inl (by simp)
  | cons first rest ih =>
      rcases ih route.2 with avoids | ⟨visited, member, later, leads, shorter, within, avoids⟩
      · by_cases here : first ∈ marked
        · exact .inr ⟨first, here, rest, route.2, by simp, List.subset_cons_self _ _, avoids⟩
        · refine .inl fun node member => ?_
          rcases List.mem_cons.mp member with same | later
          · exact same ▸ here
          · exact avoids node later
      · refine .inr ⟨visited, member, later, leads, ?_, ?_, avoids⟩
        · simp only [List.length_cons]
          omega
        · exact List.subset_cons_of_subset _ within

theorem leaves_start (route : Route next start goal steps) :
    ∃ direct, Route next start goal direct ∧ direct.length ≤ steps.length ∧ direct ⊆ steps ∧
      start ∉ direct := by
  rcases route.last_visit [start] with
    avoids | ⟨visited, member, rest, leads, shorter, within, avoids⟩
  · exact ⟨steps, route, Nat.le_refl _, List.Subset.refl _, fun back => avoids start back (by simp)⟩
  · -- the route comes back to its start, so the way round can be left out
    rw [List.mem_singleton.mp member] at leads
    exact ⟨rest, leads, Nat.le_of_lt shorter, within, fun back => avoids start back (by simp)⟩

theorem exists_simple (route : Route next start goal steps) :
    ∃ simple, Route next start goal simple ∧ (start :: simple).Nodup ∧ simple ⊆ steps := by
  induction length : steps.length using Nat.strongRecOn generalizing start steps with
  | ind size ih =>
      obtain ⟨direct, leads, shorter, within, away⟩ := route.leaves_start
      cases direct with
      | nil => exact ⟨[], leads, by simp, by simp⟩
      | cons first rest =>
          simp only [List.length_cons] at shorter
          obtain ⟨simple, onward, unique, kept⟩ := ih rest.length (by omega) leads.2 rfl
          have inside : first :: simple ⊆ first :: rest := List.cons_subset_cons first kept
          refine ⟨first :: simple, ⟨leads.1, onward⟩, List.nodup_cons.mpr ⟨?_, unique⟩, ?_⟩
          · exact fun back => away (inside back)
          · exact List.Subset.trans inside within

end Route

theorem length_lt_of_nodup {domain : List α} (unique : (start :: steps).Nodup)
    (listed : start ∈ domain) (within : steps ⊆ domain) : steps.length < domain.length := by
  have subset : start :: steps ⊆ domain := List.cons_subset.mpr ⟨listed, within⟩
  have bound := (List.subperm_of_subset unique subset).length_le
  simp only [List.length_cons] at bound
  omega

structure SimpleRoute (next : α → List α) (passed : List α) (start goal : α) (steps : List α) :
    Prop where
  route : Route next start goal steps
  unique : (start :: steps).Nodup
  avoids : ∀ node ∈ steps, node ∉ passed

theorem simpleRoute_nil {passed : List α} :
    SimpleRoute next passed start goal [] ↔ start = goal :=
  ⟨fun simple => simple.route, fun same => ⟨same, by simp, by simp⟩⟩

theorem simpleRoute_cons {passed rest : List α} {first : α} :
    SimpleRoute next passed start goal (first :: rest) ↔
      first ∈ next start ∧ first ∉ start :: passed ∧
        SimpleRoute next (start :: passed) first goal rest := by
  constructor
  · rintro ⟨⟨edge, route⟩, unique, avoids⟩
    obtain ⟨apart, restUnique⟩ := List.nodup_cons.mp unique
    refine ⟨edge, ?_, route, restUnique, fun node member => ?_⟩
    · simp only [List.mem_cons, not_or]
      exact ⟨fun back => apart (by simp [back]), avoids first (by simp)⟩
    · simp only [List.mem_cons, not_or]
      exact ⟨fun back => apart (by simp [← back, member]), avoids node (by simp [member])⟩
  · rintro ⟨edge, apart, route, unique, avoids⟩
    simp only [List.mem_cons, not_or] at apart avoids
    refine ⟨⟨edge, route⟩, List.nodup_cons.mpr ⟨fun back => ?_, unique⟩, fun node member => ?_⟩
    · rcases List.mem_cons.mp back with same | later
      · exact apart.1 same.symm
      · exact (avoids start later).1 rfl
    · rcases List.mem_cons.mp member with same | later
      · exact same ▸ apart.2
      · exact (avoids node later).2

/-- The enumeration stops at a node after all its hops, or earlier where nothing follows. -/
def Stops (next : α → List α) (hops : Nat) (steps : List α) (goal : α) : Prop :=
  steps.length = hops ∨ steps.length < hops ∧ next goal = []

variable [DecidableEq α]

theorem mem_simplePaths {hops : Nat} {passed path : List α} :
    path ∈ simplePaths next hops passed start ↔
      ∃ goal steps, path = start :: steps ∧ SimpleRoute next passed start goal steps ∧
        Stops next hops steps goal := by
  induction hops generalizing passed start path with
  | zero =>
      simp only [simplePaths, List.mem_singleton]
      constructor
      · rintro rfl
        exact ⟨start, [], rfl, simpleRoute_nil.mpr rfl, .inl rfl⟩
      · rintro ⟨goal, steps, rfl, _, full | ⟨short, _⟩⟩
        · rw [List.length_eq_zero_iff.mp full]
        · omega
  | succ hops ih =>
      simp only [simplePaths]
      split
      · rename_i ends
        rw [List.isEmpty_iff] at ends
        rw [List.mem_singleton]
        constructor
        · rintro rfl
          exact ⟨start, [], rfl, simpleRoute_nil.mpr rfl, .inr ⟨by simp, ends⟩⟩
        · rintro ⟨goal, steps, rfl, simple, _⟩
          cases steps with
          | nil => rfl
          | cons first rest => simp [simpleRoute_cons, ends] at simple
      · rename_i continues
        rw [List.isEmpty_iff] at continues
        simp only [List.mem_map, List.mem_flatMap, List.mem_filter, List.mem_eraseDups,
          decide_eq_true_eq, ih]
        constructor
        · rintro ⟨_, ⟨first, ⟨edge, apart⟩, goal, rest, rfl, simple, stops⟩, rfl⟩
          exact ⟨goal, first :: rest, rfl, simpleRoute_cons.mpr ⟨edge, apart, simple⟩,
            by simpa [Stops] using stops⟩
        · rintro ⟨goal, steps, rfl, simple, stops⟩
          cases steps with
          | nil =>
              rw [← simpleRoute_nil.mp simple] at stops
              simp [Stops, continues] at stops
          | cons first rest =>
              obtain ⟨edge, apart, onward⟩ := simpleRoute_cons.mp simple
              exact ⟨first :: rest, ⟨first, ⟨edge, apart⟩, goal, rest, rfl, onward,
                by simpa [Stops] using stops⟩, rfl⟩

end CallResolution.Search

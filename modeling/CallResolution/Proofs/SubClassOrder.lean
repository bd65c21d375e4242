import CallResolution.Proofs.Ancestry
import Mathlib.Data.List.Chain
import Mathlib.Logic.Relation

/-!
Sub-classing as an order. A climb lists what can be reached by going from super-class to
super-class, each class once, wherever it enters a cycle. So being a sub-class or the class itself
is reflexive and transitive and the classes above one are in line; it is a partial order exactly if
no cycle goes through two classes.
-/

namespace CallResolution

open Relation

namespace Search

variable {α : Type} [DecidableEq α] {next : α → Option α} {node : α} {unvisited : List α}

theorem climb_isChain (next : α → Option α) (node : α) (unvisited : List α) :
    (node :: climb next node unvisited).IsChain fun child parent => next child = some parent := by
  fun_induction climb next node unvisited with
  | case1 => exact .singleton _
  | case2 node unvisited above climbed _ ih => exact List.isChain_cons_cons.mpr ⟨climbed, ih⟩
  | case3 => exact .singleton _

theorem climb_stops {last above : α}
    (ends : (node :: climb next node unvisited).getLast? = some last)
    (climbed : next last = some above) (ahead : above ∈ unvisited) :
    above ∈ climb next node unvisited := by
  fun_induction climb next node unvisited with
  | case1 node unvisited none =>
      rw [List.getLast?_singleton] at ends
      cases ends
      cases none.symm.trans climbed
  | case2 node unvisited first _ _ ih =>
      by_cases here : above = first
      · simp [here]
      · rw [List.getLast?_cons_cons] at ends
        exact List.mem_cons_of_mem _ (ih ends (mem_without.mpr ⟨ahead, by simpa using here⟩))
  | case3 node unvisited first met visited =>
      rw [List.getLast?_singleton] at ends
      cases ends
      cases met.symm.trans climbed
      exact absurd ahead visited

end Search

namespace Program

variable {program : Program} {child parent low high : ClassId}

def HasSuper (program : Program) (child parent : ClassId) : Prop :=
  program.superOf? child = some parent

theorem hasSuper_rightUnique (program : Program) : Relator.RightUnique program.HasSuper := by
  intro child parent other super otherSuper
  exact Option.some.inj (super.symm.trans otherSuper)

theorem not_mem_ancestors_self (program : Program) (id : ClassId) : id ∉ program.ancestors id := by
  intro member
  simpa using Search.climb_subset member

theorem nodup_ancestors (program : Program) (id : ClassId) : (id :: program.ancestors id).Nodup :=
  List.nodup_cons.mpr ⟨program.not_mem_ancestors_self id, Search.nodup_climb _ _ _⟩

theorem ancestors_isChain (program : Program) (id : ClassId) :
    (id :: program.ancestors id).IsChain program.HasSuper :=
  Search.climb_isChain _ _ _

/-- The climb meets whatever can be reached, although it stops where it would go round. -/
theorem mem_ancestors_iff : parent ∈ child :: program.ancestors child ↔
    ReflTransGen program.HasSuper child parent := by
  constructor
  · intro member
    rcases List.mem_cons.mp member with rfl | above
    · exact .refl
    · obtain ⟨before, after, split⟩ := List.append_of_mem above
      have path : TransGen program.HasSuper child parent :=
        Search.climb_follows split fun _ _ _ climbed => climbed
      exact path.to_reflTransGen
  · intro path
    by_cases same : parent = child
    · simp [same]
    · have strictly := (reflTransGen_iff_eq_or_transGen.mp path).resolve_left same
      obtain ⟨_, _, last⟩ := TransGen.tail'_iff.mp strictly
      have ahead : parent ∈ Search.without program.classIds [child] := by
        simpa [classIds, same] using superOf?_bound last
      obtain ⟨before, after, found, _⟩ := Search.climb_reaches (fun _ _ climbed => climbed)
        (program.passed_at_start child) strictly ahead
      have listed : program.ancestors child = before ++ parent :: after := found
      simp [listed]

theorem ancestors_end_iff {before after : List ClassId} {entry : ClassId}
    (split : child :: program.ancestors child = before ++ entry :: after) :
    after = [] ↔ ∀ parent, program.superOf? entry = some parent → parent ∈ before ++ [entry] := by
  constructor
  · rintro rfl parent climbed
    have ends : (child :: program.ancestors child).getLast? = some entry := by
      rw [split, List.getLast?_concat]
    rw [← split]
    by_cases start : parent = child
    · simp [start]
    · have ahead : parent ∈ Search.without program.classIds [child] := by
        simpa [classIds, start] using superOf?_bound climbed
      exact List.mem_cons_of_mem _ (Search.climb_stops ends climbed ahead)
  · intro stops
    cases after with
    | nil => rfl
    | cons further after =>
        have chain := program.ancestors_isChain child
        have unique := program.nodup_ancestors child
        rw [split] at chain unique
        have super : program.superOf? entry = some further :=
          (List.isChain_cons_cons.mp (List.isChain_split.mp chain).2).1
        have seen := stops further super
        rw [List.append_cons, List.nodup_append] at unique
        exact absurd rfl (unique.2.2 further seen further (by simp))

def IsCycle (program : Program) (cycle : List ClassId) : Prop :=
  cycle.Nodup ∧ ∃ first rest, cycle = first :: rest ∧
    (cycle ++ [first]).IsChain program.HasSuper

theorem isCycle_ancestors {id : ClassId} (back : TransGen program.HasSuper id id) :
    program.IsCycle (id :: program.ancestors id) := by
  refine ⟨program.nodup_ancestors id, id, program.ancestors id, rfl, ?_⟩
  obtain ⟨last, path, closes⟩ := TransGen.tail'_iff.mp back
  obtain ⟨before, after, split⟩ := List.append_of_mem (mem_ancestors_iff.mpr path)
  have ends : after = [] := by
    rw [ancestors_end_iff split]
    intro parent super
    obtain rfl : id = parent := hasSuper_rightUnique program closes super
    cases before with
    | nil => simp [(List.cons.inj split).1]
    | cons first before => simp [(List.cons.inj split).1]
  subst ends
  rw [split, List.append_assoc, List.singleton_append, List.isChain_split, ← split]
  exact ⟨program.ancestors_isChain id, List.isChain_pair.mpr closes⟩

theorem IsCycle.reaches {cycle : List ClassId} (isCycle : program.IsCycle cycle)
    (lowMember : low ∈ cycle) (highMember : high ∈ cycle) :
    ReflTransGen program.HasSuper low high := by
  obtain ⟨_, first, rest, rfl, chain⟩ := isCycle
  have down : ReflTransGen program.HasSuper low first := by
    obtain ⟨before, after, split⟩ := List.append_of_mem lowMember
    rw [split, List.append_assoc, List.cons_append] at chain
    refine List.relationReflTransGen_of_exists_isChain_cons (after ++ [first])
      (List.isChain_split.mp chain).2 ?_
    simp
  have up : ReflTransGen program.HasSuper first high := by
    obtain ⟨before, after, split⟩ := List.append_of_mem highMember
    rw [split, List.append_assoc, List.cons_append] at chain
    have start := (List.isChain_split.mp chain).1
    cases before with
    | nil => rw [(List.cons.inj split).1]
    | cons other before =>
        rw [← (List.cons.inj split).1] at start
        exact List.relationReflTransGen_of_exists_isChain_cons (before ++ [high]) start (by simp)
  exact down.trans up

end Program

namespace Hierarchy

variable {hierarchy : Hierarchy} {child parent : ClassId}

theorem isSubClassIncluding_eq (parent : ClassId)
    (isClass : hierarchy.program.isClass child = true) :
    hierarchy.isSubClassIncluding child parent =
      .ok ((child :: hierarchy.program.ancestors child).contains parent) := by
  simp only [isSubClassIncluding, superClassesIncluding_eq isClass, bind, Except.bind]

theorem isSubClassIncluding_iff (isClass : hierarchy.program.isClass child = true) :
    hierarchy.isSubClassIncluding child parent = .ok true ↔
      ReflTransGen hierarchy.program.HasSuper child parent := by
  rw [isSubClassIncluding_eq parent isClass, Except.ok.injEq, List.contains_iff_mem,
    Program.mem_ancestors_iff]

theorem isSubClassIncluding_antisymm_iff (hierarchy : Hierarchy) :
    (∀ low high, hierarchy.program.isClass low = true → hierarchy.program.isClass high = true →
      hierarchy.isSubClassIncluding low high = .ok true →
      hierarchy.isSubClassIncluding high low = .ok true → low = high) ↔
    ¬ ∃ cycle low high, hierarchy.program.IsCycle cycle ∧ low ∈ cycle ∧ high ∈ cycle ∧
      low ≠ high ∧ hierarchy.program.isClass low = true ∧
      hierarchy.program.isClass high = true := by
  constructor
  · rintro antisymm ⟨cycle, low, high, isCycle, lowMember, highMember, distinct, lowIsClass,
      highIsClass⟩
    refine distinct (antisymm low high lowIsClass highIsClass ?_ ?_)
    · exact (isSubClassIncluding_iff lowIsClass).mpr (isCycle.reaches lowMember highMember)
    · exact (isSubClassIncluding_iff highIsClass).mpr (isCycle.reaches highMember lowMember)
  · intro acyclic low high lowIsClass highIsClass up down
    by_contra distinct
    have rising := (isSubClassIncluding_iff lowIsClass).mp up
    have falling := (isSubClassIncluding_iff highIsClass).mp down
    have strictly := (reflTransGen_iff_eq_or_transGen.mp rising).resolve_left (Ne.symm distinct)
    have back : TransGen hierarchy.program.HasSuper low low := strictly.trans_left falling
    exact acyclic ⟨_, low, high, Program.isCycle_ancestors back, by simp,
      Program.mem_ancestors_iff.mpr rising, distinct, lowIsClass, highIsClass⟩

/-- Sub-classing is a preorder whose upper sets are chains, on every program, and a partial order on
those that have no cycle through two classes. -/
theorem subClassing_ordered (hierarchy : Hierarchy) :
    let program := hierarchy.program
    (∀ id, program.isClass id = true → ∃ above, hierarchy.superClasses id = .ok above ∧
      above.Nodup ∧ id ∉ above ∧ (id :: above).IsChain program.HasSuper ∧
      ∀ before entry after, id :: above = before ++ entry :: after →
        (after = [] ↔ ∀ parent, program.superOf? entry = some parent →
          parent ∈ before ++ [entry])) ∧
    (∀ id, program.isClass id = true → hierarchy.isSubClass id id = .ok false) ∧
    (∀ id, program.isClass id = true → hierarchy.isSubClassIncluding id id = .ok true) ∧
    (∀ low middle high, program.isClass low = true → program.isClass middle = true →
      program.isClass high = true → hierarchy.isSubClassIncluding low middle = .ok true →
      hierarchy.isSubClassIncluding middle high = .ok true →
      hierarchy.isSubClassIncluding low high = .ok true) ∧
    (∀ id left right, program.isClass id = true → program.isClass left = true →
      program.isClass right = true → hierarchy.isSubClassIncluding id left = .ok true →
      hierarchy.isSubClassIncluding id right = .ok true →
      hierarchy.isSubClassIncluding left right = .ok true ∨
        hierarchy.isSubClassIncluding right left = .ok true) ∧
    ((∀ low high, program.isClass low = true → program.isClass high = true →
        hierarchy.isSubClassIncluding low high = .ok true →
        hierarchy.isSubClassIncluding high low = .ok true → low = high) ↔
      ¬ ∃ cycle low high, program.IsCycle cycle ∧ low ∈ cycle ∧ high ∈ cycle ∧ low ≠ high ∧
        program.isClass low = true ∧ program.isClass high = true) := by
  intro program
  refine ⟨?_, ?_, ?_, ?_, ?_, hierarchy.isSubClassIncluding_antisymm_iff⟩
  · intro id isClass
    obtain ⟨apart, unique⟩ := List.nodup_cons.mp (program.nodup_ancestors id)
    exact ⟨program.ancestors id, superClasses_eq isClass, unique, apart,
      program.ancestors_isChain id, fun _ _ _ split => Program.ancestors_end_iff split⟩
  · intro id isClass
    have apart := program.not_mem_ancestors_self id
    rw [isSubClass_eq id isClass]
    simpa using apart
  · intro id isClass
    exact (isSubClassIncluding_iff isClass).mpr .refl
  · intro low middle high lowIsClass middleIsClass _ lower upper
    rw [isSubClassIncluding_iff lowIsClass] at lower ⊢
    rw [isSubClassIncluding_iff middleIsClass] at upper
    exact lower.trans upper
  · intro id left right isClass leftIsClass rightIsClass toLeft toRight
    rw [isSubClassIncluding_iff isClass] at toLeft toRight
    rw [isSubClassIncluding_iff leftIsClass, isSubClassIncluding_iff rightIsClass]
    exact ReflTransGen.total_of_right_unique program.hasSuper_rightUnique toLeft toRight

theorem subClassing_ordered_bypass :
    let hierarchy := (ofProgram bypassProgram .precise).1
    hierarchy.superClasses ⟨2⟩ = .ok [⟨3⟩, ⟨0⟩, ⟨1⟩] ∧
    hierarchy.isSubClass ⟨2⟩ ⟨2⟩ = .ok false ∧
    hierarchy.isSubClassIncluding ⟨2⟩ ⟨0⟩ = .ok true ∧
    hierarchy.isSubClassIncluding ⟨0⟩ ⟨1⟩ = .ok true ∧
    hierarchy.isSubClassIncluding ⟨2⟩ ⟨1⟩ = .ok true ∧
    hierarchy.isSubClassIncluding ⟨1⟩ ⟨0⟩ = .ok true ∧
    ∃ cycle low high, bypassProgram.IsCycle cycle ∧ low ∈ cycle ∧ high ∈ cycle ∧ low ≠ high ∧
      bypassProgram.isClass low = true ∧ bypassProgram.isClass high = true := by
  intro hierarchy
  have first : bypassProgram.isClass ⟨0⟩ = true := by decide
  have second : bypassProgram.isClass ⟨1⟩ = true := by decide
  have third : bypassProgram.isClass ⟨2⟩ = true := by decide
  have supers : bypassProgram.superOf? ⟨0⟩ = some ⟨1⟩ ∧ bypassProgram.superOf? ⟨1⟩ = some ⟨0⟩ := by
    decide +kernel
  have up : hierarchy.isSubClassIncluding ⟨0⟩ ⟨1⟩ = .ok true :=
    (isSubClassIncluding_iff first).mpr (.single supers.1)
  have down : hierarchy.isSubClassIncluding ⟨1⟩ ⟨0⟩ = .ok true :=
    (isSubClassIncluding_iff second).mpr (.single supers.2)
  have enters : hierarchy.isSubClassIncluding ⟨2⟩ ⟨0⟩ = .ok true := by
    rw [isSubClassIncluding_eq ⟨0⟩ third]
    exact congrArg (fun above => Except.ok ((⟨2⟩ :: above).contains ⟨0⟩)) bypassProgram_ancestors
  obtain ⟨_, irreflexive, _, transitive, _, antisymmetric⟩ := subClassing_ordered hierarchy
  refine ⟨?_, irreflexive ⟨2⟩ third, enters, up, ?_, down, ?_⟩
  · exact (superClasses_eq third).trans (congrArg _ bypassProgram_ancestors)
  · exact transitive ⟨2⟩ ⟨0⟩ ⟨1⟩ third first second enters up
  · by_contra acyclic
    exact absurd (antisymmetric.mpr acyclic ⟨0⟩ ⟨1⟩ first second up down) (by decide)

end Hierarchy

end CallResolution

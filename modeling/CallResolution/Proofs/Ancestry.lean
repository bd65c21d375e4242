import CallResolution.Proofs.Lookup

/-!
Above and below. What lies above a class is found by climbing, and what lies below it in a table
that leaves out what an interface names as its super-class. The climb does not stop at
interfaces; apart from that the two agree, also on cycles.
-/

namespace CallResolution

open Relation

namespace Search

variable {α : Type} [DecidableEq α] {next : α → Option α} {up : α → α → Prop} {node goal : α}
  {unvisited : List α}

theorem climb_follows {before after : List α}
    (split : climb next node unvisited = before ++ goal :: after)
    (steps : ∀ child ∈ node :: before, ∀ parent, next child = some parent → up child parent) :
    TransGen up node goal := by
  fun_induction climb next node unvisited generalizing before with
  | case1 => simp at split
  | case2 node unvisited above climbed _ ih =>
      have first : up node above := steps node (by simp) above climbed
      cases before with
      | nil =>
          cases (List.cons.inj split).1
          exact .single first
      | cons other before =>
          obtain ⟨rfl, rest⟩ := List.cons.inj split
          refine .head first (ih rest fun child member => ?_)
          exact steps child (List.mem_cons_of_mem _ member)
  | case3 => simp at split

theorem climb_keeps {good : α → Prop} (start : good node)
    (steps : ∀ child parent, good child → next child = some parent → good parent) :
    ∀ other ∈ climb next node unvisited, good other := by
  fun_induction climb next node unvisited with
  | case1 => simp
  | case2 node unvisited above climbed _ ih =>
      have reached := steps node above start climbed
      intro other member
      rcases List.mem_cons.mp member with rfl | later
      · exact reached
      · exact ih reached other later
  | case3 => simp

end Search

namespace Program

variable {program : Program} {child parent : ClassId}

theorem ancestor_once {before after : List ClassId}
    (split : program.ancestors child = before ++ parent :: after) :
    parent ∉ before ∧ parent ∉ after := by
  have unique : (before ++ parent :: after).Nodup := by
    rw [← split]
    exact Search.nodup_climb ..
  simpa using List.nodup_middle.mp unique |>.notMem

/-- A class lies below another if and only if it comes to it without passing an interface. -/
theorem extends_iff_ancestor (childIsClass : program.isClass child = true)
    (parentIsClass : program.isClass parent = true) (distinct : child ≠ parent) :
    TransGen program.ExtendsClass parent child ↔ parent ∈ program.ancestors child ∧
      ∀ before after, program.ancestors child = before ++ parent :: after →
        ∀ other ∈ before, program.isInterface other = false := by
  constructor
  · intro path
    obtain ⟨passed, above, found, leads⟩ := ancestors_meet parentIsClass path.to_reflTransGen
    cases passed with
    | nil => exact absurd (List.cons.inj found).1 distinct
    | cons first passed =>
        obtain ⟨_, climbed⟩ := List.cons.inj found
        refine ⟨by simp [climbed], fun before after split other earlier => ?_⟩
        obtain ⟨notBefore, notAfter⟩ := ancestor_once split
        obtain ⟨rfl, _⟩ := (List.append_cons_inj_of_notMem notBefore notAfter).mp
          (split.symm.trans climbed)
        have extended := leads other (List.mem_cons_of_mem _ earlier)
        exact (isClass_iff.mp (isClass_of_extends parentIsClass extended.to_reflTransGen)).2
  · rintro ⟨member, free⟩
    obtain ⟨before, after, split⟩ := List.append_of_mem member
    refine transGen_swap.mp (Search.climb_follows split fun other listed above climbed => ?_)
    rcases List.mem_cons.mp listed with rfl | earlier
    · exact ⟨childIsClass, climbed⟩
    · have bound : other.index < program.classes.size :=
        ancestors_bound (by rw [split]; exact List.mem_append_left _ earlier)
      exact ⟨isClass_iff.mpr ⟨bound, free before after split other earlier⟩, climbed⟩

def extendsOnlyClasses (program : Program) : Bool :=
  program.classIds.all fun id =>
    !program.isClass id || (program.superOf? id).all program.isClass

theorem isClass_of_ancestor (plain : program.extendsOnlyClasses = true)
    (childIsClass : program.isClass child = true) :
    ∀ other ∈ program.ancestors child, program.isClass other = true := by
  refine Search.climb_keeps childIsClass fun lower upper isClass climbed => ?_
  have listed : lower ∈ program.classIds := Handle.mem_upTo.mpr (bound_of_class isClass)
  simpa [isClass, climbed] using List.all_eq_true.mp plain lower listed

end Program

namespace Hierarchy

theorem superClasses_eq {hierarchy : Hierarchy} {id : ClassId}
    (isClass : hierarchy.program.isClass id = true) :
    hierarchy.superClasses id = .ok (hierarchy.program.ancestors id) := by
  obtain ⟨above, climbed, rfl⟩ := (superClasses_outcome isClass).exists_ok
  exact climbed

theorem superClassesIncluding_eq {hierarchy : Hierarchy} {id : ClassId}
    (isClass : hierarchy.program.isClass id = true) :
    hierarchy.superClassesIncluding id = .ok (id :: hierarchy.program.ancestors id) := by
  simp only [superClassesIncluding, superClasses_eq isClass, bind, Except.bind]

theorem isSubClass_eq {hierarchy : Hierarchy} {child : ClassId} (parent : ClassId)
    (isClass : hierarchy.program.isClass child = true) :
    hierarchy.isSubClass child parent =
      .ok ((hierarchy.program.ancestors child).contains parent) := by
  simp only [isSubClass, superClasses_eq isClass, bind, Except.bind]

/-- The walk upwards and the closure downwards agree, whatever was asked before, except for
classes that come to a class through an interface. -/
theorem climb_agrees_with_closure (program : Program) (policy : Policy)
    (requests : List Request) (child parent : ClassId)
    (childIsClass : program.isClass child = true)
    (parentIsClass : program.isClass parent = true) (distinct : child ≠ parent) :
    let built := afterHistory program policy requests
    ∃ below above answer, (built.1.subClasses parent built.2).1 = .ok below ∧
      built.1.superClasses child = .ok above ∧ built.1.isSubClass child parent = .ok answer ∧
      (child ∈ below ↔ answer = true ∧ ∀ before after, above = before ++ parent :: after →
        ∀ other ∈ before, program.isInterface other = false) ∧
      (program.extendsOnlyClasses = true → (answer = true ↔ child ∈ below)) := by
  intro built
  have held := exact_afterHistory program policy requests
  obtain ⟨below, closed, lists⟩ := (subClasses_exact policy parentIsClass _ held).2.exists_ok
  have agrees : child ∈ below ↔ parent ∈ program.ancestors child ∧
      ∀ before after, program.ancestors child = before ++ parent :: after →
        ∀ other ∈ before, program.isInterface other = false := by
    rw [lists.complete, below_subClassTable, and_iff_right distinct]
    exact Program.extends_iff_ancestor childIsClass parentIsClass distinct
  refine ⟨below, program.ancestors child, (program.ancestors child).contains parent, closed,
    superClasses_eq childIsClass, isSubClass_eq parent childIsClass, ?_, fun plain => ?_⟩
  · rw [agrees, List.contains_iff_mem]
  · rw [agrees, List.contains_iff_mem]
    refine ⟨fun member => ⟨member, fun before after split other earlier => ?_⟩, And.left⟩
    have passed : other ∈ program.ancestors child := by
      rw [split]
      exact List.mem_append_left _ earlier
    exact (Program.isClass_iff.mp
      (Program.isClass_of_ancestor plain childIsClass other passed)).2

def bypassProgram : Program where
  classes := #[⟨"A", some "B", [], .empty, []⟩, ⟨"B", some "A", [], .empty, []⟩,
    ⟨"C", some "I", [], .empty, []⟩, ⟨"I", some "A", [], .interfaceBit, []⟩]
  methods := #[]
  blocks := #[]

theorem bypassProgram_ancestors : bypassProgram.ancestors ⟨2⟩ = [⟨3⟩, ⟨0⟩, ⟨1⟩] := by
  have supers : bypassProgram.superOf? ⟨2⟩ = some ⟨3⟩ ∧ bypassProgram.superOf? ⟨3⟩ = some ⟨0⟩ ∧
      bypassProgram.superOf? ⟨0⟩ = some ⟨1⟩ ∧ bypassProgram.superOf? ⟨1⟩ = some ⟨0⟩ := by
    decide +kernel
  have ids : bypassProgram.classIds = [⟨0⟩, ⟨1⟩, ⟨2⟩, ⟨3⟩] := by decide
  simp [Program.ancestors, Search.climb, Search.without, supers, ids]

theorem mutualProgram_ancestors : mutualProgram.ancestors ⟨2⟩ = [⟨0⟩, ⟨1⟩] := by
  have supers : mutualProgram.superOf? ⟨2⟩ = some ⟨0⟩ ∧ mutualProgram.superOf? ⟨0⟩ = some ⟨1⟩ ∧
      mutualProgram.superOf? ⟨1⟩ = some ⟨0⟩ := by decide +kernel
  have ids : mutualProgram.classIds = [⟨0⟩, ⟨1⟩, ⟨2⟩, ⟨3⟩, ⟨4⟩] := by decide
  simp [Program.ancestors, Search.climb, Search.without, supers, ids]

theorem climb_agrees_with_closure_bypass :
    let bypass := afterHistory bypassProgram .precise [.subClasses ⟨0⟩]
    let direct := afterHistory mutualProgram .precise [.subClasses ⟨0⟩]
    bypassProgram.isClass ⟨1⟩ = true ∧ bypassProgram.isClass ⟨2⟩ = true ∧
    bypass.1.isSubClass ⟨2⟩ ⟨1⟩ = .ok true ∧
    (∃ below, (bypass.1.subClasses ⟨1⟩ bypass.2).1 = .ok below ∧ ⟨2⟩ ∉ below) ∧
    mutualProgram.extendsOnlyClasses = true ∧ direct.1.isSubClass ⟨2⟩ ⟨1⟩ = .ok true ∧
    ∃ below, (direct.1.subClasses ⟨1⟩ direct.2).1 = .ok below ∧ ⟨2⟩ ∈ below := by
  intro bypass direct
  have bypassed : bypass.1.superClasses ⟨2⟩ = .ok [⟨3⟩, ⟨0⟩, ⟨1⟩] :=
    (superClasses_eq (by decide)).trans (congrArg _ bypassProgram_ancestors)
  have reached : bypass.1.isSubClass ⟨2⟩ ⟨1⟩ = .ok true :=
    (isSubClass_eq ⟨1⟩ (by decide)).trans
      (congrArg (fun above => Except.ok (above.contains ⟨1⟩)) bypassProgram_ancestors)
  have follows : direct.1.isSubClass ⟨2⟩ ⟨1⟩ = .ok true :=
    (isSubClass_eq ⟨1⟩ (by decide)).trans
      (congrArg (fun above => Except.ok (above.contains ⟨1⟩)) mutualProgram_ancestors)
  have plain : mutualProgram.extendsOnlyClasses = true := by decide +kernel
  refine ⟨by decide, by decide, reached, ?_, plain, follows, ?_⟩
  · obtain ⟨below, above, answer, closed, climbed, _, agrees, _⟩ :=
      climb_agrees_with_closure bypassProgram .precise [.subClasses ⟨0⟩] ⟨2⟩ ⟨1⟩
        (by decide) (by decide) (by decide)
    refine ⟨below, closed, fun listed => ?_⟩
    have split : above = [⟨3⟩, ⟨0⟩] ++ ⟨1⟩ :: [] := by
      cases climbed.symm.trans bypassed
      rfl
    have free := (agrees.mp listed).2 [⟨3⟩, ⟨0⟩] [] split ⟨3⟩ (by simp)
    exact absurd free (by decide)
  · obtain ⟨below, _, answer, closed, _, asked, _, agrees⟩ :=
      climb_agrees_with_closure mutualProgram .precise [.subClasses ⟨0⟩] ⟨2⟩ ⟨1⟩
        (by decide) (by decide) (by decide)
    cases asked.symm.trans follows
    exact ⟨below, closed, (agrees plain).mp rfl⟩

end Hierarchy

end CallResolution

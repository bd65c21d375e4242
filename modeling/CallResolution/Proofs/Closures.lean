import CallResolution.Proofs.History
import CallResolution.Proofs.Loading
import CallResolution.Proofs.PlainWalk

/-!
Closures of direct inheritance. Memos never hold anything but exact closures, cycles or not,
and without cycles they hold the very lists that a search without memos finds.
-/

namespace CallResolution

open Relation

namespace Program

def ExtendsClass (program : Program) (parent child : ClassId) : Prop :=
  program.isClass child = true ∧ program.superOf? child = some parent

def ExtendsInterface (program : Program) (parent child : ClassId) : Prop :=
  program.isInterface child = true ∧ parent ∈ program.namedInterfaces child

/-- Neither sub-classing nor interface extension has a cycle. Interface extension counts only
if the policy looks at it. -/
structure Acyclic (program : Program) (policy : Policy) : Prop where
  classes : ∀ id, ¬ TransGen program.ExtendsClass id id
  interfaces : policy.interfaceExtension = true → ∀ id, ¬ TransGen program.ExtendsInterface id id

theorem isInterface_of_named {program : Program} {child parent : ClassId}
    (named : parent ∈ program.namedInterfaces child) : program.isInterface parent = true := by
  unfold namedInterfaces at named
  split at named
  · simp at named
  · exact (List.mem_filter.mp named).2

theorem requireEntry_outcome {program : Program} {bad : QueryError → Prop} {id : ClassId}
    (bound : id.index < program.classes.size) :
    Outcome (fun entry => program.class? id = some entry) bad (program.requireEntry id) := by
  have found : program.class? id = some program.classes[id.index] := by simp [class?, bound]
  rw [requireEntry, found]
  exact rfl

theorem requireMethod_outcome {program : Program} {bad : QueryError → Prop} {id : MethodId}
    (bound : id.index < program.methods.size) :
    Outcome (fun entry => program.method? id = some entry) bad (program.requireMethod id) := by
  have found : program.method? id = some program.methods[id.index] := by simp [method?, bound]
  rw [requireMethod, found]
  exact rfl

theorem requireClass_outcome {program : Program} {bad : QueryError → Prop} {id : ClassId}
    (isClass : program.isClass id = true) :
    Outcome (fun entry => program.class? id = some entry) bad (program.requireClass id) := by
  obtain ⟨entry, found, plain⟩ := (Option.any_eq_true _ _).mp isClass
  have notInterface : entry.isInterface = false := by simpa using plain
  simp only [requireClass, requireEntry, found, bind, Except.bind, notInterface,
    Bool.false_eq_true, if_false]
  exact rfl

theorem requireInterface_outcome {program : Program} {bad : QueryError → Prop} {id : ClassId}
    (isInterface : program.isInterface id = true) :
    Outcome (fun entry => program.class? id = some entry) bad (program.requireInterface id) := by
  obtain ⟨entry, found, holds⟩ := (Option.any_eq_true _ _).mp isInterface
  simp only [requireInterface, requireEntry, found, bind, Except.bind, holds, if_true]
  exact rfl

theorem acyclic_of_increasing {step : ClassId → ClassId → Prop}
    (increasing : ∀ parent child, step parent child → parent.index < child.index) (id : ClassId) :
    ¬ TransGen step id id := by
  have above : ∀ other, TransGen step id other → id.index < other.index := by
    intro other path
    induction path with
    | single edge => exact increasing _ _ edge
    | tail _ edge ih => exact Nat.lt_trans ih (increasing _ _ edge)
  exact fun cycle => Nat.lt_irrefl _ (above id cycle)

theorem acyclic_of_ordered {program : Program} (policy : Policy)
    (classes : ∀ child ∈ program.classIds,
      (program.superOf? child).all (fun parent => parent.index < child.index) = true)
    (interfaces : ∀ child ∈ program.classIds,
      (program.namedInterfaces child).all (fun parent => parent.index < child.index) = true) :
    program.Acyclic policy := by
  refine ⟨acyclic_of_increasing ?_, fun _ => acyclic_of_increasing ?_⟩
  · rintro parent child ⟨isClass, super⟩
    have ordered := classes child (Handle.mem_upTo.mpr (bound_of_class isClass))
    simpa [super] using ordered
  · rintro parent child ⟨isInterface, named⟩
    have ordered := interfaces child (Handle.mem_upTo.mpr (bound_of_class isInterface))
    simpa using List.all_eq_true.mp ordered parent named

end Program

namespace Hierarchy

variable {program : Program} {policy : Policy}

theorem mem_subClassTable {parent child : ClassId} :
    child ∈ tableRow (tables program policy).subClassTable parent ↔
      program.ExtendsClass parent child := by
  by_cases bound : parent.index < program.classes.size
  · simp only [tables, Program.tableRow_tabulate _ _ _ bound, Program.directSubClasses,
      List.mem_filter, Program.classIds, Handle.mem_upTo, Bool.and_eq_true, beq_iff_eq]
    exact ⟨fun member => member.2, fun extended => ⟨Program.bound_of_class extended.1, extended⟩⟩
  · constructor
    · intro member
      simp [tableRow, tables, Program.tabulate, Program.classIds, bound] at member
    · intro extended
      exact absurd (Program.superOf?_bound extended.2) bound

theorem mem_subInterfaceTable {parent child : ClassId} :
    child ∈ tableRow (tables program policy).subInterfaceTable parent ↔
      policy.interfaceExtension = true ∧ program.ExtendsInterface parent child := by
  by_cases bound : parent.index < program.classes.size
  · simp only [tables, Program.tableRow_tabulate _ _ _ bound]
    by_cases extension : policy.interfaceExtension = true
    · simp only [extension, if_true, true_and, Program.directSubInterfaces, List.mem_flatMap,
        List.mem_filter, List.mem_map, Program.classIds, Handle.mem_upTo, beq_iff_eq]
      constructor
      · rintro ⟨_, ⟨_, isInterface⟩, _, ⟨named, rfl⟩, rfl⟩
        exact ⟨isInterface, named⟩
      · rintro ⟨isInterface, named⟩
        exact ⟨child, ⟨Program.bound_of_class isInterface, isInterface⟩, parent, ⟨named, rfl⟩, rfl⟩
    · simp [extension]
  · constructor
    · intro member
      simp [tableRow, tables, Program.tabulate, Program.classIds, bound] at member
    · intro extended
      exact absurd (Program.bound_of_class (Program.isInterface_of_named extended.2.2)) bound

theorem below_subClassTable {id other : ClassId} :
    Search.Below (tableRow (tables program policy).subClassTable) id other ↔
      TransGen program.ExtendsClass id other := by
  simp only [Search.Below, mem_subClassTable]

theorem below_subInterfaceTable {id other : ClassId} :
    Search.Below (tableRow (tables program policy).subInterfaceTable) id other ↔
      policy.interfaceExtension = true ∧ TransGen program.ExtendsInterface id other := by
  simp only [Search.Below, mem_subInterfaceTable]
  constructor
  · intro path
    obtain ⟨_, _, last⟩ := TransGen.tail'_iff.mp path
    exact ⟨last.1, TransGen.mono (fun _ _ step => step.2) _ _ path⟩
  · rintro ⟨extension, path⟩
    exact TransGen.mono (fun _ _ step => ⟨extension, step⟩) _ _ path

theorem subClassTable_inside (program : Program) (policy : Policy) (id : ClassId) :
    ∀ child ∈ tableRow (tables program policy).subClassTable id, child ∈ program.classIds := by
  intro child member
  have extended := mem_subClassTable.mp member
  exact Handle.mem_upTo.mpr (Program.bound_of_class extended.1)

theorem subInterfaceTable_inside (program : Program) (policy : Policy) (id : ClassId) :
    ∀ child ∈ tableRow (tables program policy).subInterfaceTable id, child ∈ program.classIds := by
  intro child member
  have extended := mem_subInterfaceTable.mp member
  exact Handle.mem_upTo.mpr (Program.bound_of_class extended.2.1)

structure Exact (hierarchy : Hierarchy) (memos : Memos) : Prop where
  subClasses : Search.Sound (tableRow hierarchy.subClassTable) memos.subClasses.get?
  subInterfaces : Search.Sound (tableRow hierarchy.subInterfaceTable) memos.subInterfaces.get?

theorem exact_empty (hierarchy : Hierarchy) : hierarchy.Exact ⟨.empty, .empty⟩ :=
  ⟨fun _ _ recorded => (by cases recorded), fun _ _ recorded => (by cases recorded)⟩

theorem subClassClosure_exact (program : Program) (policy : Policy) (id : ClassId) :
    Ensures (tables program policy).Exact ((tables program policy).subClassClosure id)
      (Search.Lists (tableRow (tables program policy).subClassTable) id) := by
  intro memos held
  obtain ⟨lists, sound⟩ := Search.closure_lists held.subClasses
    (subClassTable_inside program policy) id
  exact ⟨⟨sound, held.subInterfaces⟩, lists⟩

theorem subInterfaceClosure_exact (program : Program) (policy : Policy) (id : ClassId) :
    Ensures (tables program policy).Exact ((tables program policy).subInterfaceClosure id)
      (Search.Lists (tableRow (tables program policy).subInterfaceTable) id) := by
  intro memos held
  obtain ⟨lists, sound⟩ := Search.closure_lists held.subInterfaces
    (subInterfaceTable_inside program policy) id
  exact ⟨⟨held.subClasses, sound⟩, lists⟩

theorem maintains_exact (program : Program) (policy : Policy) :
    (tables program policy).Maintains (tables program policy).Exact where
  subClasses id := (subClassClosure_exact program policy id).mono fun _ _ => trivial
  subInterfaces id := (subInterfaceClosure_exact program policy id).mono fun _ _ => trivial

theorem exact_afterHistory (program : Program) (policy : Policy) (requests : List Request) :
    (tables program policy).Exact (afterHistory program policy requests).2 :=
  inv_afterHistory (maintains_exact program policy) (exact_empty _) requests

theorem subClasses_meets {hierarchy : Hierarchy} {inv : Memos → Prop} {id : ClassId}
    {good : List ClassId → Prop} {bad : QueryError → Prop}
    (isClass : hierarchy.program.isClass id = true)
    (closure : Ensures inv (hierarchy.subClassClosure id) good) :
    Query.Meets inv (hierarchy.subClasses id) good bad := by
  exact (Query.Meets.ofExcept (Program.requireClass_outcome isClass)).bind
    fun _ _ => .ofClosure closure

theorem subInterfaces_meets {hierarchy : Hierarchy} {inv : Memos → Prop} {id : ClassId}
    {good : List ClassId → Prop} {bad : QueryError → Prop}
    (isInterface : hierarchy.program.isInterface id = true)
    (closure : Ensures inv (hierarchy.subInterfaceClosure id) good) :
    Query.Meets inv (hierarchy.subInterfaces id) good bad := by
  exact (Query.Meets.ofExcept (Program.requireInterface_outcome isInterface)).bind
    fun _ _ => .ofClosure closure

theorem subClasses_exact {bad : QueryError → Prop} (policy : Policy) {id : ClassId}
    (isClass : program.isClass id = true) :
    Query.Meets (tables program policy).Exact ((ofProgram program policy).1.subClasses id)
      (Search.Lists (tableRow (tables program policy).subClassTable) id) bad :=
  subClasses_meets isClass (subClassClosure_exact program policy id)

theorem subInterfaces_exact {bad : QueryError → Prop} (policy : Policy) {id : ClassId}
    (isInterface : program.isInterface id = true) :
    Query.Meets (tables program policy).Exact ((ofProgram program policy).1.subInterfaces id)
      (Search.Lists (tableRow (tables program policy).subInterfaceTable) id) bad :=
  subInterfaces_meets isInterface (subInterfaceClosure_exact program policy id)

/-- Sub-classes and sub-interfaces are exact, whatever was asked before and however the
program inherits. -/
theorem closures_exact (program : Program) (policy : Policy) (requests : List Request) :
    let built := afterHistory program policy requests
    (∀ id, program.isClass id = true → ∃ answer,
      (built.1.subClasses id built.2).1 = .ok answer ∧ answer.Nodup ∧
        ∀ other, other ∈ answer ↔ other ≠ id ∧ TransGen program.ExtendsClass id other) ∧
    (∀ id, program.isInterface id = true → ∃ answer,
      (built.1.subInterfaces id built.2).1 = .ok answer ∧ answer.Nodup ∧
        (policy.interfaceExtension = false → answer = []) ∧
        (policy.interfaceExtension = true →
          ∀ other, other ∈ answer ↔ other ≠ id ∧ TransGen program.ExtendsInterface id other)) := by
  have held := exact_afterHistory program policy requests
  refine ⟨fun id isClass => ?_, fun id isInterface => ?_⟩
  · obtain ⟨answer, asked, lists⟩ := (subClasses_exact policy isClass _ held).2.exists_ok
    refine ⟨answer, asked, lists.unique, fun other => ?_⟩
    rw [lists.complete, below_subClassTable]
  · obtain ⟨answer, asked, lists⟩ := (subInterfaces_exact policy isInterface _ held).2.exists_ok
    refine ⟨answer, asked, lists.unique, fun off => ?_, fun on other => ?_⟩
    · apply List.eq_nil_iff_forall_not_mem.mpr
      intro other member
      have path := ((lists.complete other).mp member).2
      simp [below_subInterfaceTable, off] at path
    · rw [lists.complete, below_subInterfaceTable]
      simp [on]

def mutualProgram : Program where
  classes := #[⟨"A", some "B", [], .empty, []⟩, ⟨"B", some "A", [], .empty, []⟩,
    ⟨"C", some "A", ["I"], .empty, []⟩, ⟨"I", none, ["J"], .interfaceBit, []⟩,
    ⟨"J", none, ["I"], .interfaceBit, []⟩]
  methods := #[]
  blocks := #[]

theorem closures_exact_mutual :
    let built := afterHistory mutualProgram .precise [.subClasses ⟨1⟩, .implementers ⟨4⟩]
    mutualProgram.isClass ⟨0⟩ = true ∧ mutualProgram.isInterface ⟨3⟩ = true ∧
    (∃ answer, (built.1.subClasses ⟨0⟩ built.2).1 = .ok answer ∧ answer.Nodup ∧
      ∀ other, other ∈ answer ↔ other ≠ ⟨0⟩ ∧ TransGen mutualProgram.ExtendsClass ⟨0⟩ other) ∧
    ∃ answer, (built.1.subInterfaces ⟨3⟩ built.2).1 = .ok answer ∧ answer.Nodup ∧
      (Policy.precise.interfaceExtension = false → answer = []) ∧
      (Policy.precise.interfaceExtension = true → ∀ other, other ∈ answer ↔
        other ≠ ⟨3⟩ ∧ TransGen mutualProgram.ExtendsInterface ⟨3⟩ other) :=
  ⟨by decide, by decide,
    (closures_exact mutualProgram .precise [.subClasses ⟨1⟩, .implementers ⟨4⟩]).1 ⟨0⟩ (by decide),
    (closures_exact mutualProgram .precise [.subClasses ⟨1⟩, .implementers ⟨4⟩]).2 ⟨3⟩ (by decide)⟩

/-- Every remembered closure is the list that a search without memos finds. -/
structure Plain (hierarchy : Hierarchy) (memos : Memos) : Prop where
  subClasses : ∀ id known, memos.subClasses.get? id = some known →
    known = Search.descendants (tableRow hierarchy.subClassTable) (fun _ => none)
      hierarchy.program.classIds id
  subInterfaces : ∀ id known, memos.subInterfaces.get? id = some known →
    known = Search.descendants (tableRow hierarchy.subInterfaceTable) (fun _ => none)
      hierarchy.program.classIds id

theorem plain_empty (hierarchy : Hierarchy) : hierarchy.Plain ⟨.empty, .empty⟩ :=
  ⟨fun _ _ recorded => (by cases recorded), fun _ _ recorded => (by cases recorded)⟩

section Plain

variable (acyclic : program.Acyclic policy)

include acyclic

theorem subClassTable_acyclic :
    Search.Acyclic (tableRow (tables program policy).subClassTable) := by
  intro id cycle
  exact acyclic.classes id (below_subClassTable.mp cycle)

theorem subInterfaceTable_acyclic :
    Search.Acyclic (tableRow (tables program policy).subInterfaceTable) := by
  intro id cycle
  obtain ⟨extension, path⟩ := below_subInterfaceTable.mp cycle
  exact acyclic.interfaces extension id path

theorem subClassClosure_plain (id : ClassId) :
    Ensures (tables program policy).Plain ((tables program policy).subClassClosure id)
      (· = Search.descendants (tableRow (tables program policy).subClassTable) (fun _ => none)
        program.classIds id) := by
  intro memos held
  obtain ⟨same, kept⟩ := Search.closure_plain (subClassTable_acyclic acyclic)
    (subClassTable_inside program policy) held.subClasses id
  exact ⟨⟨kept, held.subInterfaces⟩, same⟩

theorem subInterfaceClosure_plain (id : ClassId) :
    Ensures (tables program policy).Plain ((tables program policy).subInterfaceClosure id)
      (· = Search.descendants (tableRow (tables program policy).subInterfaceTable) (fun _ => none)
        program.classIds id) := by
  intro memos held
  obtain ⟨same, kept⟩ := Search.closure_plain (subInterfaceTable_acyclic acyclic)
    (subInterfaceTable_inside program policy) held.subInterfaces id
  exact ⟨⟨held.subClasses, kept⟩, same⟩

theorem maintains_plain :
    (tables program policy).Maintains (tables program policy).Plain :=
  ⟨fun id => (subClassClosure_plain acyclic id).mono fun _ _ => trivial,
    fun id => (subInterfaceClosure_plain acyclic id).mono fun _ _ => trivial⟩

theorem plain_afterHistory (requests : List Request) :
    (tables program policy).Plain (afterHistory program policy requests).2 :=
  inv_afterHistory (maintains_plain acyclic) (plain_empty _) requests

theorem settles_subClassesIncluding (id : ClassId) :
    Query.Settles (tables program policy).Plain
      ((ofProgram program policy).1.subClassesIncluding id) := by
  have closure := subClassClosure_plain acyclic id
  refine Query.Settles.bind ?_ fun below => .pure (below ++ [id])
  exact (Query.Settles.ofExcept _).bind fun _ => .ofClosure closure

theorem settles_implementers (id : ClassId) :
    Query.Settles (tables program policy).Plain
      ((ofProgram program policy).1.implementers id) := by
  have closure := subInterfaceClosure_plain acyclic id
  refine Query.Settles.bind ?_ fun interfaces => .pure _
  refine Query.Settles.bind ?_ fun below => .pure (below ++ [id])
  exact (Query.Settles.ofExcept _).bind fun _ => .ofClosure closure

theorem settles_abstractTargets (id : ClassId) (method : MethodId) :
    Query.Settles (tables program policy).Plain
      ((ofProgram program policy).1.abstractTargets id method) := by
  refine Query.Settles.bind ?_ fun receivers => .ofExcept _
  refine (Query.Settles.ofExcept _).bind fun entry => ?_
  split
  · refine (settles_implementers acyclic id).bind fun implementers => ?_
    refine Query.Settles.bind (.mapM fun other => ?_) fun groups => .pure _
    exact settles_subClassesIncluding acyclic other
  · exact settles_subClassesIncluding acyclic id

theorem settles_targets (kind : InvocationKind) (method container : MethodId) :
    Query.Settles (tables program policy).Plain
      ((ofProgram program policy).1.targets kind method container) := by
  refine targets_cases ?_ ?_ ?_ kind
  · exact (Query.Settles.ofExcept _).bind fun entry =>
      settles_abstractTargets acyclic entry.owner method
  · exact (Query.Settles.ofExcept _).bind fun target => .pure [target]
  · exact .pure [method]

theorem same_afterHistory {α : Type} {query : Query α}
    (settles : query.Settles (tables program policy).Plain) (requests others : List Request) :
    (query (afterHistory program policy requests).2).1 =
      (query (afterHistory program policy others).2).1 := by
  obtain ⟨answer, asked⟩ := settles
  rw [(asked _ (plain_afterHistory acyclic requests)).2,
    (asked _ (plain_afterHistory acyclic others)).2]

end Plain

/-- Without cycles memos change no answer. Closures are the lists found with all memos empty,
every class after all that extends it, and dispatch does not depend on what was asked before. -/
theorem closures_plain (program : Program) (policy : Policy) (acyclic : program.Acyclic policy)
    (requests : List Request) :
    let built := afterHistory program policy requests
    (∀ id, program.isClass id = true → ∃ answer,
      (built.1.subClasses id built.2).1 = .ok answer ∧
      answer = Search.descendants (tableRow built.1.subClassTable) Search.Memo.empty.get?
        program.classIds id ∧
      ∀ earlier other later, answer = earlier ++ other :: later →
        ∀ below, TransGen program.ExtendsClass other below → below ∈ earlier) ∧
    (∀ id, program.isInterface id = true → ∃ answer,
      (built.1.subInterfaces id built.2).1 = .ok answer ∧
      answer = Search.descendants (tableRow built.1.subInterfaceTable) Search.Memo.empty.get?
        program.classIds id ∧
      ∀ earlier other later, answer = earlier ++ other :: later →
        ∀ below, TransGen program.ExtendsInterface other below → below ∈ earlier) ∧
    ∀ others : List Request,
      let again := afterHistory program policy others
      (∀ id, (built.1.implementers id built.2).1 = (again.1.implementers id again.2).1) ∧
      (∀ id method, (built.1.abstractTargets id method built.2).1 =
        (again.1.abstractTargets id method again.2).1) ∧
      ∀ kind method container, (built.1.targets kind method container built.2).1 =
        (again.1.targets kind method container again.2).1 := by
  have held := plain_afterHistory acyclic requests
  refine ⟨fun id isClass => ?_, fun id isInterface => ?_, fun others => ⟨?_, ?_, ?_⟩⟩
  · have meets : Query.Meets _ ((ofProgram program policy).1.subClasses id) _ fun _ => False :=
      subClasses_meets isClass (subClassClosure_plain acyclic id)
    obtain ⟨answer, asked, same⟩ := (meets _ held).2.exists_ok
    refine ⟨answer, asked, same, fun earlier other later split below path => ?_⟩
    exact Search.descendants_listed_before (subClassTable_acyclic acyclic)
      (subClassTable_inside program policy) (same.symm.trans split) (below_subClassTable.mpr path)
  · have meets : Query.Meets _ ((ofProgram program policy).1.subInterfaces id) _ fun _ => False :=
      subInterfaces_meets isInterface (subInterfaceClosure_plain acyclic id)
    obtain ⟨answer, asked, same⟩ := (meets _ held).2.exists_ok
    refine ⟨answer, asked, same, fun earlier other later split below path => ?_⟩
    have lists := Search.descendants_lists Search.sound_none
      (subInterfaceTable_inside program policy) id
    have listed := (lists.complete other).mp (by rw [← same, split]; simp)
    obtain ⟨extension, _⟩ := below_subInterfaceTable.mp listed.2
    exact Search.descendants_listed_before (subInterfaceTable_acyclic acyclic)
      (subInterfaceTable_inside program policy) (same.symm.trans split)
      (below_subInterfaceTable.mpr ⟨extension, path⟩)
  · intro id
    exact same_afterHistory acyclic (settles_implementers acyclic id) requests others
  · intro id method
    exact same_afterHistory acyclic (settles_abstractTargets acyclic id method) requests others
  · intro kind method container
    exact same_afterHistory acyclic (settles_targets acyclic kind method container) requests others

def diamondProgram : Program where
  classes := #[⟨"Top", none, [], .interfaceBit, []⟩, ⟨"Left", none, ["Top"], .interfaceBit, []⟩,
    ⟨"Right", none, ["Top"], .interfaceBit, []⟩,
    ⟨"Bottom", none, ["Left", "Right", "Left"], .interfaceBit, []⟩,
    ⟨"Base", none, ["Bottom"], .empty, []⟩, ⟨"Derived", some "Base", ["Left"], .empty, []⟩]
  methods := #[]
  blocks := #[]

theorem diamondProgram_acyclic : diamondProgram.Acyclic .precise :=
  Program.acyclic_of_ordered .precise (by decide +kernel) (by decide +kernel)

theorem closures_plain_diamond :
    let built := afterHistory diamondProgram .precise [.subInterfaces ⟨2⟩, .subClasses ⟨5⟩]
    diamondProgram.Acyclic .precise ∧
    diamondProgram.isClass ⟨4⟩ = true ∧ diamondProgram.isInterface ⟨0⟩ = true ∧
    (built.1.subClasses ⟨4⟩ built.2).1 = .ok [⟨5⟩] ∧
    (built.1.subInterfaces ⟨0⟩ built.2).1 = .ok [⟨3⟩, ⟨1⟩, ⟨2⟩] := by
  have plain := closures_plain diamondProgram .precise diamondProgram_acyclic
    [.subInterfaces ⟨2⟩, .subClasses ⟨5⟩]
  have classes : (tables diamondProgram .precise).subClassTable =
      #[[], [], [], [], [⟨5⟩], []] := by decide +kernel
  have interfaces : (tables diamondProgram .precise).subInterfaceTable =
      #[[⟨1⟩, ⟨2⟩], [⟨3⟩, ⟨3⟩], [⟨3⟩], [], [], []] := by decide +kernel
  refine ⟨diamondProgram_acyclic, by decide, by decide, ?_, ?_⟩
  · obtain ⟨answer, asked, same, _⟩ := plain.1 ⟨4⟩ (by decide)
    rw [asked, same]
    change Except.ok (Search.descendants
      (tableRow (tables diamondProgram .precise).subClassTable) _ _ _) = _
    rw [classes]
    simp [Search.descendants, Search.postorder, tableRow, Search.without, diamondProgram,
      Program.classIds, Handle.upTo, List.range_succ]
  · obtain ⟨answer, asked, same, _⟩ := plain.2.1 ⟨0⟩ (by decide)
    rw [asked, same]
    change Except.ok (Search.descendants
      (tableRow (tables diamondProgram .precise).subInterfaceTable) _ _ _) = _
    rw [interfaces]
    simp [Search.descendants, Search.postorder, tableRow, Search.without, diamondProgram,
      Program.classIds, Handle.upTo, List.range_succ]

end Hierarchy

end CallResolution

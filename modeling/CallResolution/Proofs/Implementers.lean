import CallResolution.Proofs.Resolved

/-!
Implementers of an interface. They are collected in stages: the classes that name an interface,
their sub-classes, and the union over sub-interfaces. What comes out depends on the declarations
alone, and it grows with the interfaces below and with the policy.
-/

namespace CallResolution

open Relation

namespace Program

def Declares (program : Program) (id interface : ClassId) : Prop :=
  ∃ entry, program.class? id = some entry ∧ entry.isInterface = false ∧
    ∃ name ∈ entry.interfaces, program.classId? name = some interface

def SubInterface (program : Program) (policy : Policy) (interface below : ClassId) : Prop :=
  policy.interfaceExtension = true ∧ TransGen program.ExtendsInterface interface below

variable {program : Program} {policy : Policy} {id named other : ClassId}

theorem SubInterface.isInterface (below : program.SubInterface policy id named) :
    program.isInterface named = true := by
  obtain ⟨_, _, last⟩ := TransGen.tail'_iff.mp below.2
  exact last.1

theorem declares_iff (isInterface : program.isInterface named = true) :
    program.Declares id named ↔
      program.isClass id = true ∧ named ∈ program.namedInterfaces id := by
  constructor
  · rintro ⟨entry, listed, isClass, declared⟩
    refine ⟨by simp [Program.isClass, listed, isClass], ?_⟩
    exact (mem_namedInterfaces listed).mpr ⟨declared, isInterface⟩
  · rintro ⟨isClass, listed⟩
    obtain ⟨entry, found, kind⟩ := (Option.any_eq_true _ _).mp isClass
    refine ⟨entry, found, by simpa using kind, ?_⟩
    exact ((mem_namedInterfaces found).mp listed).1

theorem implements_iff (isInterface : program.isInterface id = true) :
    program.Implements policy id other ↔
      ∃ named direct, (named = id ∨ program.SubInterface policy id named) ∧
        program.Declares direct named ∧
        (other = direct ∨ TransGen program.ExtendsClass direct other) := by
  have interfaces : ∀ named, named = id ∨ program.SubInterface policy id named →
      program.isInterface named = true := by
    rintro named (rfl | below)
    · exact isInterface
    · exact below.isInterface
  constructor
  · rintro ⟨named, reached, direct, isClass, listed, path⟩
    refine ⟨named, direct, reached, ?_, reflTransGen_iff_eq_or_transGen.mp path⟩
    exact (declares_iff (interfaces named reached)).mpr ⟨isClass, listed⟩
  · rintro ⟨named, direct, reached, declares, path⟩
    obtain ⟨isClass, listed⟩ := (declares_iff (interfaces named reached)).mp declares
    exact ⟨named, reached, direct, isClass, listed, reflTransGen_iff_eq_or_transGen.mpr path⟩

theorem Implements.above (below : program.SubInterface policy id named)
    (implemented : program.Implements policy named other) :
    program.Implements policy id other := by
  obtain ⟨lower, reached, names⟩ := implemented
  refine ⟨lower, .inr ?_, names⟩
  rcases reached with rfl | ⟨_, path⟩
  · exact below
  · exact ⟨below.1, below.2.trans path⟩

theorem Implements.extension (implemented : program.Implements policy id other) :
    program.Implements { policy with interfaceExtension := true } id other := by
  obtain ⟨lower, reached, names⟩ := implemented
  exact ⟨lower, reached.imp_right fun below => ⟨rfl, below.2⟩, names⟩

structure ListsImplementers (program : Program) (policy : Policy) (id : ClassId)
    (classes : List ClassId) : Prop where
  unique : classes.Nodup
  isClass : ∀ other ∈ classes, program.isClass other = true
  complete : ∀ other, other ∈ classes ↔ program.Implements policy id other

end Program

namespace Hierarchy

theorem implementers_distinct {inv : Memos → Prop} {hierarchy : Hierarchy}
    (maintains : hierarchy.Maintains inv) (id : ClassId) :
    Query.Meets inv (hierarchy.implementers id) List.Nodup fun _ => True :=
  (maintains.keeps_subInterfacesIncluding id).bind fun _ _ => .pure (nodup_eraseDups _)

theorem implementers_listed (program : Program) (policy : Policy) (requests : List Request)
    {id : ClassId} (isInterface : program.isInterface id = true) :
    let built := afterHistory program policy requests
    ∃ answer, (built.1.implementers id built.2).1 = .ok answer ∧
      program.ListsImplementers policy id answer := by
  intro built
  have held := exact_afterHistory program policy requests
  obtain ⟨answer, asked, complete⟩ := (implementers_exact isInterface _ held).2.exists_ok
  have distinct := (implementers_distinct (ofProgram_maintains (maintains_exact program policy))
    id _ held).2
  rw [asked] at distinct
  exact ⟨answer, asked, distinct, fun other listed => ((complete other).mp listed).isClass,
    complete⟩

/-- Implementers are exact, whatever was asked before. They are closed under sub-classes, an
interface has those of its sub-interfaces, and looking at interface extension loses none. -/
theorem implementers_complete (program : Program) (policy : Policy) (requests : List Request)
    {id : ClassId} (isInterface : program.isInterface id = true) :
    let built := afterHistory program policy requests
    ∃ answer, (built.1.implementers id built.2).1 = .ok answer ∧ answer.Nodup ∧
      (∀ other ∈ answer, program.isClass other = true) ∧
      (∀ other, other ∈ answer ↔
        ∃ named direct, (named = id ∨ program.SubInterface policy id named) ∧
          program.Declares direct named ∧
          (other = direct ∨ TransGen program.ExtendsClass direct other)) ∧
      ∀ others : List Request,
        let again := afterHistory program policy others
        let extended := afterHistory program { policy with interfaceExtension := true } others
        (∀ other ∈ answer, ∃ below, (again.1.subClasses other again.2).1 = .ok below ∧
          below ⊆ answer) ∧
        (∃ interfaces, (again.1.subInterfaces id again.2).1 = .ok interfaces ∧
          (∀ named, named ∈ interfaces ↔ named ≠ id ∧ program.SubInterface policy id named) ∧
          ∀ named ∈ interfaces, ∃ fewer, (again.1.implementers named again.2).1 = .ok fewer ∧
            fewer ⊆ answer) ∧
        ∃ more, (extended.1.implementers id extended.2).1 = .ok more ∧ answer ⊆ more := by
  intro built
  obtain ⟨answer, asked, lists⟩ := implementers_listed program policy requests isInterface
  refine ⟨answer, asked, lists.unique, lists.isClass, ?_, ?_⟩
  · intro other
    rw [lists.complete, Program.implements_iff isInterface]
  · intro others again extended
    have held := exact_afterHistory program policy others
    refine ⟨?_, ?_, ?_⟩
    · intro other listed
      obtain ⟨below, found, exact⟩ :=
        (subClasses_exact policy (lists.isClass other listed) _ held).2.exists_ok
      refine ⟨below, found, ?_⟩
      intro lower member
      have path := below_subClassTable.mp ((exact.complete lower).mp member).2
      have implemented := (lists.complete other).mp listed
      exact (lists.complete lower).mpr (implemented.extends path.to_reflTransGen)
    · obtain ⟨interfaces, found, exact⟩ :=
        (subInterfaces_exact policy isInterface _ held).2.exists_ok
      have below : ∀ named, named ∈ interfaces ↔
          named ≠ id ∧ program.SubInterface policy id named := by
        intro named
        rw [exact.complete, below_subInterfaceTable]
        rfl
      refine ⟨interfaces, found, below, ?_⟩
      intro named listed
      have lower := ((below named).mp listed).2
      obtain ⟨fewer, collected, listsFewer⟩ := implementers_listed program policy others lower.isInterface
      refine ⟨fewer, collected, ?_⟩
      intro other member
      exact (lists.complete other).mpr (((listsFewer.complete other).mp member).above lower)
    · obtain ⟨more, collected, listsMore⟩ := implementers_listed program
        { policy with interfaceExtension := true } others isInterface
      refine ⟨more, collected, ?_⟩
      intro other member
      exact (listsMore.complete other).mpr ((lists.complete other).mp member).extension

def entwinedProgram : Program where
  classes := #[⟨"I", none, ["J"], .interfaceBit, []⟩, ⟨"J", none, ["I"], .interfaceBit, []⟩,
    ⟨"A", some "B", ["J", "J"], .empty, []⟩, ⟨"B", some "A", [], .empty, []⟩,
    ⟨"C", some "I", [], .empty, []⟩]
  methods := #[]
  blocks := #[]

theorem implementers_complete_entwined :
    let built := afterHistory entwinedProgram .precise [.subInterfaces ⟨1⟩, .subClasses ⟨3⟩]
    entwinedProgram.isInterface ⟨0⟩ = true ∧
    ∃ answer, (built.1.implementers ⟨0⟩ built.2).1 = .ok answer ∧ answer.Nodup ∧
      ⟨2⟩ ∈ answer ∧ ⟨3⟩ ∈ answer ∧ ⟨4⟩ ∉ answer := by
  intro built
  have isInterface : entwinedProgram.isInterface ⟨0⟩ = true := by decide
  obtain ⟨answer, asked, unique, _, complete, _⟩ := implementers_complete entwinedProgram
    .precise [.subInterfaces ⟨1⟩, .subClasses ⟨3⟩] isInterface
  have below : entwinedProgram.SubInterface .precise ⟨0⟩ ⟨1⟩ :=
    ⟨rfl, .single ⟨by decide, by decide +kernel⟩⟩
  have declares : entwinedProgram.Declares ⟨2⟩ ⟨1⟩ :=
    ⟨_, rfl, rfl, "J", by decide, by decide +kernel⟩
  refine ⟨isInterface, answer, asked, unique, ?_, ?_, ?_⟩
  · exact (complete _).mpr ⟨⟨1⟩, ⟨2⟩, .inr below, declares, .inl rfl⟩
  · have step : entwinedProgram.ExtendsClass ⟨2⟩ ⟨3⟩ := ⟨by decide, by decide +kernel⟩
    exact (complete _).mpr ⟨⟨1⟩, ⟨2⟩, .inr below, declares, .inr (.single step)⟩
  · intro listed
    obtain ⟨named, direct, _, ⟨entry, found, kind, name, member, _⟩, path⟩ :=
      (complete _).mp listed
    rcases path with rfl | path
    · cases found
      cases member
    · -- the step to the class starts at an interface, and no class leads there
      obtain ⟨parent, earlier, last⟩ := TransGen.tail'_iff.mp path
      have same : parent = ⟨0⟩ := Option.some.inj (last.2.symm.trans (by decide +kernel))
      subst same
      rcases reflTransGen_iff_eq_or_transGen.mp earlier with rfl | further
      · cases found
        cases kind
      · obtain ⟨_, _, impossible⟩ := TransGen.tail'_iff.mp further
        cases impossible.1

end Hierarchy

end CallResolution

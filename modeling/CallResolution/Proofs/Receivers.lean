import CallResolution.Proofs.Closures

/-!
Which classes an expression may denote objects of. The answer depends on memos for its order
only: its members are the classes that the declarations of the program allow.
-/

namespace CallResolution

open Relation

namespace Search

variable {α : Type} [DecidableEq α] {children : α → List α}

theorem Lists.mem_including {root node : α} {below : List α} (lists : Lists children root below) :
    node ∈ below ++ [root] ↔ node = root ∨ Below children root node := by
  rw [List.mem_append, List.mem_singleton, lists.complete]
  tauto

end Search

namespace Program

def Names (program : Program) (interface id : ClassId) : Prop :=
  ∃ direct, program.isClass direct = true ∧ interface ∈ program.namedInterfaces direct ∧
    ReflTransGen program.ExtendsClass direct id

def Implements (program : Program) (policy : Policy) (interface id : ClassId) : Prop :=
  ∃ named, (named = interface ∨
      policy.interfaceExtension = true ∧ TransGen program.ExtendsInterface interface named) ∧
    program.Names named id

/-- Objects of the class `receiver` are also of the static type `id`. -/
def Receives (program : Program) (policy : Policy) (id receiver : ClassId) : Prop :=
  program.isClass id = true ∧ ReflTransGen program.ExtendsClass id receiver ∨
    program.isInterface id = true ∧ program.Implements policy id receiver

variable {program : Program} {policy : Policy} {id other : ClassId}

theorem mem_namedInterfaces {interface : ClassId} {entry : ClassEntry}
    (listed : program.class? id = some entry) : interface ∈ program.namedInterfaces id ↔
      (∃ name ∈ entry.interfaces, program.classId? name = some interface) ∧
        program.isInterface interface = true := by
  simp only [namedInterfaces, listed, List.mem_filter, List.mem_filterMap]

theorem isClass_of_extends (isClass : program.isClass id = true)
    (path : ReflTransGen program.ExtendsClass id other) : program.isClass other = true := by
  cases path with
  | refl => exact isClass
  | tail _ last => exact last.1

theorem Implements.isClass (implemented : program.Implements policy id other) :
    program.isClass other = true := by
  obtain ⟨_, _, _, isClass, _, path⟩ := implemented
  exact isClass_of_extends isClass path

theorem Implements.extends {below : ClassId} (implemented : program.Implements policy id other)
    (path : ReflTransGen program.ExtendsClass other below) :
    program.Implements policy id below := by
  obtain ⟨named, reached, direct, isClass, listed, above⟩ := implemented
  exact ⟨named, reached, direct, isClass, listed, above.trans path⟩

theorem Receives.isClass (receives : program.Receives policy id other) :
    program.isClass other = true := by
  rcases receives with ⟨isClass, path⟩ | ⟨_, implemented⟩
  · exact isClass_of_extends isClass path
  · exact implemented.isClass

theorem receives_iff_of_class (isClass : program.isClass id = true) :
    program.Receives policy id other ↔ ReflTransGen program.ExtendsClass id other := by
  have notInterface : program.isInterface id = false := (isClass_iff.mp isClass).2
  simp [Receives, isClass, notInterface]

theorem receives_iff_of_interface (isInterface : program.isInterface id = true) :
    program.Receives policy id other ↔ program.Implements policy id other := by
  have notClass : program.isClass id = false := by
    cases isClass : program.isClass id with
    | false => rfl
    | true => cases isInterface.symm.trans (isClass_iff.mp isClass).2
  simp [Receives, isInterface, notClass]

end Program

namespace Hierarchy

variable {program : Program} {policy : Policy} {bad : QueryError → Prop}

theorem mem_including_subClasses {id other : ClassId} {below : List ClassId}
    (lists : Search.Lists (tableRow (tables program policy).subClassTable) id below) :
    other ∈ below ++ [id] ↔ ReflTransGen program.ExtendsClass id other := by
  rw [lists.mem_including, below_subClassTable, reflTransGen_iff_eq_or_transGen]

theorem subClassesIncluding_exact {id : ClassId} (isClass : program.isClass id = true) :
    Query.Meets (tables program policy).Exact
      ((ofProgram program policy).1.subClassesIncluding id)
      (fun answer => ∀ other, other ∈ answer ↔ ReflTransGen program.ExtendsClass id other) bad :=
  (subClasses_exact policy isClass).bind fun _ lists =>
    .pure fun _ => mem_including_subClasses lists

theorem mem_flatten_groups {ids : List ClassId} {groups : List (List ClassId)}
    (grouped : List.Forall₂ (fun id group => ∀ other, other ∈ group ↔
      ReflTransGen program.ExtendsClass id other) ids groups) {other : ClassId} :
    other ∈ groups.flatten.eraseDups ↔
      ∃ id ∈ ids, ReflTransGen program.ExtendsClass id other := by
  rw [List.mem_eraseDups, List.mem_flatten]
  constructor
  · rintro ⟨group, listed, inGroup⟩
    obtain ⟨id, member, exact⟩ := mem_of_forall₂ grouped listed
    exact ⟨id, member, (exact other).mp inGroup⟩
  · rintro ⟨id, member, path⟩
    obtain ⟨group, listed, exact⟩ := mem_of_forall₂ grouped.flip member
    exact ⟨group, listed, (exact other).mpr path⟩

theorem mem_directImplementers {interface id : ClassId} :
    id ∈ program.directImplementers interface ↔
      program.isClass id = true ∧ interface ∈ program.namedInterfaces id := by
  simp only [Program.directImplementers, List.mem_filter, Program.classIds, Handle.mem_upTo,
    Bool.and_eq_true, List.contains_iff_mem]
  exact ⟨fun member => member.2, fun listed => ⟨Program.bound_of_class listed.1, listed⟩⟩

theorem implementerTable_rows (program : Program) (policy : Policy) :
    List.Forall₂ (fun interface row => ∀ other, other ∈ row ↔ program.Names interface other)
      program.classIds (ofProgram program policy).1.implementerTable.toList := by
  have closed := implementerTable_closed (subClassClosure_exact program policy) (exact_empty _)
  rw [List.forall₂_map_left_iff] at closed
  refine closed.imp ?_
  rintro interface row ⟨groups, grouped, rfl⟩ other
  have exact : List.Forall₂ (fun id group => ∀ other, other ∈ group ↔
      ReflTransGen program.ExtendsClass id other)
      (program.directImplementers interface) groups := by
    refine grouped.imp ?_
    rintro id group ⟨below, lists, rfl⟩ other
    exact mem_including_subClasses lists
  rw [mem_flatten_groups exact]
  simp only [mem_directImplementers, Program.Names, and_assoc]

theorem mem_implementerTable {interface other : ClassId} :
    other ∈ tableRow (ofProgram program policy).1.implementerTable interface ↔
      program.Names interface other := by
  have related := implementerTable_rows program policy
  have length : (ofProgram program policy).1.implementerTable.size = program.classes.size := by
    rw [← Array.length_toList, ← related.length_eq, Program.classIds, Handle.length_upTo]
  rw [tableRow]
  by_cases bound : interface.index < program.classes.size
  · have inside : interface.index < (ofProgram program policy).1.implementerTable.size := by omega
    have row := related.get (by simpa [Program.classIds] using bound) inside
    simpa [Program.classIds, Handle.upTo, inside] using row other
  · constructor
    · intro listed
      simp [length, bound] at listed
    · rintro ⟨_, _, named, _⟩
      exact absurd (Program.bound_of_class (Program.isInterface_of_named named)) bound

theorem implementers_exact {id : ClassId} (isInterface : program.isInterface id = true) :
    Query.Meets (tables program policy).Exact ((ofProgram program policy).1.implementers id)
      (fun answer => ∀ other, other ∈ answer ↔ program.Implements policy id other) bad := by
  have interfaces : Query.Meets (tables program policy).Exact
      ((ofProgram program policy).1.subInterfacesIncluding id)
      (fun answer => ∀ named, named ∈ answer ↔ named = id ∨
        policy.interfaceExtension = true ∧ TransGen program.ExtendsInterface id named) bad := by
    refine (subInterfaces_exact policy isInterface).bind fun below lists => .pure fun named => ?_
    rw [lists.mem_including, below_subInterfaceTable]
  refine interfaces.bind fun named exact => .pure fun other => ?_
  simp only [List.mem_eraseDups, List.mem_flatMap, exact, mem_implementerTable, Program.Implements]

theorem receivers_exact {id : ClassId} (bound : id.index < program.classes.size) :
    Query.Meets (tables program policy).Exact ((ofProgram program policy).1.receivers id)
      (fun answer => ∀ other, other ∈ answer ↔ program.Receives policy id other) bad := by
  refine Query.Meets.bind (.ofExcept (Program.requireEntry_outcome bound)) fun entry found => ?_
  have listed : program.class? id = some entry := found
  split
  · rename_i kind
    have isInterface : program.isInterface id = true := by
      simpa [Program.isInterface, listed] using kind
    refine (implementers_exact isInterface).bind fun implementers implement => ?_
    refine Query.Meets.bind (Query.Meets.mapM fun other member => subClassesIncluding_exact
      ((implement other).mp member).isClass) fun groups grouped => .pure fun other => ?_
    rw [mem_flatten_groups grouped, Program.receives_iff_of_interface isInterface]
    constructor
    · rintro ⟨implementer, member, path⟩
      exact ((implement implementer).mp member).extends path
    · intro implemented
      exact ⟨other, (implement other).mpr implemented, .refl⟩
  · rename_i kind
    have isClass : program.isClass id = true := by
      simpa [Program.isClass, listed] using kind
    refine (subClassesIncluding_exact isClass).mono fun answer exact other => ?_
    rw [exact, Program.receives_iff_of_class isClass]

end Hierarchy

end CallResolution

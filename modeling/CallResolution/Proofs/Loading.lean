import CallResolution.Program.Inheritance
import CallResolution.Program.Load

/-!
Single steps of loading. A class or a method that is added gets the next handle, and what was there
before keeps its place, its name and its methods.
-/

namespace CallResolution

theorem bind_eq_ok {ε α β : Type} {answer : Except ε α} {next : α → Except ε β} {result : β} :
    (answer >>= next) = .ok result ↔ ∃ value, answer = .ok value ∧ next value = .ok result := by
  cases answer with
  | ok value => exact ⟨fun same => ⟨value, rfl, same⟩, fun ⟨_, same, last⟩ => by cases same; exact last⟩
  | error error => exact ⟨fun same => (by cases same), fun ⟨_, same, _⟩ => (by cases same)⟩

namespace Program

theorem classId?_bound {program : Program} {name : String} {id : ClassId}
    (found : program.classId? name = some id) : id.index < program.classes.size := by
  obtain ⟨index, position, same⟩ := Option.map_eq_some_iff.mp found
  subst same
  exact (Array.findIdx?_eq_some_iff_findIdx_eq.mp position).1

theorem superOf?_bound {program : Program} {child parent : ClassId}
    (super : program.superOf? child = some parent) : parent.index < program.classes.size := by
  simp only [superOf?, Option.bind_eq_bind, Option.bind_eq_some_iff] at super
  obtain ⟨_, _, _, _, found⟩ := super
  exact classId?_bound found

theorem bound_of_class {program : Program} {id : ClassId} {test : ClassEntry → Bool}
    (passes : (program.class? id).any test = true) : id.index < program.classes.size := by
  obtain ⟨entry, found, _⟩ := (Option.any_eq_true _ _).mp passes
  exact (Array.getElem?_eq_some_iff.mp found).1

theorem isClass_iff {program : Program} {id : ClassId} : program.isClass id = true ↔
    id.index < program.classes.size ∧ program.isInterface id = false := by
  by_cases bound : id.index < program.classes.size
  · simp [isClass, isInterface, class?, bound]
  · simp [isClass, class?, bound]

/-- Every handle that an entry holds is the handle of an entry. -/
structure WellFormed (program : Program) : Prop where
  methodBound : ∀ id, ∀ method ∈ program.methodsOf id, method.index < program.methods.size
  ownerBound : ∀ id entry, program.method? id = some entry →
    entry.owner.index < program.classes.size
  callerBound : ∀ id entry, program.block? id = some entry →
    entry.method.index < program.methods.size

end Program

def ClassDecl.heading (decl : ClassDecl) : ClassDecl :=
  { decl with methods := [] }

def ClassEntry.heading (entry : ClassEntry) : ClassDecl :=
  ⟨entry.name, entry.superName, entry.interfaces, entry.modifiers, []⟩

namespace Program

def classNames (program : Program) : List String :=
  program.classes.toList.map ClassEntry.name

variable (program : Program)

theorem classId?_eq (name : String) :
    program.classId? name = (program.classNames.idxOf? name).map Handle.mk := by
  obtain ⟨⟨entries⟩, _, _⟩ := program
  simp [classId?, classNames, List.idxOf?, List.findIdx?_map, Function.comp_def]

theorem classId?_isSome {name : String} :
    (program.classId? name).isSome = true ↔ name ∈ program.classNames := by
  rw [classId?_eq, Option.isSome_map, List.isSome_idxOf?]

theorem methodsOf_register (decl : ClassDecl) (id : ClassId) :
    (program.register decl).methodsOf id = program.methodsOf id := by
  simp only [methodsOf, class?, register, Array.getElem?_push]
  split
  · rename_i new
    simp [new]
  · rfl

theorem classId?_register {decl : ClassDecl} (fresh : program.classId? decl.name = none)
    (name : String) : (program.register decl).classId? name =
      if name = decl.name then some ⟨program.classes.size⟩ else program.classId? name := by
  have absent : program.classes.findIdx? (fun entry => entry.name == decl.name) = none :=
    Option.map_eq_none_iff.mp fresh
  by_cases same : name = decl.name
  · simp [classId?, register, Array.findIdx?_push, same, absent]
  · simp [classId?, register, Array.findIdx?_push, same, Ne.symm same]

theorem methodsOf_place {placement : Placement}
    (bound : placement.owner.index < program.classes.size) (id : ClassId) :
    (program.place placement).methodsOf id =
      program.methodsOf id ++ if id = placement.owner then [⟨program.methods.size⟩] else [] := by
  simp only [methodsOf, class?, place, Array.getElem?_modify]
  by_cases here : id = placement.owner
  · subst here
    simp [bound]
  · have apart : placement.owner.index ≠ id.index :=
      fun same => here (Handle.eq_of_index_eq same.symm)
    simp [apart, here]

theorem headings_place (placement : Placement) :
    (program.place placement).classes.toList.map ClassEntry.heading =
      program.classes.toList.map ClassEntry.heading := by
  apply List.ext_getElem?
  intro position
  simp only [place, Array.toList_modify, List.getElem?_map, List.getElem?_modify]
  split
  · cases program.classes.toList[position]? <;> rfl
  · cases program.classes.toList[position]? <;> rfl

theorem classId?_place (placement : Placement) (name : String) :
    (program.place placement).classId? name = program.classId? name := by
  have names := congrArg (List.map ClassDecl.name) (headings_place program placement)
  rw [List.map_map, List.map_map] at names
  have same : (program.place placement).classNames = program.classNames := names
  rw [classId?_eq, classId?_eq, same]

end Program

end CallResolution

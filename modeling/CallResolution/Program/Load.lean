import CallResolution.Program.Basic

/-!
Loading: classes are registered first, then the methods declared with them, then the
detached ones. Class names are looked up in an index that grows with the classes. The first
declaration that cannot be added decides the error.
-/

namespace CallResolution

inductive LoadError where
  | duplicateClass (name : String)
  | duplicateMethod (className : String) (signature : Signature)
  | unknownEnclosingClass (name : String)
  deriving DecidableEq, Repr

def LoadError.message : LoadError → String
  | .duplicateClass name => "Duplicate class definition - " ++ name
  | .duplicateMethod className signature =>
      "Duplicate method definition - " ++ qualifiedSignature className signature
  | .unknownEnclosingClass name =>
      "Enclosing class of method is not part of the project - " ++ name

structure Placement where
  owner : ClassId
  className : String
  method : MethodDecl
  deriving DecidableEq, Repr

namespace Program

/-- Adds a class without looking for another one of its name. -/
def register (program : Program) (decl : ClassDecl) : Program :=
  { program with
    classes := program.classes.push
      { name := decl.name
        superName := decl.superName
        interfaces := decl.interfaces
        modifiers := decl.modifiers
        methods := [] } }

def place (program : Program) (placement : Placement) : Program where
  classes := program.classes.modify placement.owner.index fun entry =>
    { entry with methods := entry.methods ++ [⟨program.methods.size⟩] }
  methods := program.methods.push
    { owner := placement.owner
      className := placement.className
      signature := placement.method.signature
      modifiers := placement.method.modifiers
      blocks := (List.range' program.blocks.size placement.method.blocks.length).map Handle.mk }
  blocks := program.blocks ++
    placement.method.blocks.map (BlockEntry.mk ⟨program.methods.size⟩)

def addMethod (program : Program) (placement : Placement) : Except LoadError Program :=
  if (program.methodsOf placement.owner).any
      (program.hasSignature placement.method.signature) then
    .error (.duplicateMethod placement.className placement.method.signature)
  else
    .ok (program.place placement)

/-- The declared methods in class and declaration order. The class declared at a position
has that position as its handle. -/
def placements (classes : List ClassDecl) : List Placement :=
  classes.zipIdx.flatMap fun entry =>
    entry.1.methods.map fun method => ⟨⟨entry.2⟩, entry.1.name, method⟩

end Program

structure Registry where
  program : Program
  classIndex : List (String × ClassId)
  deriving DecidableEq, Repr

namespace Registry

def empty : Registry := ⟨.empty, []⟩

def classId? (registry : Registry) (name : String) : Option ClassId :=
  registry.classIndex.lookup name

def addClass (registry : Registry) (decl : ClassDecl) : Except LoadError Registry :=
  if (registry.classId? decl.name).isSome then
    .error (.duplicateClass decl.name)
  else
    .ok
      { program := registry.program.register decl
        classIndex := (decl.name, ⟨registry.program.classes.size⟩) :: registry.classIndex }

def addMethod (registry : Registry) (placement : Placement) : Except LoadError Registry :=
  (registry.program.addMethod placement).map fun grown => { registry with program := grown }

def addDetached (registry : Registry) (detached : DetachedMethod) : Except LoadError Registry :=
  match registry.classId? detached.className with
  | none => .error (.unknownEnclosingClass detached.className)
  | some owner => registry.addMethod ⟨owner, detached.className, detached.method⟩

def load (classes : List ClassDecl) (detached : List DetachedMethod) :
    Except LoadError Registry := do
  let registered ← classes.foldlM addClass empty
  let declared ← (Program.placements classes).foldlM addMethod registered
  detached.foldlM addDetached declared

end Registry

def Program.load (classes : List ClassDecl) (detached : List DetachedMethod) :
    Except LoadError Program :=
  (Registry.load classes detached).map Registry.program

end CallResolution

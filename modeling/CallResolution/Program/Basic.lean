import CallResolution.Handle
import CallResolution.Program.Declaration

/-!
A program: its classes, methods and blocks in three arrays, with handles for the
references between them. Super-classes and interfaces stay names, since they may lie
outside the program.
-/

namespace CallResolution

structure ClassEntry where
  name : String
  superName : Option String
  interfaces : List String
  modifiers : Modifiers
  methods : List MethodId
  deriving DecidableEq, Repr

structure MethodEntry where
  owner : ClassId
  className : String
  signature : Signature
  modifiers : Modifiers
  blocks : List BlockId
  deriving DecidableEq, Repr

structure BlockEntry where
  method : MethodId
  statements : List Statement
  deriving DecidableEq, Repr

/-- The part of a class name before its last dot, empty for a name without one. -/
def packageName (className : String) : String :=
  String.ofList ((className.toList.reverse.dropWhile (· ≠ '.')).drop 1).reverse

namespace ClassEntry

def isInterface (entry : ClassEntry) : Bool :=
  entry.modifiers.isInterface

def isAbstract (entry : ClassEntry) : Bool :=
  entry.modifiers.isAbstract

def package (entry : ClassEntry) : String :=
  packageName entry.name

/-- Whether the class itself lists the interface; inherited interfaces do not count. -/
def declaresInterface (entry : ClassEntry) (interfaceName : String) : Bool :=
  entry.interfaces.contains interfaceName

end ClassEntry

def qualifiedSignature (className : String) (signature : Signature) : String :=
  className ++ "." ++ signature.render

namespace MethodEntry

def render (entry : MethodEntry) : String :=
  qualifiedSignature entry.className entry.signature

def isConstructor (entry : MethodEntry) : Bool :=
  entry.signature.name == "<init>"

end MethodEntry

structure Program where
  classes : Array ClassEntry
  methods : Array MethodEntry
  blocks : Array BlockEntry
  deriving DecidableEq, Repr

namespace Program

def empty : Program := ⟨#[], #[], #[]⟩

def class? (program : Program) (id : ClassId) : Option ClassEntry :=
  program.classes[id.index]?

def method? (program : Program) (id : MethodId) : Option MethodEntry :=
  program.methods[id.index]?

def block? (program : Program) (id : BlockId) : Option BlockEntry :=
  program.blocks[id.index]?

def classIds (program : Program) : List ClassId :=
  Handle.upTo .classes program.classes.size

def methodIds (program : Program) : List MethodId :=
  Handle.upTo .methods program.methods.size

def blockIds (program : Program) : List BlockId :=
  Handle.upTo .blocks program.blocks.size

def classId? (program : Program) (name : String) : Option ClassId :=
  (program.classes.findIdx? fun entry => entry.name == name).map Handle.mk

def methodsOf (program : Program) (id : ClassId) : List MethodId :=
  ((program.class? id).map ClassEntry.methods).getD []

def hasSignature (program : Program) (signature : Signature) (id : MethodId) : Bool :=
  (program.method? id).any fun entry => entry.signature == signature

def findMethod? (program : Program) (className : String) (signature : Signature) :
    Option MethodId := do
  let id ← program.classId? className
  (program.methodsOf id).find? (program.hasSignature signature)

/-- The first method of a class with the given name, whatever its parameters. -/
def findMethodNamed? (program : Program) (id : ClassId) (name : String) : Option MethodId :=
  (program.methodsOf id).find? fun method =>
    (program.method? method).any fun entry => entry.signature.name == name

def isInterface (program : Program) (id : ClassId) : Bool :=
  (program.class? id).any ClassEntry.isInterface

/-- Whether the handle names a class of the program that is no interface. -/
def isClass (program : Program) (id : ClassId) : Bool :=
  (program.class? id).any fun entry => !entry.isInterface

def interfaceCount (program : Program) : Nat :=
  (program.classIds.filter program.isInterface).length

end Program

end CallResolution

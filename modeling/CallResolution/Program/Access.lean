import CallResolution.Program.Inheritance

/-!
Which classes see which classes and methods. Handles are checked here: a question about
a class or a method that the program does not have is an error.
-/

namespace CallResolution

inductive QueryError where
  | notAClass (name : String)
  | notAnInterface (name : String)
  | unknownClass (id : ClassId)
  | unknownMethod (id : MethodId)
  | noConcreteDispatch (receiver method : String)
  deriving DecidableEq, Repr

namespace QueryError

def message : QueryError → String
  | .notAClass name => name ++ " is an interface, class needed"
  | .notAnInterface name => name ++ " is not an interface"
  | .unknownClass id => "Unknown class handle - " ++ toString id.index
  | .unknownMethod id => "Unknown method handle - " ++ toString id.index
  | .noConcreteDispatch receiver method =>
      "Could not resolve concrete dispatch of " ++ method ++ " on " ++ receiver

/-- A failed dispatch is a fact about the program; the other causes are misuse. -/
def isRecoverable : QueryError → Bool
  | .noConcreteDispatch _ _ => true
  | _ => false

end QueryError

namespace Program

def requireEntry (program : Program) (id : ClassId) : Except QueryError ClassEntry :=
  match program.class? id with
  | some entry => .ok entry
  | none => .error (.unknownClass id)

def requireClass (program : Program) (id : ClassId) : Except QueryError ClassEntry := do
  let entry ← program.requireEntry id
  if entry.isInterface then .error (.notAClass entry.name) else .ok entry

def requireInterface (program : Program) (id : ClassId) : Except QueryError ClassEntry := do
  let entry ← program.requireEntry id
  if entry.isInterface then .ok entry else .error (.notAnInterface entry.name)

def requireMethod (program : Program) (id : MethodId) : Except QueryError MethodEntry :=
  match program.method? id with
  | some entry => .ok entry
  | none => .error (.unknownMethod id)

/-- Public classes are seen everywhere, those with package access in their package, and
private and protected ones nowhere. -/
def classVisible (program : Program) (viewer target : ClassId) : Except QueryError Bool := do
  let targetEntry ← program.requireEntry target
  let viewerEntry ← program.requireEntry viewer
  if targetEntry.modifiers.isPublic then .ok true
  else if targetEntry.modifiers.isProtected || targetEntry.modifiers.isPrivate then .ok false
  else .ok (viewerEntry.package == targetEntry.package)

def samePackage (program : Program) (left right : ClassId) : Bool :=
  (program.class? left).map ClassEntry.package == (program.class? right).map ClassEntry.package

def admits (program : Program) (viewer : ClassId) (method : MethodEntry) : Bool :=
  if method.modifiers.isPublic then true
  else if method.modifiers.isPrivate then viewer == method.owner
  else if method.modifiers.isProtected then
    viewer == method.owner || (program.ancestors viewer).contains method.owner ||
      program.samePackage viewer method.owner
  else program.samePackage viewer method.owner

def methodVisible (program : Program) (viewer : ClassId) (method : MethodId) :
    Except QueryError Bool := do
  let entry ← program.requireMethod method
  let classSeen ← program.classVisible viewer entry.owner
  .ok (classSeen && program.admits viewer entry)

end Program

end CallResolution

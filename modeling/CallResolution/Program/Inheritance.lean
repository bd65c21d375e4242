import CallResolution.Program.Basic
import CallResolution.Search.Climb

/-!
Inheritance between the classes of a program, read off the names they declare. A name
that no class of the program has counts for nothing, and nothing keeps a program from
inheriting in a cycle.
-/

namespace CallResolution.Program

def superOf? (program : Program) (id : ClassId) : Option ClassId := do
  let entry ← program.class? id
  let name ← entry.superName
  program.classId? name

/-- Super-classes from the nearest on, up to the first one already passed. -/
def ancestors (program : Program) (id : ClassId) : List ClassId :=
  Search.climb program.superOf? id (Search.without program.classIds [id])

def namedInterfaces (program : Program) (id : ClassId) : List ClassId :=
  match program.class? id with
  | none => []
  | some entry => (entry.interfaces.filterMap program.classId?).filter program.isInterface

def directSubClasses (program : Program) (parent : ClassId) : List ClassId :=
  program.classIds.filter fun id => program.isClass id && program.superOf? id == some parent

/-- Interfaces that name the interface `parent`, one entry for each time they name it. -/
def directSubInterfaces (program : Program) (parent : ClassId) : List ClassId :=
  (program.classIds.filter program.isInterface).flatMap fun id =>
    ((program.namedInterfaces id).filter (· == parent)).map fun _ => id

def directImplementers (program : Program) (parent : ClassId) : List ClassId :=
  program.classIds.filter fun id =>
    program.isClass id && (program.namedInterfaces id).contains parent

end CallResolution.Program

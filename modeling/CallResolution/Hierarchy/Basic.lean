import CallResolution.Hierarchy.Policy
import CallResolution.Program.Access
import CallResolution.Search.Closure

/-!
A class hierarchy tabulates the direct inheritance of a program and answers questions
about its closure. Closures of sub-classes and sub-interfaces are remembered: a question
takes the answers given so far and returns them with its own added. Where inheritance is
cyclic the order of a list may depend on what was asked before; its members do not.
-/

namespace CallResolution

structure Hierarchy where
  program : Program
  policy : Policy
  subClassTable : Array (List ClassId)
  subInterfaceTable : Array (List ClassId)
  /-- Classes that name each interface, with all their sub-classes. -/
  implementerTable : Array (List ClassId)

structure Memos where
  subClasses : Search.Memo ClassId
  subInterfaces : Search.Memo ClassId

/-- A question that may fail and may add to the closures computed so far. -/
abbrev Query := ExceptT QueryError (StateM Memos)

namespace Query

variable {α : Type}

def ofExcept (answer : Except QueryError α) : Query α :=
  fun memos => (answer, memos)

def ofClosure (closure : StateM Memos α) : Query α :=
  fun memos => let (answer, later) := closure memos; (.ok answer, later)

/-- Asks and keeps a failure as a value. -/
def observe (query : Query α) : Query (Except QueryError α) :=
  fun memos => let (answer, later) := query memos; (.ok answer, later)

@[simp] theorem pure_apply (value : α) (memos : Memos) :
    (pure value : Query α) memos = (.ok value, memos) := rfl

@[simp] theorem bind_apply {β : Type} (query : Query α) (next : α → Query β) (memos : Memos) :
    (query >>= next) memos =
      match query memos with
      | (.ok value, later) => next value later
      | (.error error, later) => (.error error, later) := by
  simp only [bind, ExceptT.bind, ExceptT.mk, StateT.bind]
  rcases query memos with ⟨_ | _, later⟩ <;> rfl

end Query

def tableRow (table : Array (List ClassId)) (id : ClassId) : List ClassId :=
  (table[id.index]?).getD []

namespace Program

def tabulate (program : Program) (row : ClassId → List ClassId) : Array (List ClassId) :=
  (program.classIds.map row).toArray

theorem tableRow_tabulate (program : Program) (row : ClassId → List ClassId) (id : ClassId)
    (bound : id.index < program.classes.size) : tableRow (program.tabulate row) id = row id := by
  simp [tableRow, tabulate, classIds, Handle.upTo, bound]

end Program

namespace Hierarchy

/-- Sub-classes of a class through any number of steps, without itself. -/
def subClassClosure (hierarchy : Hierarchy) (id : ClassId) : StateM Memos (List ClassId) :=
  fun memos =>
    let (found, later) := Search.closure (tableRow hierarchy.subClassTable)
      hierarchy.program.classIds id memos.subClasses
    (found, { memos with subClasses := later })

def subInterfaceClosure (hierarchy : Hierarchy) (id : ClassId) : StateM Memos (List ClassId) :=
  fun memos =>
    let (found, later) := Search.closure (tableRow hierarchy.subInterfaceTable)
      hierarchy.program.classIds id memos.subInterfaces
    (found, { memos with subInterfaces := later })

/-- Closes the listed classes under sub-classing, each class before the one it was found
from and none twice. -/
def closeUnderSubClasses (hierarchy : Hierarchy) (ids : List ClassId) :
    StateM Memos (List ClassId) := do
  let groups ← ids.mapM fun id => do
    let below ← hierarchy.subClassClosure id
    pure (below ++ [id])
  pure groups.flatten.eraseDups

def tables (program : Program) (policy : Policy) : Hierarchy where
  program := program
  policy := policy
  subClassTable := program.tabulate program.directSubClasses
  subInterfaceTable := program.tabulate fun id =>
    if policy.interfaceExtension then program.directSubInterfaces id else []
  implementerTable := program.tabulate program.directImplementers

/-- Builds the hierarchy of a program. Closing the implementers already computes some
closures, which are the first ones to be remembered. -/
def ofProgram (program : Program) (policy : Policy) : Hierarchy × Memos :=
  let direct := tables program policy
  let (closed, memos) :=
    (direct.implementerTable.toList.mapM direct.closeUnderSubClasses) ⟨.empty, .empty⟩
  ({ direct with implementerTable := closed.toArray }, memos)

def superClasses (hierarchy : Hierarchy) (id : ClassId) : Except QueryError (List ClassId) := do
  let _ ← hierarchy.program.requireClass id
  .ok (hierarchy.program.ancestors id)

def superClassesIncluding (hierarchy : Hierarchy) (id : ClassId) :
    Except QueryError (List ClassId) := do
  let above ← hierarchy.superClasses id
  .ok (id :: above)

def isSubClass (hierarchy : Hierarchy) (child parent : ClassId) : Except QueryError Bool := do
  let above ← hierarchy.superClasses child
  .ok (above.contains parent)

def isSubClassIncluding (hierarchy : Hierarchy) (child parent : ClassId) :
    Except QueryError Bool := do
  let above ← hierarchy.superClassesIncluding child
  .ok (above.contains parent)

def subClasses (hierarchy : Hierarchy) (id : ClassId) : Query (List ClassId) := do
  let _ ← Query.ofExcept (hierarchy.program.requireClass id)
  Query.ofClosure (hierarchy.subClassClosure id)

def subClassesIncluding (hierarchy : Hierarchy) (id : ClassId) : Query (List ClassId) := do
  let below ← hierarchy.subClasses id
  pure (below ++ [id])

def subInterfaces (hierarchy : Hierarchy) (id : ClassId) : Query (List ClassId) := do
  let _ ← Query.ofExcept (hierarchy.program.requireInterface id)
  Query.ofClosure (hierarchy.subInterfaceClosure id)

def subInterfacesIncluding (hierarchy : Hierarchy) (id : ClassId) : Query (List ClassId) := do
  let below ← hierarchy.subInterfaces id
  pure (below ++ [id])

def implementers (hierarchy : Hierarchy) (id : ClassId) : Query (List ClassId) := do
  let interfaces ← hierarchy.subInterfacesIncluding id
  pure (interfaces.flatMap (tableRow hierarchy.implementerTable)).eraseDups

end Hierarchy

end CallResolution

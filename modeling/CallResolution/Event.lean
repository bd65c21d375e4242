import CallResolution.Program.Access

/-!
What the analyses have to say about their work, as data and as lines of a log.
-/

namespace CallResolution

inductive Event where
  | programLoaded (classes methods blocks : Nat)
  | hierarchyBuilt (classes interfaces : Nat)
  | missingMethod (invocation : Invocation)
  | noReceiver (invocation : Invocation)
  | dispatchFailed (error : QueryError)
  | callGraphBuilt (methods edges invocations unresolved external : Nat)
  deriving DecidableEq, Repr

namespace Event

def isWarning : Event → Bool
  | .missingMethod _ | .noReceiver _ | .dispatchFailed _ => true
  | .programLoaded .. | .hierarchyBuilt .. | .callGraphBuilt .. => false

def level (event : Event) : String :=
  if event.isWarning then "WARN" else "DEBUG"

def text : Event → String
  | .programLoaded classes methods blocks =>
      "project loaded classes=" ++ toString classes ++ " methods=" ++ toString methods ++
        " blocks=" ++ toString blocks
  | .hierarchyBuilt classes interfaces =>
      "class hierarchy built classes=" ++ toString classes ++ " interfaces=" ++
        toString interfaces
  | .missingMethod invocation => "external method: " ++ invocation.render
  | .noReceiver invocation =>
      "no concrete receiver for " ++ invocation.render ++ ", using the referenced method"
  | .dispatchFailed error => error.message
  | .callGraphBuilt methods edges invocations unresolved external =>
      "Built call graph: " ++ toString methods ++ " methods, " ++ toString edges ++ " edges, " ++
        toString invocations ++ " invocations (" ++ toString unresolved ++ " unresolved, " ++
        toString external ++ " external)"

def line (event : Event) : String :=
  event.level ++ " " ++ event.text

/-- The lines of a log. Events without an order of their own are listed sorted by code
points. -/
def transcript (ordered : Bool) (events : List Event) : List String :=
  let lines := events.map line
  if ordered then lines else lines.mergeSort fun left right => decide (left ≤ right)

def ofProgram (program : Program) : Event :=
  .programLoaded program.classes.size program.methods.size program.blocks.size

def ofHierarchy (program : Program) : Event :=
  .hierarchyBuilt program.classes.size program.interfaceCount

end Event

end CallResolution

/-!
Calls as they stand in a program text: the kind of call, the class and the signature it
names, and the statements that may carry one.
-/

namespace CallResolution

structure Signature where
  name : String
  params : List String
  deriving DecidableEq, Repr

namespace Signature

def render (signature : Signature) : String :=
  signature.name ++ "(" ++ ",".intercalate signature.params ++ ")"

end Signature

inductive InvocationKind where
  | virtual
  | interface
  | special
  | static
  | dynamic
  deriving DecidableEq, Repr

inductive KindError where
  | noSuchKind
  deriving DecidableEq, Repr

def KindError.message : KindError → String
  | .noSuchKind => "Matching variant not found"

namespace InvocationKind

def all : List InvocationKind :=
  [.virtual, .interface, .special, .static, .dynamic]

def name : InvocationKind → String
  | .virtual => "virtual"
  | .interface => "interface"
  | .special => "special"
  | .static => "static"
  | .dynamic => "dynamic"

def inspect : InvocationKind → String
  | .virtual => "Virtual"
  | .interface => "Interface"
  | .special => "Special"
  | .static => "Static"
  | .dynamic => "Dynamic"

def index : InvocationKind → Nat
  | .virtual => 0
  | .interface => 1
  | .special => 2
  | .static => 3
  | .dynamic => 4

def isDynamicDispatch : InvocationKind → Bool
  | .virtual | .interface | .dynamic => true
  | .special | .static => false

/-- Reads a kind by its name; the case of ASCII letters does not matter. -/
def parse (text : String) : Except KindError InvocationKind :=
  match all.find? fun kind => kind.name == text.toLower with
  | some kind => .ok kind
  | none => .error .noSuchKind

end InvocationKind

structure Invocation where
  kind : InvocationKind
  className : String
  signature : Signature
  deriving DecidableEq, Repr

namespace Invocation

def render (invocation : Invocation) : String :=
  invocation.kind.name ++ " " ++ invocation.className ++ "." ++ invocation.signature.render

end Invocation

inductive Value where
  | call (invocation : Invocation)
  | other (text : String)
  deriving DecidableEq, Repr

inductive Statement where
  | invoke (invocation : Invocation)
  | assign (target : String) (value : Value)
  | other (text : String)
  deriving DecidableEq, Repr

namespace Statement

def invocation? : Statement → Option Invocation
  | .invoke invocation => some invocation
  | .assign _ (.call invocation) => some invocation
  | .assign _ (.other _) => none
  | .other _ => none

def invocations (statements : List Statement) : List (Nat × Invocation) :=
  statements.zipIdx.filterMap fun entry =>
    entry.1.invocation?.map fun invocation => (entry.2, invocation)

end Statement

end CallResolution

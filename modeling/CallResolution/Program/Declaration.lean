import CallResolution.Invocation
import CallResolution.Modifiers

/-!
Declarations are what a program is loaded from. They refer to classes by name and know
no handles.
-/

namespace CallResolution

structure MethodDecl where
  signature : Signature
  modifiers : Modifiers
  blocks : List (List Statement)
  deriving DecidableEq, Repr

structure ClassDecl where
  name : String
  superName : Option String
  interfaces : List String
  modifiers : Modifiers
  methods : List MethodDecl
  deriving DecidableEq, Repr

structure DetachedMethod where
  className : String
  method : MethodDecl
  deriving DecidableEq, Repr

namespace ClassDecl

def asInterface (decl : ClassDecl) : ClassDecl :=
  { decl with
    modifiers := (Modifiers.interfaceBit.union Modifiers.abstractBit).union decl.modifiers }

end ClassDecl

end CallResolution

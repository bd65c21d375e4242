/-!
Modifier sets of classes and methods: 32 bits, seven of which have a name. Bits without
a name are kept.
-/

namespace CallResolution

structure Modifiers where
  bits : BitVec 32
  deriving DecidableEq, Repr

namespace Modifiers

def empty : Modifiers := ⟨0⟩

def publicBit : Modifiers := ⟨0x1⟩

def privateBit : Modifiers := ⟨0x2⟩

def protectedBit : Modifiers := ⟨0x4⟩

def staticBit : Modifiers := ⟨0x8⟩

def finalBit : Modifiers := ⟨0x10⟩

def interfaceBit : Modifiers := ⟨0x200⟩

def abstractBit : Modifiers := ⟨0x400⟩

def named : List (String × Modifiers) :=
  [("PUBLIC", publicBit), ("PRIVATE", privateBit), ("PROTECTED", protectedBit),
    ("STATIC", staticBit), ("FINAL", finalBit), ("ABSTRACT", abstractBit),
    ("INTERFACE", interfaceBit)]

def union (left right : Modifiers) : Modifiers :=
  ⟨left.bits ||| right.bits⟩

def contains (whole part : Modifiers) : Bool :=
  whole.bits &&& part.bits == part.bits

def intersects (left right : Modifiers) : Bool :=
  left.bits &&& right.bits != 0

def isEmpty (modifiers : Modifiers) : Bool :=
  modifiers.bits == 0

def isPublic (modifiers : Modifiers) : Bool :=
  modifiers.contains publicBit

def isPrivate (modifiers : Modifiers) : Bool :=
  modifiers.contains privateBit

def isProtected (modifiers : Modifiers) : Bool :=
  modifiers.contains protectedBit

def isInterface (modifiers : Modifiers) : Bool :=
  modifiers.contains interfaceBit

def isAbstract (modifiers : Modifiers) : Bool :=
  modifiers.contains abstractBit

def isPackagePrivate (modifiers : Modifiers) : Bool :=
  !modifiers.intersects (publicBit.union (privateBit.union protectedBit))

/-- Takes a word as it is; unnamed bits stay. -/
def ofBits (word : Nat) : Modifiers :=
  ⟨BitVec.ofNat 32 word⟩

def ofTag? (tag : String) : Option Modifiers :=
  named.lookup tag.toUpper

/-- Collects the tags that name a modifier and passes over the rest. -/
def ofTags (tags : List String) : Modifiers :=
  (tags.filterMap ofTag?).foldl union empty

def names (modifiers : Modifiers) : List String :=
  (named.filter fun entry => modifiers.contains entry.2).map Prod.fst

def unnamed (modifiers : Modifiers) : Modifiers :=
  ⟨modifiers.bits &&& ~~~(named.foldl (fun covered entry => covered.union entry.2) empty).bits⟩

def hexadecimal (modifiers : Modifiers) : String :=
  "0x" ++ String.ofList (Nat.toDigits 16 modifiers.bits.toNat)

def inspect (modifiers : Modifiers) : String :=
  let rest := if modifiers.unnamed.isEmpty then [] else [modifiers.unnamed.hexadecimal]
  let parts := if modifiers.isEmpty then [modifiers.hexadecimal] else modifiers.names ++ rest
  "Modifiers(" ++ " | ".intercalate parts ++ ")"

end Modifiers

end CallResolution

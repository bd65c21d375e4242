/-!
The choices that a class hierarchy is built with.
-/

namespace CallResolution

/-- Constructing a class that declares the interface is taken as a call of its entry
method, which runs later. -/
structure DeferredRule where
  interfaceName : String
  entry : String
  deriving DecidableEq, Repr

/-- Which method has to be visible when a dispatch picks a candidate: the requested one,
seen from the candidate's class, or the candidate, seen from the receiver. -/
inductive VisibilityRule where
  | requested
  | candidate
  deriving DecidableEq, Repr

structure Policy where
  deferred : List DeferredRule
  visibility : VisibilityRule
  interfaceExtension : Bool
  deriving DecidableEq, Repr

namespace Policy

def knownDeferred : List DeferredRule :=
  [⟨"java.lang.Runnable", "run"⟩, ⟨"okhttp3.Callback", "run"⟩,
    ⟨"io.reactivex.SingleOnSubscribe", "subscribe"⟩,
    ⟨"io.reactivex.ObservableOnSubscribe", "subscribe"⟩]

def standard : Policy := ⟨knownDeferred, .requested, false⟩

def precise : Policy := ⟨knownDeferred, .candidate, true⟩

def withoutDeferred : Policy := { standard with deferred := [] }

def addDeferred (policy : Policy) (rule : DeferredRule) : Policy :=
  { policy with deferred := policy.deferred ++ [rule] }

end Policy

end CallResolution

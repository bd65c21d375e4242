import CallResolution.Proofs.Receivers

/-!
Dispatch on a well-formed program. With handles of the program itself no look-up fails and no
class is taken for an interface or an interface for a class. The one way to fail is a
receiver without a visible candidate.
-/

namespace CallResolution

variable {bad : QueryError → Prop}

namespace Program

variable {program : Program}

theorem classVisible_outcome {viewer target : ClassId}
    (viewerBound : viewer.index < program.classes.size)
    (targetBound : target.index < program.classes.size) :
    Outcome (fun _ => True) bad (program.classVisible viewer target) := by
  refine (requireEntry_outcome targetBound).bind fun targetEntry _ => ?_
  refine (requireEntry_outcome viewerBound).bind fun viewerEntry _ => ?_
  split
  · trivial
  · split <;> trivial

theorem methodVisible_outcome (wellFormed : program.WellFormed) {viewer : ClassId}
    {method : MethodId} (viewerBound : viewer.index < program.classes.size)
    (methodBound : method.index < program.methods.size) :
    Outcome (fun _ => True) bad (program.methodVisible viewer method) := by
  refine (requireMethod_outcome methodBound).bind fun entry found => ?_
  have ownerBound := wellFormed.ownerBound method entry found
  exact (classVisible_outcome viewerBound ownerBound).bind fun _ _ => trivial

theorem ancestors_bound {id other : ClassId} (above : other ∈ program.ancestors id) :
    other.index < program.classes.size := by
  have listed := Search.climb_subset above
  exact Handle.mem_upTo.mp (Search.mem_without.mp listed).1

end Program

namespace Hierarchy

variable {hierarchy : Hierarchy}

theorem superClasses_outcome {id : ClassId} (isClass : hierarchy.program.isClass id = true) :
    Outcome (· = hierarchy.program.ancestors id) bad (hierarchy.superClasses id) :=
  (Program.requireClass_outcome isClass).bind fun _ _ => rfl

theorem superClassesIncluding_outcome {id : ClassId}
    (isClass : hierarchy.program.isClass id = true) :
    Outcome (· = id :: hierarchy.program.ancestors id) bad (hierarchy.superClassesIncluding id) :=
  (superClasses_outcome isClass).bind fun _ same => congrArg (id :: ·) same

theorem isSubClass_outcome {child parent : ClassId}
    (isClass : hierarchy.program.isClass child = true) :
    Outcome (· = (hierarchy.program.ancestors child).contains parent) bad
      (hierarchy.isSubClass child parent) :=
  (superClasses_outcome isClass).bind fun _ same => congrArg (List.contains · parent) same

variable (wellFormed : hierarchy.program.WellFormed)

include wellFormed

theorem acceptedAmong?_outcome {receiver declarer : ClassId} {requested : MethodId}
    {signature : Signature} (receiverBound : receiver.index < hierarchy.program.classes.size)
    (declarerBound : declarer.index < hierarchy.program.classes.size)
    (requestedBound : requested.index < hierarchy.program.methods.size) (methods : List MethodId)
    (methodsBound : ∀ method ∈ methods, method.index < hierarchy.program.methods.size) :
    Outcome (fun _ => True) bad
      (hierarchy.acceptedAmong? receiver requested signature declarer methods) := by
  induction methods with
  | nil => trivial
  | cons candidate rest ih =>
      have candidateBound := methodsBound candidate (by simp)
      have judged : Outcome (fun _ => True) bad
          (hierarchy.answersWith receiver requested signature declarer candidate) := by
        refine (Program.requireMethod_outcome candidateBound).bind fun entry _ => ?_
        split
        · unfold accepts
          split
          · exact Program.methodVisible_outcome wellFormed declarerBound requestedBound
          · exact Program.methodVisible_outcome wellFormed receiverBound candidateBound
        · trivial
      refine judged.bind fun accepted _ => ?_
      split
      · trivial
      · exact ih fun method member => methodsBound method (by simp [member])

theorem acceptedIn?_outcome {receiver : ClassId} {requested : MethodId} {signature : Signature}
    (receiverBound : receiver.index < hierarchy.program.classes.size)
    (requestedBound : requested.index < hierarchy.program.methods.size) (classes : List ClassId)
    (classesBound : ∀ id ∈ classes, id.index < hierarchy.program.classes.size) :
    Outcome (fun _ => True) bad (hierarchy.acceptedIn? receiver requested signature classes) := by
  induction classes with
  | nil => trivial
  | cons declarer above ih =>
      have declarerBound := classesBound declarer (by simp)
      refine (Program.requireEntry_outcome declarerBound).bind fun entry found => ?_
      have methodsBound : ∀ method ∈ entry.methods,
          method.index < hierarchy.program.methods.size := by
        intro method member
        exact wellFormed.methodBound declarer method (by simp [Program.methodsOf, found, member])
      refine (acceptedAmong?_outcome wellFormed receiverBound declarerBound requestedBound
        entry.methods methodsBound).bind fun found _ => ?_
      cases found with
      | some target => trivial
      | none => exact ih fun id member => classesBound id (by simp [member])

theorem concreteTarget_outcome {receiver : ClassId} {method : MethodId}
    (isClass : hierarchy.program.isClass receiver = true)
    (methodBound : method.index < hierarchy.program.methods.size) :
    Outcome (fun _ => True) (fun error => error.isRecoverable = true)
      (hierarchy.concreteTarget receiver method) := by
  have receiverBound := Program.bound_of_class isClass
  refine (Program.requireClass_outcome isClass).bind fun receiverEntry _ => ?_
  refine (Program.requireMethod_outcome methodBound).bind fun requested _ => ?_
  refine (superClassesIncluding_outcome isClass).bind fun classes looked => ?_
  have classesBound : ∀ id ∈ classes, id.index < hierarchy.program.classes.size := by
    intro id member
    rcases List.mem_cons.mp (looked ▸ member) with same | above
    · exact same ▸ receiverBound
    · exact Program.ancestors_bound above
  refine (acceptedIn?_outcome wellFormed receiverBound methodBound classes classesBound).bind
    fun found _ => ?_
  cases found with
  | some target => trivial
  | none => exact rfl

theorem specialTarget_outcome {method container : MethodId}
    (methodBound : method.index < hierarchy.program.methods.size)
    (containerBound : container.index < hierarchy.program.methods.size) :
    Outcome (fun _ => True) (fun error => error.isRecoverable = true)
      (hierarchy.specialTarget method container) := by
  refine (Program.requireMethod_outcome methodBound).bind fun callee calleeFound => ?_
  refine (Program.requireMethod_outcome containerBound).bind fun caller callerFound => ?_
  have calleeBound := wellFormed.ownerBound method callee calleeFound
  have callerBound := wellFormed.ownerBound container caller callerFound
  have deferred : Outcome (fun _ => True) (fun error => error.isRecoverable = true)
      (hierarchy.deferredCall callee) := by
    unfold deferredCall
    split
    · exact (Program.requireEntry_outcome calleeBound).bind fun _ _ => trivial
    · trivial
  refine deferred.bind fun entry _ => ?_
  cases entry with
  | some target => trivial
  | none =>
      dsimp only
      split
      · trivial
      · refine (Program.requireEntry_outcome calleeBound).bind fun calleeClass calleeEntry => ?_
        split
        · trivial
        · rename_i calleeKind
          refine (Program.requireEntry_outcome callerBound).bind fun callerClass callerEntry => ?_
          split
          · trivial
          · rename_i callerKind
            have calleeIsClass : hierarchy.program.isClass callee.owner = true := by
              simpa [Program.isClass, calleeEntry] using calleeKind
            have callerIsClass : hierarchy.program.isClass caller.owner = true := by
              simpa [Program.isClass, callerEntry] using callerKind
            refine (isSubClass_outcome calleeIsClass).bind fun above _ => ?_
            split
            · exact concreteTarget_outcome wellFormed callerIsClass methodBound
            · trivial

theorem targetsOn_outcome {receivers : List ClassId} {method : MethodId}
    (classes : ∀ id ∈ receivers, hierarchy.program.isClass id = true)
    (methodBound : method.index < hierarchy.program.methods.size) :
    Outcome List.Nodup (fun error => error.isRecoverable = true)
      (hierarchy.targetsOn receivers method) := by
  have each : ∀ id ∈ receivers, Outcome (fun _ => True) (fun error => error.isRecoverable = true)
      (hierarchy.targetOn method id) := by
    intro id member
    have bound := Program.bound_of_class (classes id member)
    refine (Program.requireEntry_outcome bound).bind fun entry _ => ?_
    split
    · trivial
    · exact (concreteTarget_outcome wellFormed (classes id member) methodBound).bind
        fun _ _ => trivial
  exact (Outcome.mapM each).bind fun groups _ => nodup_eraseDups _

end Hierarchy

namespace Hierarchy

variable {program : Program} {policy : Policy}

theorem receivers_classes {id : ClassId} (bound : id.index < program.classes.size) :
    Query.Meets (tables program policy).Exact ((ofProgram program policy).1.receivers id)
      (fun answer => ∀ other ∈ answer, program.isClass other = true) bad :=
  (receivers_exact bound).mono fun _ exact other member => ((exact other).mp member).isClass

theorem abstractTargets_meets (wellFormed : program.WellFormed) {id : ClassId} {method : MethodId}
    (bound : id.index < program.classes.size) (methodBound : method.index < program.methods.size) :
    Query.Meets (tables program policy).Exact
      ((ofProgram program policy).1.abstractTargets id method) List.Nodup
      fun error => error.isRecoverable = true :=
  (receivers_classes bound).bind fun _ classes =>
    .ofExcept (targetsOn_outcome wellFormed classes methodBound)

theorem targets_meets (wellFormed : program.WellFormed) (kind : InvocationKind)
    {method container : MethodId} (methodBound : method.index < program.methods.size)
    (containerBound : container.index < program.methods.size) :
    Query.Meets (tables program policy).Exact
      ((ofProgram program policy).1.targets kind method container) List.Nodup
      fun error => error.isRecoverable = true := by
  refine targets_cases (motive := fun query => Query.Meets _ query _ _) ?_ ?_ ?_ kind
  · refine Query.Meets.bind (.ofExcept (Program.requireMethod_outcome methodBound))
      fun entry found => ?_
    exact abstractTargets_meets wellFormed (wellFormed.ownerBound method entry found) methodBound
  · refine Query.Meets.bind (.ofExcept (specialTarget_outcome wellFormed methodBound
      containerBound)) fun target _ => .pure (List.nodup_singleton target)
  · exact .pure (List.nodup_singleton method)

end Hierarchy

end CallResolution

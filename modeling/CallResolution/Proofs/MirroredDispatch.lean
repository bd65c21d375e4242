import CallResolution.Proofs.Mirrors
import CallResolution.Proofs.Resolved

/-!
Dispatch in programs that differ in their handles only. Whatever is looked up climbs through the
same classes and comes to the same method, and a call has the same receivers. What a constructor
stands for is decided by the policy; all else is the same even under policies that differ there.
-/

namespace CallResolution

open Relation Program

theorem findSome?_rel {α β γ : Type} {relation : α → β → Prop} {items : List γ}
    {find : γ → Option α} {otherFind : γ → Option β}
    (each : ∀ item, Option.Rel relation (find item) (otherFind item)) :
    Option.Rel relation (items.findSome? find) (items.findSome? otherFind) := by
  induction items with
  | nil => exact .none
  | cons item items ih =>
      have first := each item
      rw [List.findSome?_cons, List.findSome?_cons]
      generalize find item = found, otherFind item = otherFound at first
      cases first with
      | some related => exact .some related
      | none => exact ih

theorem transGen_lift {α β : Type} {relation : α → β → Prop} {step : α → α → Prop}
    {otherStep : β → β → Prop}
    (each : ∀ {node after other}, step node after → relation node other →
      ∃ otherAfter, otherStep other otherAfter ∧ relation after otherAfter)
    {start goal : α} {other : β} (path : TransGen step start goal)
    (related : relation start other) :
    ∃ otherGoal, TransGen otherStep other otherGoal ∧ relation goal otherGoal := by
  induction path with
  | single first =>
      obtain ⟨after, edge, same⟩ := each first related
      exact ⟨after, .single edge, same⟩
  | tail _ last ih =>
      obtain ⟨middle, leads, same⟩ := ih
      obtain ⟨after, edge, sameAfter⟩ := each last same
      exact ⟨after, .tail leads edge, sameAfter⟩

theorem reflTransGen_lift {α β : Type} {relation : α → β → Prop} {step : α → α → Prop}
    {otherStep : β → β → Prop}
    (each : ∀ {node after other}, step node after → relation node other →
      ∃ otherAfter, otherStep other otherAfter ∧ relation after otherAfter)
    {start goal : α} {other : β} (path : ReflTransGen step start goal)
    (related : relation start other) :
    ∃ otherGoal, ReflTransGen otherStep other otherGoal ∧ relation goal otherGoal := by
  rcases reflTransGen_iff_eq_or_transGen.mp path with rfl | strictly
  · exact ⟨other, .refl, related⟩
  · obtain ⟨otherGoal, leads, same⟩ := transGen_lift each strictly related
    exact ⟨otherGoal, leads.to_reflTransGen, same⟩

namespace Program

variable {left right : Program} (mirrors : left.Mirrors right)

namespace Mirrors

include mirrors

theorem named {id other interface otherInterface : ClassId} (same : SameClass left right id other)
    (interfaces : SameClass left right interface otherInterface)
    (listed : interface ∈ left.namedInterfaces id) :
    otherInterface ∈ right.namedInterfaces other := by
  obtain ⟨entry, otherEntry, found, otherFound, entries⟩ := mirrors.classEntries same
  obtain ⟨⟨name, member, named⟩, isInterface⟩ := (mem_namedInterfaces found).mp listed
  rw [mirrors.isInterface_eq interfaces] at isInterface
  exact (mem_namedInterfaces otherFound).mpr
    ⟨⟨name, entries.interfaces ▸ member, interfaces.classId? named⟩, isInterface⟩

theorem extendsClass_lift {parent child otherParent : ClassId}
    (extended : left.ExtendsClass parent child)
    (parents : SameClass left right parent otherParent) :
    ∃ otherChild, right.ExtendsClass otherParent otherChild ∧
      SameClass left right child otherChild := by
  obtain ⟨entry, listed, _⟩ := (Option.any_eq_true _ _).mp extended.1
  obtain ⟨otherChild, children⟩ := mirrors.exists_sameClass listed
  refine ⟨otherChild, ⟨mirrors.isClass_eq children ▸ extended.1, ?_⟩, children⟩
  have above := mirrors.superOf?_rel children
  rw [extended.2] at above
  generalize right.superOf? otherChild = found at above
  cases above with
  | some same => rw [(same.paired parents).mp rfl]

theorem extendsInterface_lift {parent child otherParent : ClassId}
    (extended : left.ExtendsInterface parent child)
    (parents : SameClass left right parent otherParent) :
    ∃ otherChild, right.ExtendsInterface otherParent otherChild ∧
      SameClass left right child otherChild := by
  obtain ⟨entry, listed, _⟩ := (Option.any_eq_true _ _).mp extended.1
  obtain ⟨otherChild, children⟩ := mirrors.exists_sameClass listed
  exact ⟨otherChild, ⟨mirrors.isInterface_eq children ▸ extended.1,
    mirrors.named children parents extended.2⟩, children⟩

theorem implements_lift {policy otherPolicy : Policy} {interface otherInterface id : ClassId}
    (extension : policy.interfaceExtension = otherPolicy.interfaceExtension)
    (implemented : left.Implements policy interface id)
    (interfaces : SameClass left right interface otherInterface) :
    ∃ other, right.Implements otherPolicy otherInterface other ∧
      SameClass left right id other := by
  obtain ⟨named, reached, direct, isClass, listed, path⟩ := implemented
  obtain ⟨otherNamed, otherReached, names⟩ : ∃ otherNamed, (otherNamed = otherInterface ∨
      otherPolicy.interfaceExtension = true ∧
        TransGen right.ExtendsInterface otherInterface otherNamed) ∧
      SameClass left right named otherNamed := by
    rcases reached with rfl | ⟨extends_, leads⟩
    · exact ⟨otherInterface, .inl rfl, interfaces⟩
    · obtain ⟨otherNamed, otherLeads, same⟩ :=
        transGen_lift mirrors.extendsInterface_lift leads interfaces
      exact ⟨otherNamed, .inr ⟨extension ▸ extends_, otherLeads⟩, same⟩
  obtain ⟨entry, found, _⟩ := (Option.any_eq_true _ _).mp isClass
  obtain ⟨otherDirect, directs⟩ := mirrors.exists_sameClass found
  obtain ⟨other, otherPath, same⟩ := reflTransGen_lift mirrors.extendsClass_lift path directs
  exact ⟨other, ⟨otherNamed, otherReached, otherDirect, mirrors.isClass_eq directs ▸ isClass,
    mirrors.named directs names listed, otherPath⟩, same⟩

theorem receives_lift {policy otherPolicy : Policy} {id other receiver : ClassId}
    (extension : policy.interfaceExtension = otherPolicy.interfaceExtension)
    (receives : left.Receives policy id receiver) (same : SameClass left right id other) :
    ∃ otherReceiver, right.Receives otherPolicy other otherReceiver ∧
      SameClass left right receiver otherReceiver := by
  rcases receives with ⟨isClass, path⟩ | ⟨isInterface, implemented⟩
  · obtain ⟨otherReceiver, otherPath, related⟩ :=
      reflTransGen_lift mirrors.extendsClass_lift path same
    exact ⟨otherReceiver, .inl ⟨mirrors.isClass_eq same ▸ isClass, otherPath⟩, related⟩
  · obtain ⟨otherReceiver, otherImplemented, related⟩ :=
      mirrors.implements_lift extension implemented same
    exact ⟨otherReceiver, .inr ⟨mirrors.isInterface_eq same ▸ isInterface, otherImplemented⟩,
      related⟩

end Mirrors

end Program

def Lifts (relation : MethodId → MethodId → Prop)
    (parts otherParts : Except QueryError (List MethodId) → Prop) : Prop :=
  ∀ part, parts part → ∃ other, otherParts other ∧ Agree (List.Forall₂ relation) part other

theorem Lifts.error {relation : MethodId → MethodId → Prop}
    {parts otherParts : Except QueryError (List MethodId) → Prop}
    (lifts : Lifts relation parts otherParts) {error : QueryError} (failed : parts (.error error)) :
    ∃ otherError, otherParts (.error otherError) := by
  obtain ⟨part, otherFailed, agree⟩ := lifts _ failed
  cases part with
  | error otherError => exact ⟨otherError, otherFailed⟩
  | ok group => cases agree

theorem Gathers.lift {left right : Program} (mirrors : left.Mirrors right)
    {parts otherParts : Except QueryError (List MethodId) → Prop} {targets : List MethodId}
    (forth : Lifts (SameMethod left right) parts otherParts)
    (back : Lifts (SameMethod right left) otherParts parts) (gathers : Gathers parts targets) :
    ∃ others, List.Forall₂ (SameMethod left right) targets others ∧ Gathers otherParts others := by
  have each : ∀ target ∈ targets, ∃ other, SameMethod left right target other ∧
      ∃ group, otherParts (.ok group) ∧ other ∈ group := by
    intro target member
    obtain ⟨group, part, inGroup⟩ := (gathers.complete target).mp member
    obtain ⟨otherPart, contributes, agree⟩ := forth _ part
    cases otherPart with
    | error error => cases agree
    | ok others =>
        obtain ⟨other, listed, same⟩ := mem_of_forall₂ (List.Forall₂.flip agree) inGroup
        exact ⟨other, same, others, contributes, listed⟩
  choose! counterpart same contributed using each
  refine ⟨targets.map counterpart, ?_, ?_, fun error failed => ?_, fun other => ?_⟩
  · rw [List.forall₂_map_right_iff, List.forall₂_same]
    exact same
  · refine gathers.unique.map_on fun first member second secondMember again => ?_
    exact (mirrors.paired (same first member) (same second secondMember)).mpr again
  · obtain ⟨again, failedToo⟩ := back.error failed
    exact gathers.sound again failedToo
  · rw [List.mem_map]
    constructor
    · rintro ⟨target, member, rfl⟩
      exact contributed target member
    · rintro ⟨group, contributes, inGroup⟩
      obtain ⟨part, contributesToo, agree⟩ := back _ contributes
      cases part with
      | error error => cases agree
      | ok targetGroup =>
          obtain ⟨target, listed, related⟩ := mem_of_forall₂ (List.Forall₂.flip agree) inGroup
          have member := (gathers.complete target).mpr ⟨targetGroup, contributesToo, listed⟩
          exact ⟨target, member, (mirrors.paired (same target member) (SameMethod.symm related)).mp rfl⟩

def Invocation.constructs (invocation : Invocation) : Bool :=
  invocation.kind == .special && invocation.signature.name == "<init>"

/-- The outcomes of one call, each in its program: the same targets in any order, counted in the
same way. -/
structure CallTarget.Mirrors (left right : Program) (target other : CallTarget) : Prop where
  targets : ∃ middle, List.Forall₂ (SameMethod left right) target.targets middle ∧
    middle.Perm other.targets
  count : ∀ counters : Counters, counters.count target = counters.count other

namespace Hierarchy

/-- The hierarchies differ in handles and in the deferred entries of constructors only. -/
structure Mirrors (left right : Hierarchy) : Prop where
  programs : left.program.Mirrors right.program
  visibility : left.policy.visibility = right.policy.visibility
  interfaceExtension : left.policy.interfaceExtension = right.policy.interfaceExtension

variable {left right : Hierarchy}

/-- Where the policies disagree, a call that constructs nothing names no constructor. -/
theorem settled_callee {invocation : Invocation} {callee : MethodId}
    (settled : left.policy.deferred = right.policy.deferred ∨ invocation.constructs = false)
    (found : left.program.findMethod? invocation.className invocation.signature = some callee)
    (special : invocation.kind = .special) :
    left.policy.deferred = right.policy.deferred ∨
      ∀ entry, left.program.method? callee = some entry → entry.isConstructor = false := by
  refine settled.imp_right fun ordinary entry listed => ?_
  obtain ⟨_, _, _, _, listedAgain, signature⟩ := findMethod?_some found
  cases listed.symm.trans listedAgain
  simpa [Invocation.constructs, special, MethodEntry.isConstructor, signature] using ordinary

namespace Mirrors

theorem symm (mirrors : left.Mirrors right) : right.Mirrors left :=
  ⟨mirrors.programs.symm, mirrors.visibility.symm, mirrors.interfaceExtension.symm⟩

variable (mirrors : left.Mirrors right)

include mirrors

theorem superClasses_agree {id other : ClassId}
    (same : SameClass left.program right.program id other) :
    Agree (List.Forall₂ (SameClass left.program right.program)) (left.superClasses id)
      (right.superClasses other) :=
  (mirrors.programs.requireClass_agree same).bind fun _ _ _ => mirrors.programs.ancestors_rel same

theorem superClassesIncluding_agree {id other : ClassId}
    (same : SameClass left.program right.program id other) :
    Agree (List.Forall₂ (SameClass left.program right.program)) (left.superClassesIncluding id)
      (right.superClassesIncluding other) :=
  (mirrors.superClasses_agree same).bind fun _ _ above => .cons same above

theorem isSubClass_agree {child otherChild parent otherParent : ClassId}
    (children : SameClass left.program right.program child otherChild)
    (parents : SameClass left.program right.program parent otherParent) :
    Agree Eq (left.isSubClass child parent) (right.isSubClass otherChild otherParent) :=
  (mirrors.superClasses_agree children).bind fun _ _ above =>
    contains_eq above fun _ _ => parents.paired

section Lookup

variable {receiver otherReceiver declarer otherDeclarer : ClassId}
  {requested otherRequested : MethodId} {signature : Signature}
  (receivers : SameClass left.program right.program receiver otherReceiver)
  (requests : SameMethod left.program right.program requested otherRequested)

include receivers requests

theorem answersWith_agree {candidate otherCandidate : MethodId}
    (declarers : SameClass left.program right.program declarer otherDeclarer)
    (candidates : SameMethod left.program right.program candidate otherCandidate) :
    Agree Eq (left.answersWith receiver requested signature declarer candidate)
      (right.answersWith otherReceiver otherRequested signature otherDeclarer otherCandidate) := by
  refine (mirrors.programs.requireMethod_agree candidates).bind fun _ _ entries => ?_
  rw [entries.signature]
  split
  · rw [accepts, accepts, mirrors.visibility]
    split
    · exact mirrors.programs.methodVisible_agree declarers requests
    · exact mirrors.programs.methodVisible_agree receivers candidates
  · exact rfl

theorem acceptedAmong?_agree {methods otherMethods : List MethodId}
    (declarers : SameClass left.program right.program declarer otherDeclarer)
    (related : List.Forall₂ (SameMethod left.program right.program) methods otherMethods) :
    Agree (Option.Rel (SameMethod left.program right.program))
      (left.acceptedAmong? receiver requested signature declarer methods)
      (right.acceptedAmong? otherReceiver otherRequested signature otherDeclarer
        otherMethods) := by
  induction related with
  | nil => exact .none
  | cons head _ ih =>
      refine (mirrors.answersWith_agree receivers requests declarers head).bind
        fun accepted otherAccepted same => ?_
      rw [same]
      split
      · exact .some head
      · exact ih

theorem acceptedIn?_agree {classes otherClasses : List ClassId}
    (related : List.Forall₂ (SameClass left.program right.program) classes otherClasses) :
    Agree (Option.Rel (SameMethod left.program right.program))
      (left.acceptedIn? receiver requested signature classes)
      (right.acceptedIn? otherReceiver otherRequested signature otherClasses) := by
  induction related with
  | nil => exact .none
  | cons head _ ih =>
      refine (mirrors.programs.requireEntry_agree head).bind fun _ _ entries => ?_
      refine (mirrors.acceptedAmong?_agree receivers requests head entries.methods).bind
        fun found otherFound same => ?_
      cases same with
      | some target => exact .some target
      | none => exact ih

theorem concreteTarget_agree :
    Agree (SameMethod left.program right.program) (left.concreteTarget receiver requested)
      (right.concreteTarget otherReceiver otherRequested) := by
  refine (mirrors.programs.requireClass_agree receivers).bind fun _ _ classEntries => ?_
  refine (mirrors.programs.requireMethod_agree requests).bind fun _ _ entries => ?_
  refine (mirrors.superClassesIncluding_agree receivers).bind fun _ _ above => ?_
  rw [entries.signature]
  refine (mirrors.acceptedIn?_agree receivers requests above).bind fun _ _ found => ?_
  cases found with
  | some target => exact target
  | none =>
      have render := congrArg (fun source : DetachedMethod =>
        qualifiedSignature source.className source.method.signature) entries.source
      exact congrArg₂ QueryError.noConcreteDispatch classEntries.name render

theorem targetOn_agree :
    Agree (List.Forall₂ (SameMethod left.program right.program)) (left.targetOn requested receiver)
      (right.targetOn otherRequested otherReceiver) := by
  refine (mirrors.programs.requireEntry_agree receivers).bind fun _ _ entries => ?_
  rw [entries.isAbstract]
  split
  · exact .nil
  · exact (mirrors.concreteTarget_agree receivers requests).bind fun _ _ same => .cons same .nil

end Lookup

theorem deferredEntry_agree {id other : ClassId}
    (deferred : left.policy.deferred = right.policy.deferred)
    (same : SameClass left.program right.program id other) :
    Agree (Option.Rel (SameMethod left.program right.program)) (left.deferredEntry id)
      (right.deferredEntry other) := by
  refine (mirrors.programs.requireEntry_agree same).bind fun entry otherEntry entries => ?_
  have declares (name : String) :
      entry.declaresInterface name = otherEntry.declaresInterface name := by
    rw [ClassEntry.declaresInterface, ClassEntry.declaresInterface, entries.interfaces]
  rw [deferred]
  refine findSome?_rel fun rule => ?_
  rw [declares]
  split
  · exact mirrors.programs.findMethodNamed?_rel same rule.entry
  · exact .none

theorem specialTarget_agree {method other container otherContainer : MethodId}
    (methods : SameMethod left.program right.program method other)
    (containers : SameMethod left.program right.program container otherContainer)
    (settled : left.policy.deferred = right.policy.deferred ∨
      ∀ entry, left.program.method? method = some entry → entry.isConstructor = false) :
    Agree (SameMethod left.program right.program) (left.specialTarget method container)
      (right.specialTarget other otherContainer) := by
  obtain ⟨callee, otherCallee, found, otherFound, callees⟩ := mirrors.programs.methodEntries methods
  have constructor : callee.isConstructor = otherCallee.isConstructor := by
    simp only [MethodEntry.isConstructor, callees.signature]
  have deferred : Agree (Option.Rel (SameMethod left.program right.program))
      (left.deferredCall callee) (right.deferredCall otherCallee) := by
    rw [deferredCall, deferredCall, ← constructor]
    split
    · rename_i constructs
      rcases settled with policies | plain
      · exact mirrors.deferredEntry_agree policies callees.owner
      · cases constructs.symm.trans (plain callee found)
    · exact .none
  simp only [specialTarget, requireMethod_eq_ok.mpr found, requireMethod_eq_ok.mpr otherFound]
  refine (mirrors.programs.requireMethod_agree containers).bind fun _ _ callers => ?_
  refine deferred.bind fun _ _ entry => ?_
  cases entry with
  | some target => exact target
  | none =>
      dsimp only
      rw [constructor, callees.modifiers]
      split
      · exact methods
      · refine (mirrors.programs.requireEntry_agree callees.owner).bind fun _ _ calleeClasses => ?_
        rw [calleeClasses.isInterface]
        split
        · exact methods
        · refine (mirrors.programs.requireEntry_agree callers.owner).bind
            fun _ _ callerClasses => ?_
          rw [callerClasses.isInterface]
          split
          · exact methods
          · refine (mirrors.isSubClass_agree callees.owner callers.owner).bind
              fun above otherAbove same => ?_
            rw [same]
            split
            · exact mirrors.concreteTarget_agree callers.owner methods
            · exact methods

theorem receivers_lift {id other : ClassId} {method otherMethod : MethodId}
    (same : SameClass left.program right.program id other)
    (methods : SameMethod left.program right.program method otherMethod) :
    Lifts (SameMethod left.program right.program)
      (fun part => ∃ receiver, left.program.Receives left.policy id receiver ∧
        left.targetOn method receiver = part)
      fun part => ∃ receiver, right.program.Receives right.policy other receiver ∧
        right.targetOn otherMethod receiver = part := by
  rintro _ ⟨receiver, receives, rfl⟩
  obtain ⟨otherReceiver, otherReceives, receivers⟩ :=
    mirrors.programs.receives_lift mirrors.interfaceExtension receives same
  exact ⟨_, ⟨otherReceiver, otherReceives, rfl⟩, mirrors.targetOn_agree receivers methods⟩

theorem partOf_lift {callee otherCallee container otherContainer : MethodId} {kind : InvocationKind}
    (callees : SameMethod left.program right.program callee otherCallee)
    (containers : SameMethod left.program right.program container otherContainer)
    (settled : kind = .special → left.policy.deferred = right.policy.deferred ∨
      ∀ entry, left.program.method? callee = some entry → entry.isConstructor = false) :
    Lifts (SameMethod left.program right.program) (left.PartOf callee container kind)
      (right.PartOf otherCallee otherContainer kind) := by
  intro part partOf
  cases partOf with
  | dispatched dynamic found receives =>
      obtain ⟨entry, otherEntry, listed, otherListed, entries⟩ :=
        mirrors.programs.methodEntries callees
      cases found.symm.trans listed
      obtain ⟨_, ⟨otherReceiver, otherReceives, rfl⟩, agree⟩ :=
        mirrors.receivers_lift entries.owner callees _ ⟨_, receives, rfl⟩
      exact ⟨_, .dispatched dynamic otherListed otherReceives, agree⟩
  | special =>
      refine ⟨_, .special, ?_⟩
      exact (mirrors.specialTarget_agree callees containers (settled rfl)).bind
        fun _ _ same => .cons same .nil
  | static => exact ⟨_, .static, .cons callees .nil⟩

theorem parts_lift {caller otherCaller : MethodId} {invocation : Invocation} {callee : MethodId}
    (callers : SameMethod left.program right.program caller otherCaller)
    (settled : left.policy.deferred = right.policy.deferred ∨ invocation.constructs = false)
    (found : left.program.findMethod? invocation.className invocation.signature = some callee) :
    ∃ otherCallee, SameMethod left.program right.program callee otherCallee ∧
      right.program.findMethod? invocation.className invocation.signature = some otherCallee ∧
      Lifts (SameMethod left.program right.program) (left.PartOf callee caller invocation.kind)
        (right.PartOf otherCallee otherCaller invocation.kind) ∧
      Lifts (SameMethod right.program left.program)
        (right.PartOf otherCallee otherCaller invocation.kind)
        (left.PartOf callee caller invocation.kind) := by
  have named := mirrors.programs.findMethod?_rel invocation.className invocation.signature
  rw [found] at named
  cases otherFound : right.program.findMethod? invocation.className invocation.signature with
  | none =>
      rw [otherFound] at named
      cases named
  | some otherCallee =>
      rw [otherFound] at named
      cases named with
      | some callees =>
          refine ⟨otherCallee, callees, rfl, ?_, ?_⟩
          · exact mirrors.partOf_lift callees callers (settled_callee settled found)
          · exact mirrors.symm.partOf_lift callees.symm callers.symm
              (settled_callee (settled.imp_left Eq.symm) otherFound)

theorem resolves_lift {caller otherCaller : MethodId} {invocation : Invocation}
    {target : CallTarget} (callers : SameMethod left.program right.program caller otherCaller)
    (settled : left.policy.deferred = right.policy.deferred ∨ invocation.constructs = false)
    (resolves : left.Resolves caller invocation target) :
    ∃ other, right.Resolves otherCaller invocation other ∧
      target.Mirrors left.program right.program other := by
  have known := mirrors.programs.classId?_rel invocation.className
  have named := mirrors.programs.findMethod?_rel invocation.className invocation.signature
  cases resolves with
  | external unknown =>
      rw [unknown] at known
      refine ⟨.external, .external ?_, ⟨[], .nil, .nil⟩, fun _ => rfl⟩
      generalize right.program.classId? invocation.className = found at known
      cases known
      rfl
  | missing found unnamed =>
      rw [found] at known
      rw [unnamed] at named
      cases otherFound : right.program.classId? invocation.className with
      | none =>
          rw [otherFound] at known
          cases known
      | some other =>
          refine ⟨.missing, .missing otherFound ?_, ⟨[], .nil, .nil⟩, fun _ => rfl⟩
          generalize right.program.findMethod? invocation.className invocation.signature =
            method at named
          cases named
          rfl
  | resolved found nonempty gathers =>
      obtain ⟨_, _, otherFound, forth, back⟩ := mirrors.parts_lift callers settled found
      obtain ⟨others, related, otherGathers⟩ := gathers.lift mirrors.programs forth back
      have length := related.length_eq
      refine ⟨.resolved others, .resolved otherFound ?_ otherGathers, ⟨others, related, .refl _⟩,
        fun counters => ?_⟩
      · rintro rfl
        exact nonempty (List.forall₂_nil_right_iff.mp related)
      · simp [Counters.count, CallTarget.isPolymorphic, length]
  | unresolved found failed =>
      rename_i callee
      obtain ⟨otherCallee, callees, otherFound, forth, back⟩ :=
        mirrors.parts_lift callers settled found
      refine ⟨.unresolved otherCallee, .unresolved otherFound ?_,
        ⟨[otherCallee], .cons callees .nil, .refl _⟩, fun _ => rfl⟩
      rcases failed with nothing | ⟨error, part⟩
      · obtain ⟨others, related, gathers⟩ := nothing.lift mirrors.programs forth back
        rw [List.forall₂_nil_left_iff.mp related] at gathers
        exact .inl gathers
      · exact .inr (forth.error part)

theorem resolves_mirrors {caller otherCaller : MethodId} {invocation : Invocation}
    {target other : CallTarget}
    (callers : SameMethod left.program right.program caller otherCaller)
    (settled : left.policy.deferred = right.policy.deferred ∨ invocation.constructs = false)
    (resolves : left.Resolves caller invocation target)
    (otherResolves : right.Resolves otherCaller invocation other) :
    target.Mirrors left.program right.program other := by
  obtain ⟨counterpart, resolvesToo, ⟨middle, related, shuffled⟩, count⟩ :=
    mirrors.resolves_lift callers settled resolves
  have alike := resolvesToo.alike otherResolves
  exact ⟨⟨middle, related, shuffled.trans alike.targets⟩,
    fun counters => (count counters).trans (alike.count counters)⟩

end Mirrors

end Hierarchy

end CallResolution

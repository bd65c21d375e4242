import CallResolution.Proofs.MirroredDispatch
import CallResolution.Proofs.Reordering

/-!
Answers of hierarchies whose programs differ in handles only. Told by names and signatures they
are the same, whatever was asked before: lists of super-classes in their order, closures and
targets of dispatched calls as sets.
-/

namespace CallResolution

open Relation

theorem mem_map_iff_of_cover {α β γ : Type} (relation : α → β → Prop) {view : α → γ}
    {otherView : β → γ} (views : ∀ item other, relation item other → view item = otherView other)
    {items : List α} {others : List β}
    (forth : ∀ item ∈ items, ∃ other ∈ others, relation item other)
    (back : ∀ other ∈ others, ∃ item ∈ items, relation item other) (value : γ) :
    value ∈ items.map view ↔ value ∈ others.map otherView := by
  simp only [List.mem_map]
  constructor
  · rintro ⟨item, member, rfl⟩
    obtain ⟨other, otherMember, related⟩ := forth item member
    exact ⟨other, otherMember, (views item other related).symm⟩
  · rintro ⟨other, otherMember, rfl⟩
    obtain ⟨item, member, related⟩ := back other otherMember
    exact ⟨item, member, views item other related⟩

theorem Agree.guarded {ε α β γ δ : Type} {relation : α → β → Prop} {result : γ → δ → Prop}
    {check : Except ε α} {otherCheck : Except ε β} {answer : Except ε γ} {other : Except ε δ}
    (checks : Agree relation check otherCheck)
    (failed : ∀ error, check = .error error → answer = .error error)
    (otherFailed : ∀ error, otherCheck = .error error → other = .error error)
    (passed : ∀ value otherValue, check = .ok value → otherCheck = .ok otherValue →
      Agree result answer other) : Agree result answer other := by
  cases found : check with
  | error error =>
      cases otherFound : otherCheck with
      | error otherError =>
          rw [found, otherFound] at checks
          rw [failed error found, otherFailed otherError otherFound]
          exact checks
      | ok otherValue =>
          rw [found, otherFound] at checks
          cases checks
  | ok value =>
      cases otherFound : otherCheck with
      | error otherError =>
          rw [found, otherFound] at checks
          cases checks
      | ok otherValue => exact passed value otherValue found otherFound

namespace Program

def nameOf? (program : Program) (id : ClassId) : Option String :=
  (program.class? id).map ClassEntry.name

def SameNames (left right : Program) (ids others : List ClassId) : Prop :=
  ∀ name, name ∈ ids.map left.nameOf? ↔ name ∈ others.map right.nameOf?

namespace Mirrors

variable {left right : Program} (mirrors : left.Mirrors right)

include mirrors

theorem nameOf?_eq (id other : ClassId) (same : SameClass left right id other) :
    left.nameOf? id = right.nameOf? other := by
  obtain ⟨entry, otherEntry, listed, otherListed, entries⟩ := mirrors.classEntries same
  simp only [nameOf?, listed, otherListed, Option.map_some, entries.name]

theorem identityOf?_eq (method other : MethodId) (same : SameMethod left right method other) :
    left.identityOf? method = right.identityOf? other := by
  obtain ⟨entry, otherEntry, listed, otherListed, entries⟩ := mirrors.methodEntries same
  simp only [identityOf?, listed, otherListed, Option.map_some, entries.className,
    entries.signature]

theorem sameMethod_of_identityOf? {method other : MethodId} {entry : MethodEntry}
    (found : left.method? method = some entry)
    (same : left.identityOf? method = right.identityOf? other) :
    SameMethod left right method other := by
  rw [identityOf?, found, Option.map_some] at same
  obtain ⟨otherEntry, otherFound, identity⟩ := Option.map_eq_some_iff.mp same.symm
  obtain ⟨className, signature⟩ := Prod.mk.inj identity
  exact ⟨entry.className, entry.signature, mirrors.integral.findMethod?_entry found,
    (mirrors.otherIntegral.identities _ _ _).mpr ⟨otherEntry, otherFound, className, signature⟩⟩

theorem names_agree {α β : Type} {relation : α → β → Prop} {check : Except QueryError α}
    {otherCheck : Except QueryError β} {inv otherInv : Memos → Prop}
    {query otherQuery : Query (List ClassId)} {reason otherReason : ClassId → Prop}
    {memos otherMemos : Memos} (held : inv memos) (otherHeld : otherInv otherMemos)
    (checks : Agree relation check otherCheck)
    (failed : ∀ error, check = .error error → (query memos).1 = .error error)
    (otherFailed : ∀ error, otherCheck = .error error → (otherQuery otherMemos).1 = .error error)
    (exact : ∀ value, check = .ok value →
      Query.Meets inv query (fun ids => ∀ id, id ∈ ids ↔ reason id) fun _ => False)
    (otherExact : ∀ value, otherCheck = .ok value →
      Query.Meets otherInv otherQuery (fun ids => ∀ id, id ∈ ids ↔ otherReason id) fun _ => False)
    (forth : ∀ id, reason id → ∃ other, otherReason other ∧ SameClass left right id other)
    (back : ∀ other, otherReason other → ∃ id, reason id ∧ SameClass right left other id) :
    Agree (SameNames left right) (query memos).1 (otherQuery otherMemos).1 := by
  refine checks.guarded failed otherFailed fun value otherValue passed otherPassed => ?_
  obtain ⟨ids, answered, listed⟩ := (exact value passed memos held).2.exists_ok
  obtain ⟨others, otherAnswered, otherListed⟩ :=
    (otherExact otherValue otherPassed otherMemos otherHeld).2.exists_ok
  rw [answered, otherAnswered]
  refine mem_map_iff_of_cover _ mirrors.nameOf?_eq (fun id member => ?_) fun other member => ?_
  · obtain ⟨other, holds, same⟩ := forth id ((listed id).mp member)
    exact ⟨other, (otherListed other).mpr holds, same⟩
  · obtain ⟨id, holds, same⟩ := back other ((otherListed other).mp member)
    exact ⟨id, (listed id).mpr holds, same.symm⟩

theorem subClass_lift {id other child : ClassId} (same : SameClass left right id other)
    (below : child ≠ id ∧ TransGen left.ExtendsClass id child) :
    ∃ otherChild, (otherChild ≠ other ∧ TransGen right.ExtendsClass other otherChild) ∧
      SameClass left right child otherChild := by
  obtain ⟨otherChild, path, children⟩ := transGen_lift mirrors.extendsClass_lift below.2 same
  exact ⟨otherChild, ⟨mt (children.paired same).mpr below.1, path⟩, children⟩

theorem subInterface_lift {policy : Policy} {id other child : ClassId}
    (same : SameClass left right id other)
    (below : child ≠ id ∧ policy.interfaceExtension = true ∧
      TransGen left.ExtendsInterface id child) :
    ∃ otherChild, (otherChild ≠ other ∧ policy.interfaceExtension = true ∧
      TransGen right.ExtendsInterface other otherChild) ∧ SameClass left right child otherChild := by
  obtain ⟨otherChild, path, children⟩ := transGen_lift mirrors.extendsInterface_lift below.2.2 same
  exact ⟨otherChild, ⟨mt (children.paired same).mpr below.1, below.2.1, path⟩, children⟩

end Mirrors

end Program

open Program

namespace Hierarchy

/-- Asked about the same classes and methods, both give the same answers. Classes are told by
their names and methods by class and signature. -/
structure SameAnswers (left right : Hierarchy × Memos) : Prop where
  classes : ∀ name, (left.1.program.classId? name).isSome = (right.1.program.classId? name).isSome
  methods : ∀ className signature, (left.1.program.findMethod? className signature).isSome =
    (right.1.program.findMethod? className signature).isSome
  superClasses : ∀ id other, SameClass left.1.program right.1.program id other →
    (left.1.superClasses id).map (List.map left.1.program.nameOf?) =
      (right.1.superClasses other).map (List.map right.1.program.nameOf?)
  subClasses : ∀ id other, SameClass left.1.program right.1.program id other →
    Agree (SameNames left.1.program right.1.program)
      (left.1.subClasses id left.2).1 (right.1.subClasses other right.2).1
  subInterfaces : ∀ id other, SameClass left.1.program right.1.program id other →
    Agree (SameNames left.1.program right.1.program)
      (left.1.subInterfaces id left.2).1 (right.1.subInterfaces other right.2).1
  implementers : ∀ id other, SameClass left.1.program right.1.program id other →
    Agree (SameNames left.1.program right.1.program)
      (left.1.implementers id left.2).1 (right.1.implementers other right.2).1
  classVisible : ∀ viewer otherViewer target otherTarget,
    SameClass left.1.program right.1.program viewer otherViewer →
    SameClass left.1.program right.1.program target otherTarget →
    left.1.program.classVisible viewer target = right.1.program.classVisible otherViewer otherTarget
  methodVisible : ∀ viewer otherViewer method other,
    SameClass left.1.program right.1.program viewer otherViewer →
    SameMethod left.1.program right.1.program method other →
    left.1.program.methodVisible viewer method = right.1.program.methodVisible otherViewer other
  concreteTarget : ∀ receiver otherReceiver method other,
    SameClass left.1.program right.1.program receiver otherReceiver →
    SameMethod left.1.program right.1.program method other →
    (left.1.concreteTarget receiver method).map left.1.program.identityOf? =
      (right.1.concreteTarget otherReceiver other).map right.1.program.identityOf?
  specialTarget : ∀ method other container otherContainer,
    SameMethod left.1.program right.1.program method other →
    SameMethod left.1.program right.1.program container otherContainer →
    (left.1.specialTarget method container).map left.1.program.identityOf? =
      (right.1.specialTarget other otherContainer).map right.1.program.identityOf?
  deferredEntry : ∀ id other, SameClass left.1.program right.1.program id other →
    (left.1.deferredEntry id).map (Option.map left.1.program.identityOf?) =
      (right.1.deferredEntry other).map (Option.map right.1.program.identityOf?)
  abstractTargets : ∀ id other method otherMethod,
    SameClass left.1.program right.1.program id other →
    SameMethod left.1.program right.1.program method otherMethod →
    (∃ error otherError, (left.1.abstractTargets id method left.2).1 = .error error ∧
      (right.1.abstractTargets other otherMethod right.2).1 = .error otherError) ∨
    ∃ targets others, (left.1.abstractTargets id method left.2).1 = .ok targets ∧
      (right.1.abstractTargets other otherMethod right.2).1 = .ok others ∧
      ∀ identity, identity ∈ targets.map left.1.program.identityOf? ↔
        identity ∈ others.map right.1.program.identityOf?

section Answers

variable {program other : Program} {policy : Policy} {memos otherMemos : Memos}
  (mirrors : program.Mirrors other) (held : (tables program policy).Exact memos)
  (otherHeld : (tables other policy).Exact otherMemos)

include mirrors held otherHeld

theorem subClasses_agree {id otherId : ClassId} (same : SameClass program other id otherId) :
    Agree (SameNames program other) ((ofProgram program policy).1.subClasses id memos).1
      ((ofProgram other policy).1.subClasses otherId otherMemos).1 := by
  have fails {program : Program} {id : ClassId} {memos : Memos} (error : QueryError)
      (failed : (ofProgram program policy).1.program.requireClass id = .error error) :
      ((ofProgram program policy).1.subClasses id memos).1 = .error error := by
    rw [subClasses, Query.bind_apply, failed]
    rfl
  have exact {program : Program} {id : ClassId} (entry : ClassEntry)
      (passed : program.requireClass id = .ok entry) :
      Query.Meets (tables program policy).Exact ((ofProgram program policy).1.subClasses id)
        (fun ids => ∀ child, child ∈ ids ↔ child ≠ id ∧ TransGen program.ExtendsClass id child)
        fun _ => False :=
    (subClasses_exact policy (isClass_of_requireClass passed)).mono fun _ lists child => by
      rw [lists.complete, below_subClassTable]
  exact mirrors.names_agree held otherHeld (mirrors.requireClass_agree same) fails fails exact exact
    (fun _ => mirrors.subClass_lift same) fun _ => mirrors.symm.subClass_lift same.symm

theorem subInterfaces_agree {id otherId : ClassId} (same : SameClass program other id otherId) :
    Agree (SameNames program other) ((ofProgram program policy).1.subInterfaces id memos).1
      ((ofProgram other policy).1.subInterfaces otherId otherMemos).1 := by
  have fails {program : Program} {id : ClassId} {memos : Memos} (error : QueryError)
      (failed : (ofProgram program policy).1.program.requireInterface id = .error error) :
      ((ofProgram program policy).1.subInterfaces id memos).1 = .error error := by
    rw [subInterfaces, Query.bind_apply, failed]
    rfl
  have exact {program : Program} {id : ClassId} (entry : ClassEntry)
      (passed : program.requireInterface id = .ok entry) :
      Query.Meets (tables program policy).Exact ((ofProgram program policy).1.subInterfaces id)
        (fun ids => ∀ child, child ∈ ids ↔ child ≠ id ∧ policy.interfaceExtension = true ∧
          TransGen program.ExtendsInterface id child) fun _ => False :=
    (subInterfaces_exact policy (isInterface_of_requireInterface passed)).mono
      fun _ lists child => by rw [lists.complete, below_subInterfaceTable]
  exact mirrors.names_agree held otherHeld (mirrors.requireInterface_agree same) fails fails exact
    exact (fun _ => mirrors.subInterface_lift same) fun _ => mirrors.symm.subInterface_lift same.symm

theorem implementers_agree {id otherId : ClassId} (same : SameClass program other id otherId) :
    Agree (SameNames program other) ((ofProgram program policy).1.implementers id memos).1
      ((ofProgram other policy).1.implementers otherId otherMemos).1 := by
  have fails {program : Program} {id : ClassId} {memos : Memos} (error : QueryError)
      (failed : (ofProgram program policy).1.program.requireInterface id = .error error) :
      ((ofProgram program policy).1.implementers id memos).1 = .error error := by
    rw [implementers, subInterfacesIncluding, subInterfaces, Query.bind_apply, Query.bind_apply,
      Query.bind_apply, failed]
    rfl
  have exact {program : Program} {id : ClassId} (entry : ClassEntry)
      (passed : program.requireInterface id = .ok entry) :
      Query.Meets (tables program policy).Exact ((ofProgram program policy).1.implementers id)
        (fun ids => ∀ child, child ∈ ids ↔ program.Implements policy id child) fun _ => False :=
    implementers_exact (isInterface_of_requireInterface passed)
  exact mirrors.names_agree held otherHeld (mirrors.requireInterface_agree same) fails fails exact
    exact (fun _ implemented => mirrors.implements_lift rfl implemented same)
    fun _ implemented => mirrors.symm.implements_lift rfl implemented same.symm

theorem abstractTargets_agree {id otherId : ClassId} {method otherMethod : MethodId}
    (same : SameClass program other id otherId)
    (methods : SameMethod program other method otherMethod) :
    (∃ error otherError,
      ((ofProgram program policy).1.abstractTargets id method memos).1 = .error error ∧
      ((ofProgram other policy).1.abstractTargets otherId otherMethod otherMemos).1 =
        .error otherError) ∨
    ∃ targets others,
      ((ofProgram program policy).1.abstractTargets id method memos).1 = .ok targets ∧
      ((ofProgram other policy).1.abstractTargets otherId otherMethod otherMemos).1 = .ok others ∧
      ∀ identity, identity ∈ targets.map program.identityOf? ↔
        identity ∈ others.map other.identityOf? := by
  have hierarchies : (ofProgram program policy).1.Mirrors (ofProgram other policy).1 :=
    ⟨mirrors, rfl, rfl⟩
  have forth := hierarchies.receivers_lift same methods
  have back := hierarchies.symm.receivers_lift same.symm methods.symm
  obtain ⟨name, named, otherNamed⟩ := same
  have outcome := (abstractTargets_gathers (classId?_bound named) method memos held).2
  have otherOutcome :=
    (abstractTargets_gathers (classId?_bound otherNamed) otherMethod otherMemos otherHeld).2
  cases answered : ((ofProgram program policy).1.abstractTargets id method memos).1 with
  | error error =>
      rw [answered] at outcome
      obtain ⟨otherError, failed⟩ := forth.error outcome
      cases otherAnswered :
          ((ofProgram other policy).1.abstractTargets otherId otherMethod otherMemos).1 with
      | error otherError => exact .inl ⟨error, otherError, rfl, rfl⟩
      | ok others =>
          rw [otherAnswered] at otherOutcome
          exact absurd failed (otherOutcome.sound otherError)
  | ok targets =>
      rw [answered] at outcome
      cases otherAnswered :
          ((ofProgram other policy).1.abstractTargets otherId otherMethod otherMemos).1 with
      | error otherError =>
          rw [otherAnswered] at otherOutcome
          obtain ⟨error, failed⟩ := back.error otherOutcome
          exact absurd failed (outcome.sound error)
      | ok others =>
          rw [otherAnswered] at otherOutcome
          obtain ⟨middle, related, gathers⟩ := outcome.lift mirrors forth back
          have identities := map_eq_of_forall₂ related mirrors.identityOf?_eq
          refine .inr ⟨targets, others, rfl, rfl, fun identity => ?_⟩
          rw [identities, ((gathers.perm otherOutcome).map _).mem_iff]

omit held otherHeld in
theorem sameAnswers (policy : Policy) (requests otherRequests : List Request) :
    SameAnswers (afterHistory program policy requests)
      (afterHistory other policy otherRequests) := by
  have hierarchies : (ofProgram program policy).1.Mirrors (ofProgram other policy).1 :=
    ⟨mirrors, rfl, rfl⟩
  have held := exact_afterHistory program policy requests
  have otherHeld := exact_afterHistory other policy otherRequests
  have found {α β : Type} {relation : α → β → Prop} {value : Option α} {another : Option β}
      (related : Option.Rel relation value another) : value.isSome = another.isSome := by
    cases related <;> rfl
  refine ⟨fun name => found (mirrors.classId?_rel name),
    fun className signature => found (mirrors.findMethod?_rel className signature), ?_, ?_, ?_, ?_,
    ?_, ?_, ?_, ?_, ?_, ?_⟩
  · exact fun id otherId same => (hierarchies.superClasses_agree same).map_eq
      fun _ _ above => map_eq_of_forall₂ above mirrors.nameOf?_eq
  · exact fun id otherId same => subClasses_agree mirrors held otherHeld same
  · exact fun id otherId same => subInterfaces_agree mirrors held otherHeld same
  · exact fun id otherId same => implementers_agree mirrors held otherHeld same
  · exact fun _ _ _ _ viewers targets => (mirrors.classVisible_agree viewers targets).eq
  · exact fun _ _ _ _ viewers methods => (mirrors.methodVisible_agree viewers methods).eq
  · exact fun _ _ _ _ receivers methods =>
      (hierarchies.concreteTarget_agree receivers methods).map_eq mirrors.identityOf?_eq
  · exact fun _ _ _ _ methods containers =>
      (hierarchies.specialTarget_agree methods containers (.inl rfl)).map_eq
        mirrors.identityOf?_eq
  · exact fun _ _ same => (hierarchies.deferredEntry_agree rfl same).map_eq
      fun _ _ entries => optionRel_map_eq entries mirrors.identityOf?_eq
  · exact fun _ _ _ _ same methods => abstractTargets_agree mirrors held otherHeld same methods

end Answers

end Hierarchy

end CallResolution

import CallResolution.Proofs.Integrity
import CallResolution.Proofs.Lookup
import CallResolution.Proofs.Resolved

/-!
Dispatch of a method on the class that declares it, where the requested method has to be
visible. Every receiver is a sub-class, so its climb meets the class, and there the method
itself will do. Only a class that nobody sees makes the dispatch fail.
-/

namespace CallResolution

open Relation

/-- Private or protected and not public, so that nobody sees the class. -/
def ClassEntry.isHidden (entry : ClassEntry) : Bool :=
  !entry.modifiers.isPublic && (entry.modifiers.isPrivate || entry.modifiers.isProtected)

theorem ClassEntry.isPublic_of_isHidden {entry : ClassEntry} (hidden : entry.isHidden = true) :
    entry.modifiers.isPublic = false := by
  simp only [isHidden, Bool.and_eq_true, Bool.not_eq_true'] at hidden
  exact hidden.1

namespace Program

def Overrides (program : Program) (entry : MethodEntry) (target : MethodId) : Prop :=
  ∃ declarer, ReflTransGen program.ExtendsClass entry.owner declarer ∧
    target ∈ program.methodsOf declarer ∧ program.hasSignature entry.signature target = true

variable {program : Program} {method : MethodId} {entry : MethodEntry} {viewer : ClassId}
  {viewerEntry ownerEntry : ClassEntry}

theorem methodVisible_eq (named : program.method? method = some entry)
    (viewerListed : program.class? viewer = some viewerEntry)
    (ownerListed : program.class? entry.owner = some ownerEntry) :
    program.methodVisible viewer method =
      .ok ((ownerEntry.modifiers.isPublic ||
        !ownerEntry.isHidden && viewerEntry.package == ownerEntry.package) &&
          program.admits viewer entry) := by
  have classSeen : program.classVisible viewer entry.owner =
      .ok (ownerEntry.modifiers.isPublic ||
        !ownerEntry.isHidden && viewerEntry.package == ownerEntry.package) := by
    simp only [classVisible, requireEntry_eq_ok.mpr ownerListed,
      requireEntry_eq_ok.mpr viewerListed, bind, Except.bind, ClassEntry.isHidden]
    cases ownerEntry.modifiers.isPublic <;> cases ownerEntry.modifiers.isPrivate <;>
      cases ownerEntry.modifiers.isProtected <;> simp
  simp [methodVisible, requireMethod_eq_ok.mpr named, classSeen, bind, Except.bind]

theorem methodVisible_own (named : program.method? method = some entry)
    (ownerListed : program.class? entry.owner = some ownerEntry) :
    program.methodVisible entry.owner method = .ok (!ownerEntry.isHidden) := by
  have admitted : program.admits entry.owner entry = true := by
    simp [admits, samePackage]
  rw [methodVisible_eq named ownerListed ownerListed, admitted]
  cases hidden : ownerEntry.isHidden with
  | false => simp
  | true => simp [ClassEntry.isPublic_of_isHidden hidden]

theorem methodVisible_hidden (named : program.method? method = some entry)
    (viewerListed : program.class? viewer = some viewerEntry)
    (ownerListed : program.class? entry.owner = some ownerEntry)
    (hidden : ownerEntry.isHidden = true) : program.methodVisible viewer method = .ok false := by
  rw [methodVisible_eq named viewerListed ownerListed, hidden,
    ClassEntry.isPublic_of_isHidden hidden]
  rfl

theorem class?_of_mem_methodsOf {id : ClassId} (member : method ∈ program.methodsOf id) :
    ∃ entry, program.class? id = some entry := by
  cases listed : program.class? id with
  | none => simp [methodsOf, listed] at member
  | some entry => exact ⟨entry, rfl⟩

end Program

namespace Hierarchy

theorem accepts_requested {hierarchy : Hierarchy} (rule : hierarchy.policy.visibility = .requested)
    (receiver : ClassId) (requested : MethodId) (declarer : ClassId) (candidate : MethodId) :
    hierarchy.accepts receiver requested declarer candidate =
      hierarchy.program.methodVisible declarer requested := by
  simp [accepts, rule]

section Requested

variable {hierarchy : Hierarchy} (wellFormed : hierarchy.program.WellFormed)
  (rule : hierarchy.policy.visibility = .requested) {method : MethodId} {entry : MethodEntry}
  {ownerEntry receiverEntry : ClassEntry} {receiver : ClassId}
  (named : hierarchy.program.method? method = some entry)
  (ownerListed : hierarchy.program.class? entry.owner = some ownerEntry)
  (isClass : hierarchy.program.isClass entry.owner = true)
  (below : ReflTransGen hierarchy.program.ExtendsClass entry.owner receiver)
  (receiverListed : hierarchy.program.class? receiver = some receiverEntry)

include wellFormed named receiverListed

theorem acceptedIn?_exists (classes : List ClassId)
    (climbed : ∀ id ∈ classes, id ∈ receiver :: hierarchy.program.ancestors receiver) :
    ∃ found, hierarchy.acceptedIn? receiver method entry.signature classes = .ok found := by
  have receiverBound := (Array.getElem?_eq_some_iff.mp receiverListed).1
  have methodBound := (Array.getElem?_eq_some_iff.mp named).1
  have bounds : ∀ id ∈ classes, id.index < hierarchy.program.classes.size := by
    intro id member
    rcases List.mem_cons.mp (climbed id member) with rfl | above
    · exact receiverBound
    · exact Program.ancestors_bound above
  have outcome : Outcome (fun _ => True) (fun _ => False)
      (hierarchy.acceptedIn? receiver method entry.signature classes) :=
    acceptedIn?_outcome wellFormed receiverBound methodBound classes bounds
  obtain ⟨found, searched, _⟩ := outcome.exists_ok
  exact ⟨found, searched⟩

include rule ownerListed isClass below

theorem concreteTarget_shown (declared : method ∈ hierarchy.program.methodsOf entry.owner)
    (shown : ownerEntry.isHidden = false) :
    ∃ target, hierarchy.concreteTarget receiver method = .ok target ∧
      hierarchy.program.Overrides entry target := by
  obtain ⟨before, after, climbed, leads⟩ := Program.ancestors_meet isClass below
  have cut : receiver :: hierarchy.program.ancestors receiver =
      (before ++ [entry.owner]) ++ after := by simp [climbed]
  obtain ⟨found, searched⟩ := acceptedIn?_exists wellFormed named receiverListed
    (before ++ [entry.owner]) fun id member => cut ▸ List.mem_append_left after member
  have finds := acceptedIn?_finds searched
  cases found with
  | none =>
      have visible := Program.methodVisible_own named ownerListed
      rw [shown] at visible
      refine absurd ⟨entry.owner, by simp, declared, by simp [Program.hasSignature, named], ?_⟩
        (finds method)
      rw [accepts_requested rule, visible]
      rfl
  | some target =>
      obtain ⟨declarer, listed, member, signature, _⟩ := finds
      have whole := acceptedIn?_append_some searched after
      rw [← cut] at whole
      refine ⟨target, ?_, declarer, ?_, member, signature⟩
      · have receiverIsClass := Program.isClass_of_extends isClass below
        exact concreteTarget_eq receiverListed receiverIsClass named whole
      · rcases List.mem_append.mp listed with earlier | here
        · exact (leads declarer earlier).to_reflTransGen
        · rw [List.mem_singleton.mp here]

theorem concreteTarget_hidden (hidden : ownerEntry.isHidden = true) :
    hierarchy.concreteTarget receiver method =
      .error (.noConcreteDispatch receiverEntry.name entry.render) := by
  obtain ⟨found, searched⟩ := acceptedIn?_exists wellFormed named receiverListed
    (receiver :: hierarchy.program.ancestors receiver) fun _ member => member
  have dispatched := concreteTarget_eq receiverListed (Program.isClass_of_extends isClass below)
    named searched
  have finds := acceptedIn?_finds searched
  cases found with
  | none => exact dispatched
  | some target =>
      obtain ⟨declarer, _, member, _, accepted⟩ := finds
      have declarerListed := Program.class?_of_mem_methodsOf member
      obtain ⟨declarerEntry, listed⟩ := declarerListed
      rw [accepts_requested rule, Program.methodVisible_hidden named listed ownerListed hidden]
        at accepted
      cases accepted

omit receiverListed in
variable (hierarchy) in
theorem targetOn_below (declared : method ∈ hierarchy.program.methodsOf entry.owner) :
    Outcome
      (fun group => (ownerEntry.isHidden = true → hierarchy.program.isConcrete receiver = false) ∧
        ∀ target ∈ group, hierarchy.program.Overrides entry target)
      (fun error => ownerEntry.isHidden = true ∧ hierarchy.program.isConcrete receiver = true ∧
        ∃ receiverEntry, hierarchy.program.class? receiver = some receiverEntry ∧
          error = .noConcreteDispatch receiverEntry.name entry.render)
      (hierarchy.targetOn method receiver) := by
  obtain ⟨receiverEntry, receiverListed, _⟩ :=
    (Option.any_eq_true _ _).mp (Program.isClass_of_extends isClass below)
  rw [targetOn_eq method receiverListed]
  cases concrete : hierarchy.program.isConcrete receiver with
  | false => exact ⟨fun _ => rfl, by simp⟩
  | true =>
      cases hidden : ownerEntry.isHidden with
      | true =>
          rw [concreteTarget_hidden wellFormed rule named ownerListed isClass below receiverListed
            hidden]
          exact ⟨rfl, rfl, receiverEntry, receiverListed, rfl⟩
      | false =>
          obtain ⟨target, dispatched, overrides⟩ := concreteTarget_shown wellFormed rule named
            ownerListed isClass below receiverListed declared hidden
          rw [dispatched]
          refine ⟨fun impossible => (by cases impossible), fun other listed => ?_⟩
          exact List.mem_singleton.mp listed ▸ overrides

end Requested

variable {program : Program} {policy : Policy}

theorem abstractTargets_virtual (wellFormed : program.WellFormed)
    (rule : policy.visibility = .requested) {method : MethodId} {entry : MethodEntry}
    {ownerEntry : ClassEntry} (named : program.method? method = some entry)
    (ownerListed : program.class? entry.owner = some ownerEntry)
    (isClass : program.isClass entry.owner = true)
    (declared : method ∈ program.methodsOf entry.owner) :
    Query.Meets (tables program policy).Exact
      ((ofProgram program policy).1.abstractTargets entry.owner method)
      (fun targets => (ownerEntry.isHidden = true →
          ∀ receiver, ReflTransGen program.ExtendsClass entry.owner receiver →
            program.isConcrete receiver = false) ∧
        ∀ target ∈ targets, program.Overrides entry target)
      fun error => ownerEntry.isHidden = true ∧
        ∃ receiver, ReflTransGen program.ExtendsClass entry.owner receiver ∧
          program.isConcrete receiver = true ∧
          ∃ receiverEntry, program.class? receiver = some receiverEntry ∧
            error = .noConcreteDispatch receiverEntry.name entry.render := by
  intro memos held
  have each {receiver : ClassId} (path : ReflTransGen program.ExtendsClass entry.owner receiver) :=
    targetOn_below (ofProgram program policy).1 wellFormed rule named ownerListed isClass path
      declared
  obtain ⟨kept, gathered⟩ :=
    abstractTargets_gathers (Program.bound_of_class isClass) method memos held
  simp only [Program.receives_iff_of_class isClass] at gathered
  refine ⟨kept, ?_⟩
  cases answered : ((ofProgram program policy).1.abstractTargets entry.owner method memos).1 with
  | error error =>
      rw [answered] at gathered
      obtain ⟨receiver, path, failed⟩ := gathered
      have outcome := each path
      rw [failed] at outcome
      exact ⟨outcome.1, receiver, path, outcome.2⟩
  | ok targets =>
      rw [answered] at gathered
      refine ⟨fun hidden receiver path => ?_, fun target member => ?_⟩
      · have outcome := each path
        cases part : (ofProgram program policy).1.targetOn method receiver with
        | error error => exact absurd ⟨receiver, path, part⟩ (gathered.sound error)
        | ok group =>
            rw [part] at outcome
            exact outcome.1 hidden
      · obtain ⟨group, ⟨receiver, path, part⟩, inGroup⟩ := (gathered.complete target).mp member
        have outcome := each path
        rw [part] at outcome
        exact outcome.2 target inGroup

theorem virtual_dispatch_total {classes : List ClassDecl} {detached : List DetachedMethod}
    (loaded : Program.load classes detached = .ok program) (policy : Policy)
    (rule : policy.visibility = .requested) (requests : List Request) {id : ClassId}
    {method : MethodId} (isClass : program.isClass id = true)
    (declared : method ∈ program.methodsOf id) :
    let built := afterHistory program policy requests
    let answer := (built.1.abstractTargets id method built.2).1
    ∃ classEntry entry below,
      program.class? id = some classEntry ∧ program.method? method = some entry ∧
      (built.1.subClassesIncluding id built.2).1 = .ok below ∧
      ((∃ error, answer = .error error) ↔
        classEntry.isHidden = true ∧ ∃ receiver ∈ below, program.isConcrete receiver = true) ∧
      (∀ error, answer = .error error → ∃ receiver ∈ below, ∃ receiverEntry,
        program.class? receiver = some receiverEntry ∧
        error = .noConcreteDispatch receiverEntry.name entry.render) ∧
      ∀ targets, answer = .ok targets → ∀ target ∈ targets, ∃ declarer ∈ below,
        target ∈ program.methodsOf declarer ∧
        program.hasSignature entry.signature target = true := by
  intro built answer
  obtain ⟨entry, named, rfl⟩ := (Program.load_holds loaded).mem_methodsOf.mp declared
  obtain ⟨classEntry, listed⟩ := Program.class?_of_mem_methodsOf declared
  have held := exact_afterHistory program policy requests
  obtain ⟨below, asked, exact⟩ := (subClassesIncluding_exact isClass _ held).2.exists_ok
  have outcome : Outcome _ _ answer := (abstractTargets_virtual (Program.load_wellFormed loaded)
    rule named listed isClass declared _ held).2
  clear_value answer
  refine ⟨classEntry, entry, below, listed, named, asked, ?_⟩
  cases answer with
  | error error =>
      obtain ⟨hidden, receiver, path, concrete, receiverEntry, receiverListed, same⟩ := outcome
      have member := (exact receiver).mpr path
      refine ⟨⟨fun _ => ⟨hidden, receiver, member, concrete⟩, fun _ => ⟨error, rfl⟩⟩, ?_, ?_⟩
      · rintro _ ⟨⟩
        exact ⟨receiver, member, receiverEntry, receiverListed, same⟩
      · rintro targets ⟨⟩
  | ok targets =>
      obtain ⟨unhidden, overrides⟩ := outcome
      refine ⟨⟨fun ⟨_, failed⟩ => (by cases failed), ?_⟩, ?_, ?_⟩
      · rintro ⟨hidden, receiver, member, concrete⟩
        cases concrete.symm.trans (unhidden hidden receiver ((exact receiver).mp member))
      · rintro error ⟨⟩
      · rintro _ ⟨⟩ target member
        obtain ⟨declarer, reached, declares, signature⟩ := overrides target member
        exact ⟨declarer, (exact declarer).mpr reached, declares, signature⟩

def guardedClasses : List ClassDecl :=
  let run : MethodDecl := ⟨⟨"run", []⟩, .publicBit, []⟩
  [⟨"Guarded", some "Open", [], .protectedBit, [run]⟩,
    ⟨"Open", some "Guarded", [], .publicBit, [run]⟩]

def guardedProgram : Program :=
  (Program.load guardedClasses []).toOption.getD .empty

theorem guardedProgram_loaded : Program.load guardedClasses [] = .ok guardedProgram := by
  decide +kernel

theorem virtual_dispatch_total_guarded :
    let built := afterHistory guardedProgram .standard [.subClasses ⟨1⟩]
    (∃ receiver, (built.1.abstractTargets ⟨0⟩ ⟨0⟩ built.2).1 =
      .error (.noConcreteDispatch receiver "Guarded.run()")) ∧
    ∃ targets, (built.1.abstractTargets ⟨1⟩ ⟨1⟩ built.2).1 = .ok targets := by
  intro built
  have held := exact_afterHistory guardedProgram .standard [.subClasses ⟨1⟩]
  constructor
  · have isClass : guardedProgram.isClass ⟨0⟩ = true := by decide +kernel
    have declared : ⟨0⟩ ∈ guardedProgram.methodsOf ⟨0⟩ := by decide +kernel
    obtain ⟨classEntry, entry, below, listed, named, asked, fails, errors, _⟩ :=
      virtual_dispatch_total guardedProgram_loaded .standard rfl [.subClasses ⟨1⟩] isClass declared
    have hidden : (guardedProgram.class? ⟨0⟩).map ClassEntry.isHidden = some true := by
      decide +kernel
    have rendered : (guardedProgram.method? ⟨0⟩).map MethodEntry.render = some "Guarded.run()" := by
      decide +kernel
    rw [listed] at hidden
    rw [named] at rendered
    obtain ⟨found, again, exact⟩ := (subClassesIncluding_exact isClass _ held).2.exists_ok
    cases asked.symm.trans again
    obtain ⟨error, failed⟩ := fails.mpr ⟨Option.some.inj hidden, ⟨0⟩, (exact _).mpr .refl,
      by decide +kernel⟩
    obtain ⟨_, _, receiverEntry, _, same⟩ := errors error failed
    exact ⟨receiverEntry.name, by rw [failed, same, Option.some.inj rendered]⟩
  · have declared : ⟨1⟩ ∈ guardedProgram.methodsOf ⟨1⟩ := by decide +kernel
    obtain ⟨classEntry, entry, below, listed, named, asked, fails, _⟩ :=
      virtual_dispatch_total guardedProgram_loaded .standard rfl [.subClasses ⟨1⟩]
        (by decide +kernel) declared
    have shown : (guardedProgram.class? ⟨1⟩).map ClassEntry.isHidden = some false := by
      decide +kernel
    rw [listed] at shown
    cases answer : (built.1.abstractTargets ⟨1⟩ ⟨1⟩ built.2).1 with
    | ok targets => exact ⟨targets, rfl⟩
    | error error => cases (Option.some.inj shown).symm.trans (fails.mp ⟨error, answer⟩).1

end Hierarchy

end CallResolution

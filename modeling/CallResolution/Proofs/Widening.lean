import CallResolution.Proofs.Ancestry
import CallResolution.Proofs.InheritedDispatch
import CallResolution.Proofs.Mirrors
import Mathlib.Data.List.Forall2
import Mathlib.Order.Monotone.Basic
import Mathlib.Tactic.MkIffOfInductiveProp

/-!
Programs in which classes and methods are made more accessible. Whatever was seen before is seen
after, and a dispatch that had a target still has one. The new target may be another, since a class
that did not see the requested method may now answer for it, but then the climb meets that class
earlier.
-/

namespace CallResolution

namespace Modifiers

def accessBits : Modifiers :=
  publicBit.union (privateBit.union protectedBit)

def withoutAccess (modifiers : Modifiers) : Modifiers :=
  ⟨modifiers.bits &&& ~~~accessBits.bits⟩

/-- How far a method is seen: in its class, its package, its sub-classes too, or everywhere. With
several access bits, public counts before private and private before protected. -/
def methodRank (modifiers : Modifiers) : Nat :=
  if modifiers.isPublic then 3
  else if modifiers.isPrivate then 0
  else if modifiers.isProtected then 2
  else 1

def classRank (modifiers : Modifiers) : Nat :=
  if modifiers.isPublic then 2
  else if modifiers.isProtected || modifiers.isPrivate then 0
  else 1

theorem isInterface_withoutAccess (modifiers : Modifiers) :
    modifiers.withoutAccess.isInterface = modifiers.isInterface := by
  have apart : ~~~accessBits.bits &&& interfaceBit.bits = interfaceBit.bits := by decide
  simp only [isInterface, contains, withoutAccess, BitVec.and_assoc, apart]

end Modifiers

@[mk_iff]
structure ClassEntry.Widens (before after : ClassEntry) : Prop where
  others : after = { before with modifiers := after.modifiers }
  kept : before.modifiers.withoutAccess = after.modifiers.withoutAccess
  rank : before.modifiers.classRank ≤ after.modifiers.classRank

@[mk_iff]
structure MethodEntry.Widens (before after : MethodEntry) : Prop where
  others : after = { before with modifiers := after.modifiers }
  kept : before.modifiers.withoutAccess = after.modifiers.withoutAccess
  rank : before.modifiers.methodRank ≤ after.modifiers.methodRank

instance : DecidableRel ClassEntry.Widens := fun before after =>
  decidable_of_iff' _ (ClassEntry.widens_iff before after)

instance : DecidableRel MethodEntry.Widens := fun before after =>
  decidable_of_iff' _ (MethodEntry.widens_iff before after)

namespace ClassEntry.Widens

variable {before after : ClassEntry} (widens : before.Widens after)

include widens

theorem name : before.name = after.name :=
  (congrArg ClassEntry.name widens.others).symm

theorem superName : before.superName = after.superName :=
  (congrArg ClassEntry.superName widens.others).symm

theorem methods : before.methods = after.methods :=
  (congrArg ClassEntry.methods widens.others).symm

theorem package : before.package = after.package :=
  congrArg packageName widens.name

theorem isInterface : before.isInterface = after.isInterface := by
  rw [ClassEntry.isInterface, ClassEntry.isInterface, ← Modifiers.isInterface_withoutAccess,
    widens.kept, Modifiers.isInterface_withoutAccess]

end ClassEntry.Widens

namespace MethodEntry.Widens

variable {before after : MethodEntry} (widens : before.Widens after)

include widens

theorem owner : before.owner = after.owner :=
  (congrArg MethodEntry.owner widens.others).symm

theorem signature : before.signature = after.signature :=
  (congrArg MethodEntry.signature widens.others).symm

end MethodEntry.Widens

theorem optionRel_some {α β : Type} {relation : α → β → Prop} {value : α} {right : Option β}
    (related : Option.Rel relation (some value) right) :
    ∃ other, right = some other ∧ relation value other := by
  cases related with
  | some head => exact ⟨_, rfl, head⟩

theorem optionRel_any_eq {α β : Type} {relation : α → β → Prop} {test : α → Bool}
    {otherTest : β → Bool} {left : Option α} {right : Option β}
    (related : Option.Rel relation left right)
    (same : ∀ value other, relation value other → test value = otherTest other) :
    left.any test = right.any otherTest := by
  cases related with
  | none => rfl
  | some head => exact same _ _ head

theorem getElem?_rel {α β : Type} {relation : α → β → Prop} {left : Array α} {right : Array β}
    (related : List.Forall₂ relation left.toList right.toList) (index : Nat) :
    Option.Rel relation left[index]? right[index]? := by
  rw [← Array.getElem?_toList, ← Array.getElem?_toList]
  generalize left.toList = items at related
  generalize right.toList = others at related
  induction related generalizing index with
  | nil => exact .none
  | cons head _ ih =>
      cases index with
      | zero => exact .some head
      | succ index => exact ih index

theorem idxOf_le_of_mem_append {α : Type} [DecidableEq α] {earlier later : List α} {item last : α}
    (apart : last ∉ earlier) (member : item ∈ earlier ++ [last]) :
    (earlier ++ last :: later).idxOf item ≤ (earlier ++ last :: later).idxOf last := by
  have ends : (earlier ++ last :: later).idxOf last = earlier.length := by
    simp [List.idxOf_append_of_notMem apart]
  rcases List.mem_append.mp member with before | here
  · rw [ends, List.idxOf_append_of_mem before]
    exact (List.idxOf_lt_length_of_mem before).le
  · rw [List.mem_singleton.mp here]

namespace Program

def AdmitsRank (program : Program) (viewer owner : ClassId) : Nat → Prop
  | 0 => viewer = owner
  | 1 => program.samePackage viewer owner = true
  | 2 => viewer = owner ∨ owner ∈ program.ancestors viewer ∨
      program.samePackage viewer owner = true
  | _ => True

def SeesRank (program : Program) (viewer target : ClassId) : Nat → Prop
  | 0 => False
  | 1 => program.samePackage viewer target = true
  | _ => True

variable {program : Program} {viewer : ClassId}

theorem admits_iff_rank {entry : MethodEntry} : program.admits viewer entry = true ↔
    program.AdmitsRank viewer entry.owner entry.modifiers.methodRank := by
  unfold admits Modifiers.methodRank
  cases entry.modifiers.isPublic <;> cases entry.modifiers.isPrivate <;>
    cases entry.modifiers.isProtected <;> simp [AdmitsRank, or_assoc]

theorem admitsRank_mono (viewer owner : ClassId) : Monotone (program.AdmitsRank viewer owner) := by
  apply monotone_nat_of_le_succ
  intro rank
  match rank with
  | 0 =>
      rintro (rfl : viewer = owner)
      simp [AdmitsRank, samePackage]
  | 1 => exact fun near => .inr (.inr near)
  | 2 => exact fun _ => trivial
  | _ + 3 => exact fun _ => trivial

theorem seesRank_mono (viewer target : ClassId) : Monotone (program.SeesRank viewer target) := by
  apply monotone_nat_of_le_succ
  intro rank
  match rank with
  | 0 => exact False.elim
  | 1 => exact fun _ => trivial
  | _ + 2 => exact fun _ => trivial

theorem classVisible_iff_rank {target : ClassId} {viewerEntry entry : ClassEntry}
    (viewerListed : program.class? viewer = some viewerEntry)
    (listed : program.class? target = some entry) :
    program.classVisible viewer target = .ok true ↔
      program.SeesRank viewer target entry.modifiers.classRank := by
  simp only [classVisible, requireEntry_eq_ok.mpr listed, requireEntry_eq_ok.mpr viewerListed,
    bind, Except.bind, Modifiers.classRank]
  cases entry.modifiers.isPublic <;> cases entry.modifiers.isPrivate <;>
    cases entry.modifiers.isProtected <;> simp [SeesRank, samePackage, listed, viewerListed]

theorem methodVisible_iff {method : MethodId} : program.methodVisible viewer method = .ok true ↔
    ∃ entry, program.method? method = some entry ∧
      program.classVisible viewer entry.owner = .ok true ∧ program.admits viewer entry = true := by
  simp only [methodVisible, bind_eq_ok, requireMethod_eq_ok]
  constructor
  · rintro ⟨entry, named, seen, visible, both⟩
    have joined := Except.ok.inj both
    rw [Bool.and_eq_true] at joined
    exact ⟨entry, named, joined.1 ▸ visible, joined.2⟩
  · rintro ⟨entry, named, visible, admitted⟩
    exact ⟨entry, named, true, visible, by rw [admitted]; rfl⟩

structure Widens (before after : Program) : Prop where
  classes : List.Forall₂ ClassEntry.Widens before.classes.toList after.classes.toList
  methods : List.Forall₂ MethodEntry.Widens before.methods.toList after.methods.toList
  blocks : before.blocks = after.blocks

namespace Widens

variable {before after : Program} (widens : before.Widens after)

include widens

theorem class? (id : ClassId) :
    Option.Rel ClassEntry.Widens (before.class? id) (after.class? id) :=
  getElem?_rel widens.classes id.index

theorem method? (id : MethodId) :
    Option.Rel MethodEntry.Widens (before.method? id) (after.method? id) :=
  getElem?_rel widens.methods id.index

theorem exists_class {id : ClassId} {entry : ClassEntry} (listed : before.class? id = some entry) :
    ∃ wider, after.class? id = some wider ∧ entry.Widens wider :=
  optionRel_some (listed ▸ widens.class? id)

theorem exists_method {id : MethodId} {entry : MethodEntry}
    (named : before.method? id = some entry) :
    ∃ wider, after.method? id = some wider ∧ entry.Widens wider :=
  optionRel_some (named ▸ widens.method? id)

theorem classIds : before.classIds = after.classIds :=
  congrArg (Handle.upTo .classes) widens.classes.length_eq

theorem classId? (name : String) : before.classId? name = after.classId? name := by
  have names : before.classNames = after.classNames :=
    map_eq_of_forall₂ widens.classes fun _ _ wider => wider.name
  rw [classId?_eq, classId?_eq, names]

theorem superOf? : before.superOf? = after.superOf? := by
  funext id
  unfold Program.superOf?
  have related := widens.class? id
  generalize before.class? id = left at related
  generalize after.class? id = right at related
  cases related with
  | none => rfl
  | some wider => simp only [bind, Option.bind, wider.superName, widens.classId?]

theorem ancestors (id : ClassId) : before.ancestors id = after.ancestors id := by
  rw [Program.ancestors, Program.ancestors, widens.superOf?, widens.classIds]

theorem samePackage (left right : ClassId) :
    before.samePackage left right = after.samePackage left right := by
  have packages (id : ClassId) : (before.class? id).map ClassEntry.package =
      (after.class? id).map ClassEntry.package :=
    optionRel_map_eq (widens.class? id) fun _ _ wider => wider.package
  rw [Program.samePackage, Program.samePackage, packages, packages]

theorem methodsOf (id : ClassId) : before.methodsOf id = after.methodsOf id := by
  have listed : (before.class? id).map ClassEntry.methods =
      (after.class? id).map ClassEntry.methods :=
    optionRel_map_eq (widens.class? id) fun _ _ wider => wider.methods
  rw [Program.methodsOf, Program.methodsOf, listed]

theorem isClass (id : ClassId) : before.isClass id = after.isClass id :=
  optionRel_any_eq (widens.class? id) fun _ _ wider => congrArg (!·) wider.isInterface

theorem hasSignature (signature : Signature) (id : MethodId) :
    before.hasSignature signature id = after.hasSignature signature id :=
  optionRel_any_eq (widens.method? id) fun _ _ wider => congrArg (· == signature) wider.signature

theorem classVisible {viewer target : ClassId}
    (visible : before.classVisible viewer target = .ok true) :
    after.classVisible viewer target = .ok true := by
  obtain ⟨entry, required, rest⟩ := bind_eq_ok.mp visible
  obtain ⟨viewerEntry, viewerRequired, _⟩ := bind_eq_ok.mp rest
  have listed := requireEntry_eq_ok.mp required
  have viewerListed := requireEntry_eq_ok.mp viewerRequired
  obtain ⟨wider, widerListed, widened⟩ := widens.exists_class listed
  obtain ⟨_, viewerWiderListed, _⟩ := widens.exists_class viewerListed
  have seen := (classVisible_iff_rank viewerListed listed).mp visible
  have same (rank : Nat) : before.SeesRank viewer target rank ↔
      after.SeesRank viewer target rank := by
    unfold SeesRank
    rw [widens.samePackage]
  exact (classVisible_iff_rank viewerWiderListed widerListed).mpr
    (seesRank_mono viewer target widened.rank ((same _).mp seen))

theorem admits {viewer : ClassId} {entry wider : MethodEntry} (method : entry.Widens wider)
    (admitted : before.admits viewer entry = true) : after.admits viewer wider = true := by
  have same (rank : Nat) : before.AdmitsRank viewer entry.owner rank ↔
      after.AdmitsRank viewer wider.owner rank := by
    unfold AdmitsRank
    rw [widens.samePackage, widens.ancestors, method.owner]
  exact admits_iff_rank.mpr
    (admitsRank_mono viewer wider.owner method.rank ((same _).mp (admits_iff_rank.mp admitted)))

theorem methodVisible {viewer : ClassId} {method : MethodId}
    (visible : before.methodVisible viewer method = .ok true) :
    after.methodVisible viewer method = .ok true := by
  obtain ⟨entry, named, seen, admitted⟩ := methodVisible_iff.mp visible
  obtain ⟨wider, widerNamed, method⟩ := widens.exists_method named
  have widerSeen : after.classVisible viewer wider.owner = .ok true :=
    method.owner ▸ widens.classVisible seen
  exact methodVisible_iff.mpr ⟨wider, widerNamed, widerSeen, widens.admits method admitted⟩

theorem answers {id : ClassId} {method : MethodId} {signature : Signature} {target : MethodId}
    (answers : before.Answers id method signature target) :
    after.Answers id method signature target := by
  obtain ⟨member, signed, visible⟩ := answers
  exact ⟨widens.methodsOf id ▸ member, widens.hasSignature signature target ▸ signed,
    widens.methodVisible visible⟩

end Widens

end Program

namespace Hierarchy

section Widened

variable {hierarchy wider : Hierarchy} (widens : hierarchy.program.Widens wider.program)
  (rule : hierarchy.policy.visibility = .requested)
  (widerRule : wider.policy.visibility = .requested) (wellFormed : wider.program.WellFormed)
  {receiver declarer : ClassId} {method target : MethodId} {entry : MethodEntry}

include widerRule wellFormed

theorem acceptedIn?_until {classes : List ClassId} {receiverEntry : ClassEntry}
    (listed : wider.program.class? receiver = some receiverEntry)
    (named : wider.program.method? method = some entry)
    (climbed : ∀ id ∈ classes, id ∈ receiver :: wider.program.ancestors receiver)
    (member : declarer ∈ classes)
    (answers : wider.program.Answers declarer method entry.signature target) :
    ∃ other, wider.acceptedIn? receiver method entry.signature classes = .ok (some other) ∧
      ∃ otherDeclarer ∈ classes, other ∈ wider.program.methodsOf otherDeclarer := by
  obtain ⟨found, searched⟩ := acceptedIn?_exists wellFormed named listed classes climbed
  have finds := acceptedIn?_finds searched
  simp only [accepts_iff_answers widerRule] at finds
  cases found with
  | none => exact absurd ⟨declarer, member, answers⟩ (finds target)
  | some other =>
      obtain ⟨otherDeclarer, otherMember, accepted⟩ := finds
      exact ⟨other, searched, otherDeclarer, otherMember, accepted.1⟩

include widens rule

theorem concreteTarget_widens
    (dispatched : hierarchy.concreteTarget receiver method = .ok target) :
    ∃ other declarer otherDeclarer, wider.concreteTarget receiver method = .ok other ∧
      target ∈ hierarchy.program.methodsOf declarer ∧
      other ∈ wider.program.methodsOf otherDeclarer ∧
      declarer ∈ receiver :: hierarchy.program.ancestors receiver ∧
      otherDeclarer ∈ receiver :: hierarchy.program.ancestors receiver ∧
      (receiver :: hierarchy.program.ancestors receiver).idxOf otherDeclarer ≤
        (receiver :: hierarchy.program.ancestors receiver).idxOf declarer := by
  obtain ⟨entry, named, declarer, member, accepted⟩ := concreteTarget_ok dispatched
  obtain ⟨receiverEntry, required, _⟩ := bind_eq_ok.mp dispatched
  have isClass := Program.isClass_of_requireClass required
  rw [widens.isClass] at isClass
  obtain ⟨widerReceiver, widerListed, _⟩ := (Option.any_eq_true _ _).mp isClass
  obtain ⟨widerEntry, widerNamed, method⟩ := widens.exists_method named
  have answers := widens.answers ((accepts_iff_answers rule).mp accepted)
  rw [method.signature] at answers
  -- The search of the wider program ends at the old declarer or before it.
  obtain ⟨earlier, later, split, apart⟩ := List.eq_append_cons_of_mem member
  have joined : receiver :: hierarchy.program.ancestors receiver =
      (earlier ++ [declarer]) ++ later := by simp [split]
  obtain ⟨other, searched, otherDeclarer, otherMember, otherListed⟩ :=
    acceptedIn?_until widerRule wellFormed widerListed widerNamed
      (fun id among => by
        rw [← widens.ancestors, joined]
        exact List.mem_append_left _ among)
      (List.mem_append_right earlier (List.mem_singleton_self declarer)) answers
  have whole := acceptedIn?_append_some searched later
  rw [← joined, widens.ancestors] at whole
  refine ⟨other, declarer, otherDeclarer,
    concreteTarget_eq widerListed isClass widerNamed whole, accepted.1, otherListed, member, ?_, ?_⟩
  · rw [joined]
    exact List.mem_append_left _ otherMember
  · rw [split]
    exact idxOf_le_of_mem_append apart otherMember

end Widened

/-- Where classes and methods become more accessible, whatever was seen and dispatched before still
is. A new target is declared at the same place of the climb or at an earlier one. -/
theorem widening_keeps_dispatch {before after : Program} {classes otherClasses : List ClassDecl}
    {detached otherDetached : List DetachedMethod}
    (loaded : Program.load classes detached = .ok before)
    (otherLoaded : Program.load otherClasses otherDetached = .ok after)
    (widens : before.Widens after) (method : MethodId) :
    (∀ viewer, before.methodVisible viewer method = .ok true →
      after.methodVisible viewer method = .ok true) ∧
    ∀ policy : Policy, policy.visibility = .requested → ∀ receiver target,
      (ofProgram before policy).1.concreteTarget receiver method = .ok target →
      ∃ other entry otherEntry climbed,
        (ofProgram after policy).1.concreteTarget receiver method = .ok other ∧
        before.method? target = some entry ∧ after.method? other = some otherEntry ∧
        (ofProgram before policy).1.superClassesIncluding receiver = .ok climbed ∧
        (ofProgram after policy).1.superClassesIncluding receiver = .ok climbed ∧
        entry.owner ∈ climbed ∧ otherEntry.owner ∈ climbed ∧
        climbed.idxOf otherEntry.owner ≤ climbed.idxOf entry.owner := by
  refine ⟨fun viewer => widens.methodVisible, fun policy rule receiver target dispatched => ?_⟩
  obtain ⟨receiverEntry, required, _⟩ := bind_eq_ok.mp dispatched
  have isClass := Program.isClass_of_requireClass required
  have otherIsClass : after.isClass receiver = true := (widens.isClass receiver).symm.trans isClass
  have wellFormed : (ofProgram after policy).1.program.WellFormed :=
    Program.load_wellFormed otherLoaded
  obtain ⟨other, declarer, otherDeclarer, otherDispatched, listed, otherListed, places⟩ :=
    concreteTarget_widens widens rule rule wellFormed dispatched
  obtain ⟨entry, named, rfl⟩ := (Program.load_holds loaded).mem_methodsOf.mp listed
  obtain ⟨otherEntry, otherNamed, rfl⟩ := (Program.load_holds otherLoaded).mem_methodsOf.mp otherListed
  have climbed : (ofProgram after policy).1.superClassesIncluding receiver =
      .ok (receiver :: before.ancestors receiver) := by
    rw [widens.ancestors]
    exact superClassesIncluding_eq otherIsClass
  exact ⟨other, entry, otherEntry, _, otherDispatched, named, otherNamed,
    superClassesIncluding_eq isClass, climbed, places⟩

def packagedClasses (classAccess methodAccess : Modifiers) : List ClassDecl :=
  [⟨"p.Base", none, [], classAccess, [⟨⟨"run", []⟩, methodAccess, []⟩]⟩,
    ⟨"q.Child", some "p.Base", [], .publicBit, [⟨⟨"run", []⟩, .publicBit, []⟩]⟩,
    ⟨"q.Leaf", some "q.Child", [], .publicBit, []⟩]

def packagedProgram (classAccess methodAccess : Modifiers) : Program :=
  (Program.load (packagedClasses classAccess methodAccess) []).toOption.getD .empty

theorem widening_keeps_dispatch_packaged :
    let before := packagedProgram .empty (.union .privateBit .protectedBit)
    let after := packagedProgram .publicBit (.union .publicBit .privateBit)
    before.Widens after ∧ before.methodVisible ⟨0⟩ ⟨0⟩ = .ok true ∧
    after.methodVisible ⟨0⟩ ⟨0⟩ = .ok true ∧
    (ofProgram before .standard).1.concreteTarget ⟨2⟩ ⟨0⟩ = .ok ⟨0⟩ ∧
    (ofProgram after .standard).1.concreteTarget ⟨2⟩ ⟨0⟩ = .ok ⟨1⟩ ∧
    ∃ otherEntry, after.method? ⟨1⟩ = some otherEntry ∧
      List.idxOf otherEntry.owner [⟨2⟩, ⟨1⟩, ⟨0⟩] ≤ 2 := by
  intro before after
  have loaded : Program.load (packagedClasses .empty (.union .privateBit .protectedBit)) [] =
      .ok before := by decide +kernel
  have otherLoaded : Program.load (packagedClasses .publicBit (.union .publicBit .privateBit)) [] =
      .ok after := by decide +kernel
  have widens : before.Widens after := ⟨by decide +kernel, by decide +kernel, by decide +kernel⟩
  have visible : before.methodVisible ⟨0⟩ ⟨0⟩ = .ok true := by decide +kernel
  have climbed : (ofProgram before .standard).1.superClassesIncluding ⟨2⟩ =
      .ok [⟨2⟩, ⟨1⟩, ⟨0⟩] := by
    have supers : before.superOf? ⟨0⟩ = none ∧ before.superOf? ⟨1⟩ = some ⟨0⟩ ∧
        before.superOf? ⟨2⟩ = some ⟨1⟩ := by decide +kernel
    have ids : before.classIds = [⟨0⟩, ⟨1⟩, ⟨2⟩] := by decide +kernel
    have above : before.ancestors ⟨2⟩ = [⟨1⟩, ⟨0⟩] := by
      simp [Program.ancestors, Search.climb, Search.without, supers, ids]
    rw [← above]
    exact superClassesIncluding_eq (by decide +kernel)
  have dispatched : (ofProgram before .standard).1.concreteTarget ⟨2⟩ ⟨0⟩ = .ok ⟨0⟩ := by
    rw [concreteTarget, climbed]
    decide +kernel
  obtain ⟨seen, dispatch⟩ := widening_keeps_dispatch loaded otherLoaded widens ⟨0⟩
  obtain ⟨other, entry, otherEntry, classes, otherDispatched, named, otherNamed, again,
    otherClimbed, _, _, places⟩ := dispatch .standard rfl ⟨2⟩ ⟨0⟩ dispatched
  cases climbed.symm.trans again
  have owned : before.method? ⟨0⟩ = some ⟨⟨0⟩, "p.Base", ⟨"run", []⟩,
      .union .privateBit .protectedBit, []⟩ := by decide +kernel
  cases owned.symm.trans named
  have overridden : (ofProgram after .standard).1.concreteTarget ⟨2⟩ ⟨0⟩ = .ok ⟨1⟩ := by
    rw [concreteTarget, otherClimbed]
    decide +kernel
  cases overridden.symm.trans otherDispatched
  exact ⟨widens, visible, seen ⟨0⟩ visible, dispatched, overridden, otherEntry, otherNamed, places⟩

end Hierarchy

end CallResolution

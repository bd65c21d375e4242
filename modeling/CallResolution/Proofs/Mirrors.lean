import CallResolution.Proofs.Integrity
import CallResolution.Proofs.Lookup

/-!
Programs that differ in their handles only. Seen by names they have the same classes with the
same methods in the same order. Questions about one class or one method have the same answer in
both, whatever handles they give to it.
-/

namespace CallResolution

def Agree {ε α β : Type} (relation : α → β → Prop) : Except ε α → Except ε β → Prop
  | .ok value, .ok other => relation value other
  | .error error, .error other => error = other
  | _, _ => False

namespace Agree

variable {ε α β γ δ : Type} {relation : α → β → Prop}

theorem bind {result : γ → δ → Prop} {left : Except ε α} {right : Except ε β}
    {next : α → Except ε γ} {otherNext : β → Except ε δ} (agree : Agree relation left right)
    (each : ∀ value other, relation value other → Agree result (next value) (otherNext other)) :
    Agree result (left >>= next) (right >>= otherNext) := by
  cases left with
  | error error =>
      cases right with
      | error other => exact agree
      | ok other => cases agree
  | ok value =>
      cases right with
      | error other => cases agree
      | ok other => exact each value other agree

theorem eq {left right : Except ε α} (agree : Agree Eq left right) : left = right := by
  cases left with
  | error error =>
      cases right with
      | error other => exact congrArg Except.error agree
      | ok other => cases agree
  | ok value =>
      cases right with
      | error other => cases agree
      | ok other => exact congrArg Except.ok agree

theorem map_eq {view : α → γ} {otherView : β → γ} {left : Except ε α} {right : Except ε β}
    (agree : Agree relation left right)
    (same : ∀ value other, relation value other → view value = otherView other) :
    left.map view = right.map otherView := by
  refine Agree.eq ?_
  cases left with
  | error error =>
      cases right with
      | error other => exact agree
      | ok other => cases agree
  | ok value =>
      cases right with
      | error other => cases agree
      | ok other => exact same value other agree

end Agree

theorem optionRel_of {α β : Type} {relation : α → β → Prop} {left : Option α} {right : Option β}
    (forth : ∀ value, left = some value → ∃ other, right = some other ∧ relation value other)
    (back : ∀ other, right = some other → left ≠ none) : Option.Rel relation left right := by
  cases left with
  | some value =>
      obtain ⟨other, rfl, related⟩ := forth value rfl
      exact .some related
  | none =>
      cases right with
      | none => exact .none
      | some other => exact absurd rfl (back other rfl)

theorem optionRel_map_eq {α β γ : Type} {relation : α → β → Prop} {view : α → γ}
    {otherView : β → γ} {left : Option α} {right : Option β}
    (related : Option.Rel relation left right)
    (views : ∀ value other, relation value other → view value = otherView other) :
    left.map view = right.map otherView := by
  cases related with
  | none => rfl
  | some head => exact congrArg some (views _ _ head)

section Lists

variable {α β : Type} {relation : α → β → Prop} {items : List α} {others : List β}

theorem map_eq_of_forall₂ {γ : Type} {view : α → γ} {otherView : β → γ}
    (related : List.Forall₂ relation items others)
    (views : ∀ item other, relation item other → view item = otherView other) :
    items.map view = others.map otherView := by
  rw [← List.forall₂_eq_eq_eq, List.forall₂_map_left_iff, List.forall₂_map_right_iff]
  exact related.imp views

theorem find?_rel {test : α → Bool} {otherTest : β → Bool}
    (related : List.Forall₂ relation items others)
    (same : ∀ item other, relation item other → test item = otherTest other) :
    Option.Rel relation (items.find? test) (others.find? otherTest) := by
  induction related with
  | nil => exact .none
  | cons head _ ih =>
      rw [List.find?_cons, List.find?_cons, same _ _ head]
      split
      · exact .some head
      · exact ih

theorem contains_eq [DecidableEq α] [DecidableEq β] {item : α} {other : β}
    (related : List.Forall₂ relation items others)
    (same : ∀ left right, relation left right → (item = left ↔ other = right)) :
    items.contains item = others.contains other := by
  induction related with
  | nil => rfl
  | cons head _ ih =>
      rw [List.contains_cons, List.contains_cons, ih, Bool.beq_eq_decide_eq, Bool.beq_eq_decide_eq,
        decide_eq_decide.mpr (same _ _ head)]

end Lists

namespace Search

variable {α β : Type} [DecidableEq α] [DecidableEq β] {relation : α → β → Prop}
  {next : α → Option α} {otherNext : β → Option β}

theorem climb_rel
    (steps : ∀ node other, relation node other → Option.Rel relation (next node) (otherNext other))
    (paired : ∀ {node other again otherAgain}, relation node other → relation again otherAgain →
      (node = again ↔ other = otherAgain))
    {node : α} {other : β} {unvisited : List α} {otherUnvisited : List β}
    (related : relation node other)
    (ahead : ∀ left right, relation left right → (left ∈ unvisited ↔ right ∈ otherUnvisited)) :
    List.Forall₂ relation (climb next node unvisited) (climb otherNext other otherUnvisited) := by
  fun_induction climb next node unvisited generalizing other otherUnvisited with
  | case1 node unvisited ends =>
      have step := steps node other related
      rw [ends] at step
      rw [climb.eq_def otherNext]
      generalize otherNext other = found at step
      cases step
      exact .nil
  | case2 node unvisited above climbed member ih =>
      have step := steps node other related
      rw [climbed] at step
      rw [climb.eq_def otherNext]
      generalize otherNext other = found at step
      cases step with
      | some head =>
          rename_i otherAbove
          dsimp only
          rw [if_pos ((ahead _ _ head).mp member)]
          refine .cons head (ih head fun left right same => ?_)
          simp only [mem_without, List.mem_singleton, ahead left right same, paired same head]
  | case3 node unvisited above climbed visited =>
      have step := steps node other related
      rw [climbed] at step
      rw [climb.eq_def otherNext]
      generalize otherNext other = found at step
      cases step with
      | some head =>
          dsimp only
          rw [if_neg fun member => visited ((ahead _ _ head).mpr member)]
          exact .nil

end Search

namespace Program

def source? (program : Program) (id : MethodId) : Option DetachedMethod :=
  (program.method? id).map program.sourceOf

/-- What a class name stands for: a heading, and the methods of the class in order. -/
def outline? (program : Program) (name : String) :
    Option (ClassDecl × List (Option DetachedMethod)) := do
  let id ← program.classId? name
  let entry ← program.class? id
  some (entry.heading, entry.methods.map program.source?)

/-- The programs differ in handles only. -/
structure Mirrors (left right : Program) : Prop where
  integral : left.Integral
  otherIntegral : right.Integral
  outlines : ∀ name, left.outline? name = right.outline? name

def SameClass (left right : Program) (id other : ClassId) : Prop :=
  ∃ name, left.classId? name = some id ∧ right.classId? name = some other

def SameMethod (left right : Program) (method other : MethodId) : Prop :=
  ∃ className signature, left.findMethod? className signature = some method ∧
    right.findMethod? className signature = some other

structure SameEntry (left right : Program) (entry other : ClassEntry) : Prop where
  name : entry.name = other.name
  superName : entry.superName = other.superName
  interfaces : entry.interfaces = other.interfaces
  modifiers : entry.modifiers = other.modifiers
  methods : List.Forall₂ (SameMethod left right) entry.methods other.methods

structure SameMethodEntry (left right : Program) (entry other : MethodEntry) : Prop where
  owner : SameClass left right entry.owner other.owner
  source : left.sourceOf entry = right.sourceOf other

variable {left right : Program}

theorem SameClass.paired {id other again otherAgain : ClassId}
    (same : SameClass left right id other) (sameAgain : SameClass left right again otherAgain) :
    id = again ↔ other = otherAgain := by
  obtain ⟨name, found, otherFound⟩ := same
  obtain ⟨named, foundAgain, otherFoundAgain⟩ := sameAgain
  constructor
  · rintro rfl
    cases classId?_injective found foundAgain
    exact Option.some.inj (otherFound.symm.trans otherFoundAgain)
  · rintro rfl
    cases classId?_injective otherFound otherFoundAgain
    exact Option.some.inj (found.symm.trans foundAgain)

theorem SameClass.symm {id other : ClassId} (same : SameClass left right id other) :
    SameClass right left other id := by
  obtain ⟨name, found, otherFound⟩ := same
  exact ⟨name, otherFound, found⟩

theorem SameClass.classId? {id other : ClassId} (same : SameClass left right id other)
    {name : String} (found : left.classId? name = some id) :
    right.classId? name = some other := by
  obtain ⟨_, named, otherNamed⟩ := same
  cases classId?_injective found named
  exact otherNamed

theorem SameMethod.symm {method other : MethodId} (same : SameMethod left right method other) :
    SameMethod right left other method := by
  obtain ⟨className, signature, found, otherFound⟩ := same
  exact ⟨className, signature, otherFound, found⟩

theorem SameMethod.eq {program : Program} {method other : MethodId}
    (same : SameMethod program program method other) : method = other := by
  obtain ⟨className, signature, found, foundAgain⟩ := same
  exact Option.some.inj (found.symm.trans foundAgain)

theorem SameEntry.isInterface {entry other : ClassEntry}
    (same : SameEntry left right entry other) : entry.isInterface = other.isInterface :=
  congrArg Modifiers.isInterface same.modifiers

theorem SameEntry.isAbstract {entry other : ClassEntry}
    (same : SameEntry left right entry other) : entry.isAbstract = other.isAbstract :=
  congrArg Modifiers.isAbstract same.modifiers

theorem SameEntry.package {entry other : ClassEntry}
    (same : SameEntry left right entry other) : entry.package = other.package :=
  congrArg packageName same.name

theorem SameMethodEntry.className {entry other : MethodEntry}
    (same : SameMethodEntry left right entry other) : entry.className = other.className :=
  congrArg DetachedMethod.className same.source

theorem SameMethodEntry.signature {entry other : MethodEntry}
    (same : SameMethodEntry left right entry other) : entry.signature = other.signature :=
  congrArg (fun source => source.method.signature) same.source

theorem SameMethodEntry.modifiers {entry other : MethodEntry}
    (same : SameMethodEntry left right entry other) : entry.modifiers = other.modifiers :=
  congrArg (fun source => source.method.modifiers) same.source

theorem outline?_of_classId? {program : Program} {name : String} {id : ClassId}
    {entry : ClassEntry} (found : program.classId? name = some id)
    (listed : program.class? id = some entry) :
    program.outline? name = some (entry.heading, entry.methods.map program.source?) := by
  simp [outline?, found, listed]

namespace Integral

variable {program : Program} (integral : program.Integral)

include integral

theorem classId?_owner {method : MethodId} {entry : MethodEntry}
    (found : program.method? method = some entry) :
    program.classId? entry.className = some entry.owner := by
  obtain ⟨classEntry, listed, _, name⟩ := integral.owners method entry found
  exact (integral.classIds _ _).mpr ⟨classEntry, listed, name.symm⟩

theorem findMethod?_entry {method : MethodId} {entry : MethodEntry}
    (found : program.method? method = some entry) :
    program.findMethod? entry.className entry.signature = some method :=
  (integral.identities _ _ _).mpr ⟨entry, found, rfl, rfl⟩

theorem findMethod?_source {method : MethodId} {source : DetachedMethod}
    (found : program.source? method = some source) :
    program.findMethod? source.className source.method.signature = some method := by
  obtain ⟨entry, listed, rfl⟩ := Option.map_eq_some_iff.mp found
  exact integral.findMethod?_entry listed

end Integral

namespace Mirrors

theorem symm (mirrors : left.Mirrors right) : right.Mirrors left :=
  ⟨mirrors.otherIntegral, mirrors.integral, fun name => (mirrors.outlines name).symm⟩

theorem refl {program : Program} (integral : program.Integral) : program.Mirrors program :=
  ⟨integral, integral, fun _ => rfl⟩

variable (mirrors : left.Mirrors right)

include mirrors

theorem exists_class {name : String} {id : ClassId} (found : left.classId? name = some id) :
    ∃ other, right.classId? name = some other := by
  obtain ⟨entry, listed, _⟩ := class?_of_classId? found
  have outline := outline?_of_classId? found listed
  rw [mirrors.outlines] at outline
  obtain ⟨other, otherFound, _⟩ := Option.bind_eq_some_iff.mp outline
  exact ⟨other, otherFound⟩

theorem classId?_rel (name : String) :
    Option.Rel (SameClass left right) (left.classId? name) (right.classId? name) := by
  refine optionRel_of (fun id found => ?_) fun other otherFound absent => ?_
  · obtain ⟨other, otherFound⟩ := mirrors.exists_class found
    exact ⟨other, otherFound, name, found, otherFound⟩
  · obtain ⟨id, found⟩ := mirrors.symm.exists_class otherFound
    cases absent.symm.trans found

theorem entries {id other : ClassId} (same : SameClass left right id other) :
    ∃ entry otherEntry, left.class? id = some entry ∧ right.class? other = some otherEntry ∧
      entry.heading = otherEntry.heading ∧
      List.Forall₂ (fun method again => left.source? method = right.source? again)
        entry.methods otherEntry.methods := by
  obtain ⟨name, found, otherFound⟩ := same
  obtain ⟨entry, listed, _⟩ := class?_of_classId? found
  obtain ⟨otherEntry, otherListed, _⟩ := class?_of_classId? otherFound
  have outlines := mirrors.outlines name
  rw [outline?_of_classId? found listed, outline?_of_classId? otherFound otherListed] at outlines
  obtain ⟨heading, methods⟩ := Prod.mk.inj (Option.some.inj outlines)
  refine ⟨entry, otherEntry, listed, otherListed, heading, ?_⟩
  rw [← List.forall₂_eq_eq_eq, List.forall₂_map_left_iff, List.forall₂_map_right_iff] at methods
  exact methods

theorem sameMethod_of_source {method other : MethodId} {source : DetachedMethod}
    (found : left.source? method = some source) (otherFound : right.source? other = some source) :
    SameMethod left right method other :=
  ⟨source.className, source.method.signature, mirrors.integral.findMethod?_source found,
    mirrors.otherIntegral.findMethod?_source otherFound⟩

theorem exists_source {method : MethodId} {entry : MethodEntry}
    (found : left.method? method = some entry) :
    ∃ other, right.source? other = some (left.sourceOf entry) := by
  have named := mirrors.integral.classId?_owner found
  obtain ⟨other, otherNamed⟩ := mirrors.exists_class named
  obtain ⟨classEntry, otherEntry, listed, _, _, methods⟩ :=
    mirrors.entries ⟨entry.className, named, otherNamed⟩
  have member : method ∈ classEntry.methods :=
    ((mirrors.integral.methods _ _ listed).2 method).mpr ⟨entry, found, rfl⟩
  obtain ⟨again, _, same⟩ := mem_of_forall₂ methods.flip member
  have source : left.source? method = some (left.sourceOf entry) := by simp [source?, found]
  exact ⟨again, same.symm.trans source⟩

theorem exists_method {method : MethodId} {entry : MethodEntry}
    (found : left.method? method = some entry) :
    ∃ other, right.findMethod? entry.className entry.signature = some other := by
  obtain ⟨other, sourced⟩ := mirrors.exists_source found
  exact ⟨other, mirrors.otherIntegral.findMethod?_source sourced⟩

theorem methodEntries {method other : MethodId} (same : SameMethod left right method other) :
    ∃ entry otherEntry, left.method? method = some entry ∧ right.method? other = some otherEntry ∧
      SameMethodEntry left right entry otherEntry := by
  obtain ⟨className, signature, found, otherFound⟩ := same
  obtain ⟨entry, listed, rfl, rfl⟩ := (mirrors.integral.identities _ _ _).mp found
  obtain ⟨again, sourced⟩ := mirrors.exists_source listed
  cases otherFound.symm.trans (mirrors.otherIntegral.findMethod?_source sourced)
  obtain ⟨otherEntry, otherListed, source⟩ := Option.map_eq_some_iff.mp sourced
  have name : otherEntry.className = entry.className := congrArg DetachedMethod.className source
  refine ⟨entry, otherEntry, listed, otherListed, ?_, source.symm⟩
  exact ⟨entry.className, mirrors.integral.classId?_owner listed,
    name ▸ mirrors.otherIntegral.classId?_owner otherListed⟩

theorem classEntries {id other : ClassId} (same : SameClass left right id other) :
    ∃ entry otherEntry, left.class? id = some entry ∧ right.class? other = some otherEntry ∧
      SameEntry left right entry otherEntry := by
  obtain ⟨entry, otherEntry, listed, otherListed, heading, methods⟩ := mirrors.entries same
  simp only [ClassEntry.heading, ClassDecl.mk.injEq] at heading
  obtain ⟨name, superName, interfaces, modifiers, _⟩ := heading
  refine ⟨entry, otherEntry, listed, otherListed, name, superName, interfaces, modifiers, ?_⟩
  refine List.forall₂_iff_get.mpr ⟨methods.length_eq, fun position bound otherBound => ?_⟩
  have source := methods.get bound otherBound
  have member : entry.methods.get ⟨position, bound⟩ ∈ entry.methods := List.get_mem _ _
  obtain ⟨methodEntry, found, _⟩ := ((mirrors.integral.methods _ _ listed).2 _).mp member
  have sourced : left.source? (entry.methods.get ⟨position, bound⟩) =
      some (left.sourceOf methodEntry) := by simp only [source?, found, Option.map_some]
  exact mirrors.sameMethod_of_source sourced (source.symm.trans sourced)

theorem findMethod?_rel (className : String) (signature : Signature) :
    Option.Rel (SameMethod left right) (left.findMethod? className signature)
      (right.findMethod? className signature) := by
  refine optionRel_of (fun method found => ?_) fun other otherFound absent => ?_
  · obtain ⟨entry, listed, rfl, rfl⟩ := (mirrors.integral.identities _ _ _).mp found
    obtain ⟨other, otherFound⟩ := mirrors.exists_method listed
    exact ⟨other, otherFound, _, _, found, otherFound⟩
  · obtain ⟨entry, listed, rfl, rfl⟩ := (mirrors.otherIntegral.identities _ _ _).mp otherFound
    obtain ⟨method, found⟩ := mirrors.symm.exists_method listed
    cases absent.symm.trans found

theorem paired {method other again otherAgain : MethodId}
    (same : SameMethod left right method other)
    (sameAgain : SameMethod left right again otherAgain) :
    method = again ↔ other = otherAgain := by
  obtain ⟨className, signature, found, otherFound⟩ := same
  obtain ⟨name, signed, foundAgain, otherFoundAgain⟩ := sameAgain
  constructor
  · rintro rfl
    obtain ⟨entry, listed, rfl, rfl⟩ := (mirrors.integral.identities _ _ _).mp found
    obtain ⟨_, listedAgain, rfl, rfl⟩ := (mirrors.integral.identities _ _ _).mp foundAgain
    cases listed.symm.trans listedAgain
    exact Option.some.inj (otherFound.symm.trans otherFoundAgain)
  · rintro rfl
    obtain ⟨entry, listed, rfl, rfl⟩ := (mirrors.otherIntegral.identities _ _ _).mp otherFound
    obtain ⟨_, listedAgain, rfl, rfl⟩ :=
      (mirrors.otherIntegral.identities _ _ _).mp otherFoundAgain
    cases listed.symm.trans listedAgain
    exact Option.some.inj (found.symm.trans foundAgain)

theorem superOf?_rel {id other : ClassId} (same : SameClass left right id other) :
    Option.Rel (SameClass left right) (left.superOf? id) (right.superOf? other) := by
  obtain ⟨entry, otherEntry, listed, otherListed, entries⟩ := mirrors.classEntries same
  simp only [superOf?, listed, otherListed, entries.superName, Option.bind_eq_bind,
    Option.bind_some]
  cases otherEntry.superName with
  | none => exact .none
  | some name => exact mirrors.classId?_rel name

theorem ancestors_rel {id other : ClassId} (same : SameClass left right id other) :
    List.Forall₂ (SameClass left right) (left.ancestors id) (right.ancestors other) := by
  refine Search.climb_rel (fun _ _ => mirrors.superOf?_rel) SameClass.paired same
    fun here there related => ?_
  obtain ⟨name, found, otherFound⟩ := related
  have bound : here ∈ left.classIds := Handle.mem_upTo.mpr (classId?_bound found)
  have otherBound : there ∈ right.classIds := Handle.mem_upTo.mpr (classId?_bound otherFound)
  simp only [Search.mem_without, List.mem_singleton, bound, otherBound, true_and,
    SameClass.paired ⟨name, found, otherFound⟩ same]

theorem requireEntry_agree {id other : ClassId} (same : SameClass left right id other) :
    Agree (SameEntry left right) (left.requireEntry id) (right.requireEntry other) := by
  obtain ⟨entry, otherEntry, listed, otherListed, entries⟩ := mirrors.classEntries same
  rw [requireEntry_eq_ok.mpr listed, requireEntry_eq_ok.mpr otherListed]
  exact entries

theorem requireMethod_agree {method other : MethodId} (same : SameMethod left right method other) :
    Agree (SameMethodEntry left right) (left.requireMethod method) (right.requireMethod other) := by
  obtain ⟨entry, otherEntry, listed, otherListed, entries⟩ := mirrors.methodEntries same
  rw [requireMethod_eq_ok.mpr listed, requireMethod_eq_ok.mpr otherListed]
  exact entries

theorem requireClass_agree {id other : ClassId} (same : SameClass left right id other) :
    Agree (SameEntry left right) (left.requireClass id) (right.requireClass other) := by
  refine (mirrors.requireEntry_agree same).bind fun entry otherEntry entries => ?_
  rw [entries.isInterface, entries.name]
  split
  · exact rfl
  · exact entries

theorem requireInterface_agree {id other : ClassId} (same : SameClass left right id other) :
    Agree (SameEntry left right) (left.requireInterface id) (right.requireInterface other) := by
  refine (mirrors.requireEntry_agree same).bind fun entry otherEntry entries => ?_
  rw [entries.isInterface, entries.name]
  split
  · exact entries
  · exact rfl

theorem classVisible_agree {viewer otherViewer target otherTarget : ClassId}
    (viewers : SameClass left right viewer otherViewer)
    (targets : SameClass left right target otherTarget) :
    Agree Eq (left.classVisible viewer target) (right.classVisible otherViewer otherTarget) := by
  refine (mirrors.requireEntry_agree targets).bind fun _ _ targetEntries => ?_
  refine (mirrors.requireEntry_agree viewers).bind fun _ _ viewerEntries => ?_
  rw [targetEntries.modifiers, targetEntries.package, viewerEntries.package]
  split
  · exact rfl
  · split <;> exact rfl

theorem samePackage_eq {id other again otherAgain : ClassId}
    (same : SameClass left right id other) (sameAgain : SameClass left right again otherAgain) :
    left.samePackage id again = right.samePackage other otherAgain := by
  obtain ⟨entry, otherEntry, listed, otherListed, entries⟩ := mirrors.classEntries same
  obtain ⟨second, otherSecond, secondListed, otherSecondListed, seconds⟩ :=
    mirrors.classEntries sameAgain
  simp only [samePackage, listed, otherListed, secondListed, otherSecondListed, Option.map_some,
    entries.package, seconds.package]

theorem admits_eq {viewer otherViewer : ClassId} {entry otherEntry : MethodEntry}
    (viewers : SameClass left right viewer otherViewer)
    (entries : SameMethodEntry left right entry otherEntry) :
    left.admits viewer entry = right.admits otherViewer otherEntry := by
  have owner : (viewer == entry.owner) = (otherViewer == otherEntry.owner) := by
    rw [Bool.beq_eq_decide_eq, Bool.beq_eq_decide_eq,
      decide_eq_decide.mpr (viewers.paired entries.owner)]
  have above := contains_eq (mirrors.ancestors_rel viewers) fun _ _ => entries.owner.paired
  simp only [admits, entries.modifiers, owner, above, mirrors.samePackage_eq viewers entries.owner]

theorem methodVisible_agree {viewer otherViewer : ClassId} {method other : MethodId}
    (viewers : SameClass left right viewer otherViewer)
    (same : SameMethod left right method other) :
    Agree Eq (left.methodVisible viewer method) (right.methodVisible otherViewer other) := by
  refine (mirrors.requireMethod_agree same).bind fun entry otherEntry entries => ?_
  refine (mirrors.classVisible_agree viewers entries.owner).bind fun seen otherSeen seenAlike => ?_
  rw [seenAlike, mirrors.admits_eq viewers entries]
  exact rfl

theorem exists_sameClass {id : ClassId} {entry : ClassEntry} (listed : left.class? id = some entry) :
    ∃ other, SameClass left right id other := by
  have named := (mirrors.integral.classIds entry.name id).mpr ⟨entry, listed, rfl⟩
  obtain ⟨other, otherNamed⟩ := mirrors.exists_class named
  exact ⟨other, entry.name, named, otherNamed⟩

theorem isClass_eq {id other : ClassId} (same : SameClass left right id other) :
    left.isClass id = right.isClass other := by
  obtain ⟨entry, otherEntry, listed, otherListed, entries⟩ := mirrors.classEntries same
  simp only [isClass, listed, otherListed, Option.any_some, entries.isInterface]

theorem isInterface_eq {id other : ClassId} (same : SameClass left right id other) :
    left.isInterface id = right.isInterface other := by
  obtain ⟨entry, otherEntry, listed, otherListed, entries⟩ := mirrors.classEntries same
  simp only [isInterface, listed, otherListed, Option.any_some, entries.isInterface]

theorem findMethodNamed?_rel {id other : ClassId} (same : SameClass left right id other)
    (name : String) : Option.Rel (SameMethod left right) (left.findMethodNamed? id name)
      (right.findMethodNamed? other name) := by
  obtain ⟨entry, otherEntry, listed, otherListed, entries⟩ := mirrors.classEntries same
  simp only [findMethodNamed?, methodsOf, listed, otherListed, Option.map_some, Option.getD_some]
  refine find?_rel entries.methods fun method again related => ?_
  obtain ⟨methodEntry, againEntry, found, foundAgain, methods⟩ := mirrors.methodEntries related
  simp only [found, foundAgain, Option.any_some, methods.signature]

end Mirrors

end Program

end CallResolution

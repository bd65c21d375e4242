import CallResolution.Proofs.DispatchTotal

/-!
Where a dispatch looks. It climbs from its receiver through the super-classes and takes the
first method that it accepts. On a cycle the climb ends early, but not before it has met every
class above the receiver.
-/

namespace CallResolution

open Relation

namespace Search

variable {α : Type} [DecidableEq α] {next : α → Option α} {up : α → α → Prop}

/-- The climb has come to `node`: from what it has passed before, it only ever came to what it
has passed. -/
structure Passed (next : α → Option α) (node : α) (unvisited : List α) : Prop where
  here : node ∉ unvisited
  closed : ∀ passed above, passed ∉ unvisited → passed ≠ node → next passed = some above →
    above ∉ unvisited

theorem Passed.step {node above : α} {unvisited : List α} (passed : Passed next node unvisited)
    (climbed : next node = some above) : Passed next above (without unvisited [above]) := by
  refine ⟨by simp, fun earlier other outside apart follows => ?_⟩
  simp only [mem_without, List.mem_singleton, not_and, not_not] at outside ⊢
  have visited : earlier ∉ unvisited := fun member => apart (outside member)
  by_cases current : earlier = node
  · subst current
    cases climbed.symm.trans follows
    exact fun _ => rfl
  · exact fun member => absurd member (passed.closed earlier other visited current follows)

theorem Passed.stays {node above reached : α} {unvisited : List α}
    (passed : Passed next node unvisited) (climbed : next node = some above)
    (visited : above ∉ unvisited)
    (path : ReflTransGen (fun child parent => next child = some parent) above reached) :
    reached ∉ unvisited := by
  induction path with
  | refl => exact visited
  | @tail earlier other _ last ih =>
      by_cases current : earlier = node
      · subst current
        cases climbed.symm.trans last
        exact visited
      · exact passed.closed earlier other ih current last

theorem climb_reaches (follows : ∀ child parent, up child parent → next child = some parent)
    {node goal : α} {unvisited : List α} (passed : Passed next node unvisited)
    (path : TransGen up node goal) (ahead : goal ∈ unvisited) :
    ∃ before after, climb next node unvisited = before ++ goal :: after ∧
      ∀ earlier ∈ before, TransGen up earlier goal := by
  fun_induction climb next node unvisited with
  | case1 node unvisited ends =>
      obtain ⟨other, step, _⟩ := TransGen.head'_iff.mp path
      cases ends.symm.trans (follows _ _ step)
  | case2 node unvisited above climbed _ ih =>
      obtain ⟨other, step, rest⟩ := TransGen.head'_iff.mp path
      cases climbed.symm.trans (follows _ _ step)
      by_cases here : goal = above
      · exact ⟨[], _, by rw [here]; rfl, by simp⟩
      · have further := (reflTransGen_iff_eq_or_transGen.mp rest).resolve_left here
        obtain ⟨before, after, found, leads⟩ := ih (passed.step climbed) further
          (mem_without.mpr ⟨ahead, by simpa using here⟩)
        refine ⟨above :: before, after, congrArg (above :: ·) found, fun earlier listed => ?_⟩
        rcases List.mem_cons.mp listed with rfl | later
        · exact further
        · exact leads earlier later
  | case3 node unvisited above climbed visited =>
      obtain ⟨other, step, rest⟩ := TransGen.head'_iff.mp path
      cases climbed.symm.trans (follows _ _ step)
      -- The climb would close a cycle, so all that lies above has been passed.
      exact absurd ahead (passed.stays climbed visited (ReflTransGen.mono follows _ _ rest))

end Search

namespace Program

variable {program : Program}

theorem passed_at_start (program : Program) (id : ClassId) :
    Search.Passed program.superOf? id (Search.without program.classIds [id]) := by
  refine ⟨by simp, fun earlier above outside apart climbed => ?_⟩
  have foreign : program.class? earlier = none := by
    simpa [classIds, apart, class?] using outside
  simp [superOf?, foreign] at climbed

theorem ancestors_meet {top receiver : ClassId} (isClass : program.isClass top = true)
    (below : ReflTransGen program.ExtendsClass top receiver) :
    ∃ before after, receiver :: program.ancestors receiver = before ++ top :: after ∧
      ∀ earlier ∈ before, TransGen program.ExtendsClass top earlier := by
  by_cases same : receiver = top
  · exact ⟨[], program.ancestors receiver, by rw [same]; rfl, by simp⟩
  · have strictly := (reflTransGen_iff_eq_or_transGen.mp below).resolve_left same
    have ahead : top ∈ Search.without program.classIds [receiver] := by
      simpa [classIds, Ne.symm same] using bound_of_class isClass
    have follows (child parent : ClassId)
        (extended : Function.swap program.ExtendsClass child parent) :
        program.superOf? child = some parent := extended.2
    obtain ⟨before, after, found, leads⟩ := Search.climb_reaches follows
      (program.passed_at_start receiver) (transGen_swap.mpr strictly) ahead
    refine ⟨receiver :: before, after, congrArg (receiver :: ·) found, fun earlier listed => ?_⟩
    rcases List.mem_cons.mp listed with rfl | later
    · exact strictly
    · exact transGen_swap.mp (leads earlier later)

def isConcrete (program : Program) (id : ClassId) : Bool :=
  (program.class? id).any fun entry => !entry.isAbstract

theorem requireMethod_eq_ok {id : MethodId} {entry : MethodEntry} :
    program.requireMethod id = .ok entry ↔ program.method? id = some entry := by
  unfold requireMethod
  cases program.method? id <;> simp

theorem requireEntry_eq_ok {id : ClassId} {entry : ClassEntry} :
    program.requireEntry id = .ok entry ↔ program.class? id = some entry := by
  unfold requireEntry
  cases program.class? id <;> simp

theorem isClass_of_requireClass {id : ClassId} {entry : ClassEntry}
    (passed : program.requireClass id = .ok entry) : program.isClass id = true := by
  obtain ⟨again, required, rest⟩ := bind_eq_ok.mp passed
  have listed := requireEntry_eq_ok.mp required
  split at rest
  · cases rest
  · rename_i plain
    simpa [isClass, listed] using plain

theorem isInterface_of_requireInterface {id : ClassId} {entry : ClassEntry}
    (passed : program.requireInterface id = .ok entry) : program.isInterface id = true := by
  obtain ⟨again, required, rest⟩ := bind_eq_ok.mp passed
  have listed := requireEntry_eq_ok.mp required
  split at rest
  · rename_i holds
    simpa [isInterface, listed] using holds
  · cases rest

end Program

namespace Hierarchy

variable {hierarchy : Hierarchy} {receiver declarer : ClassId} {requested : MethodId}
  {signature : Signature}

def Accepts (hierarchy : Hierarchy) (receiver : ClassId) (requested : MethodId)
    (signature : Signature) (declarer : ClassId) (candidate : MethodId) : Prop :=
  candidate ∈ hierarchy.program.methodsOf declarer ∧
    hierarchy.program.hasSignature signature candidate = true ∧
    hierarchy.accepts receiver requested declarer candidate = .ok true

theorem answersWith_ok {candidate : MethodId} {answers : Bool}
    (judged : hierarchy.answersWith receiver requested signature declarer candidate =
      .ok answers) :
    answers = true ↔ hierarchy.program.hasSignature signature candidate = true ∧
      hierarchy.accepts receiver requested declarer candidate = .ok true := by
  obtain ⟨entry, found, rest⟩ := bind_eq_ok.mp judged
  have listed := Program.requireMethod_eq_ok.mp found
  by_cases same : entry.signature = signature
  · simp only [same, beq_self_eq_true, if_true] at rest
    simp [Program.hasSignature, listed, same, rest]
  · simp only [beq_eq_false_iff_ne.mpr same, Bool.false_eq_true, if_false] at rest
    cases rest
    simp [Program.hasSignature, listed, same]

def Finds (acceptable : MethodId → Prop) : Option MethodId → Prop
  | some target => acceptable target
  | none => ∀ target, ¬ acceptable target

theorem acceptedAmong?_finds {methods : List MethodId} {found : Option MethodId}
    (searched : hierarchy.acceptedAmong? receiver requested signature declarer methods =
      .ok found) :
    Finds (fun target => target ∈ methods ∧
      hierarchy.program.hasSignature signature target = true ∧
      hierarchy.accepts receiver requested declarer target = .ok true) found := by
  induction methods with
  | nil =>
      cases searched
      simp [Finds]
  | cons candidate rest ih =>
      obtain ⟨answers, judged, continued⟩ := bind_eq_ok.mp searched
      have judgement := answersWith_ok judged
      cases answers with
      | true =>
          cases continued
          exact ⟨by simp, judgement.mp rfl⟩
      | false =>
          have later := ih continued
          have rejected := mt judgement.mpr Bool.false_ne_true
          cases found with
          | some target => exact ⟨List.mem_cons_of_mem _ later.1, later.2⟩
          | none =>
              rintro target ⟨member, accepted⟩
              rcases List.mem_cons.mp member with rfl | listed
              · exact rejected accepted
              · exact later target ⟨listed, accepted⟩

theorem acceptedIn?_finds {classes : List ClassId} {found : Option MethodId}
    (searched : hierarchy.acceptedIn? receiver requested signature classes = .ok found) :
    Finds (fun target => ∃ declarer ∈ classes,
      hierarchy.Accepts receiver requested signature declarer target) found := by
  induction classes with
  | nil =>
      cases searched
      simp [Finds]
  | cons declarer above ih =>
      obtain ⟨entry, required, rest⟩ := bind_eq_ok.mp searched
      obtain ⟨among, looked, continued⟩ := bind_eq_ok.mp rest
      have methods : hierarchy.program.methodsOf declarer = entry.methods := by
        simp [Program.methodsOf, Program.requireEntry_eq_ok.mp required]
      have here := acceptedAmong?_finds looked
      rw [← methods] at here
      cases among with
      | some target =>
          cases continued
          exact ⟨declarer, by simp, here⟩
      | none =>
          have later := ih continued
          cases found with
          | some target =>
              obtain ⟨other, listed, accepted⟩ := later
              exact ⟨other, List.mem_cons_of_mem _ listed, accepted⟩
          | none =>
              rintro target ⟨other, listed, accepted⟩
              rcases List.mem_cons.mp listed with rfl | further
              · exact here target accepted
              · exact later target ⟨other, further, accepted⟩

theorem acceptedIn?_append {classes : List ClassId} {found : Option MethodId}
    (searched : hierarchy.acceptedIn? receiver requested signature classes = .ok found)
    (further : List ClassId) :
    hierarchy.acceptedIn? receiver requested signature (classes ++ further) =
      found.elim (hierarchy.acceptedIn? receiver requested signature further) (.ok <| some ·) := by
  induction classes with
  | nil =>
      cases searched
      rfl
  | cons declarer above ih =>
      obtain ⟨entry, required, rest⟩ := bind_eq_ok.mp searched
      obtain ⟨among, looked, continued⟩ := bind_eq_ok.mp rest
      simp only [List.cons_append, acceptedIn?, required, looked, bind, Except.bind]
      cases among with
      | some first =>
          cases continued
          rfl
      | none => exact ih continued

theorem acceptedIn?_append_some {classes : List ClassId} {target : MethodId}
    (searched : hierarchy.acceptedIn? receiver requested signature classes = .ok (some target))
    (further : List ClassId) :
    hierarchy.acceptedIn? receiver requested signature (classes ++ further) =
      .ok (some target) :=
  acceptedIn?_append searched further

theorem concreteTarget_eq {receiverEntry : ClassEntry} {entry : MethodEntry}
    {found : Option MethodId} (listed : hierarchy.program.class? receiver = some receiverEntry)
    (isClass : hierarchy.program.isClass receiver = true)
    (named : hierarchy.program.method? requested = some entry)
    (searched : hierarchy.acceptedIn? receiver requested entry.signature
      (receiver :: hierarchy.program.ancestors receiver) = .ok found) :
    hierarchy.concreteTarget receiver requested =
      found.elim (.error (.noConcreteDispatch receiverEntry.name entry.render)) .ok := by
  have plain : receiverEntry.isInterface = false := by
    simpa [Program.isClass, listed] using isClass
  have required : hierarchy.program.requireClass receiver = .ok receiverEntry := by
    simp [Program.requireClass, Program.requireEntry_eq_ok.mpr listed, plain, bind, Except.bind]
  simp only [concreteTarget, superClassesIncluding, superClasses, required,
    Program.requireMethod_eq_ok.mpr named, searched, bind, Except.bind]
  cases found <;> rfl

theorem concreteTarget_ok {target : MethodId}
    (dispatched : hierarchy.concreteTarget receiver requested = .ok target) :
    ∃ entry, hierarchy.program.method? requested = some entry ∧
      ∃ declarer ∈ receiver :: hierarchy.program.ancestors receiver,
        hierarchy.Accepts receiver requested entry.signature declarer target := by
  obtain ⟨receiverEntry, required, rest⟩ := bind_eq_ok.mp dispatched
  obtain ⟨entry, named, rest⟩ := bind_eq_ok.mp rest
  obtain ⟨classes, climbed, rest⟩ := bind_eq_ok.mp rest
  obtain ⟨found, searched, last⟩ := bind_eq_ok.mp rest
  obtain ⟨above, superClasses, same⟩ := bind_eq_ok.mp climbed
  obtain ⟨_, _, ancestors⟩ := bind_eq_ok.mp superClasses
  cases same
  cases ancestors
  cases found with
  | none => cases last
  | some first =>
      cases last
      exact ⟨entry, Program.requireMethod_eq_ok.mp named, acceptedIn?_finds searched⟩

theorem targetOn_eq {receiverEntry : ClassEntry} (method : MethodId)
    (listed : hierarchy.program.class? receiver = some receiverEntry) :
    hierarchy.targetOn method receiver = if hierarchy.program.isConcrete receiver
      then (hierarchy.concreteTarget receiver method).map ([·]) else .ok [] := by
  simp only [targetOn, Program.requireEntry_eq_ok.mpr listed, Program.isConcrete, listed, bind,
    Except.bind, Option.any_some]
  cases receiverEntry.isAbstract with
  | true => rfl
  | false => cases hierarchy.concreteTarget receiver method <;> rfl

end Hierarchy

end CallResolution

import CallResolution.Proofs.DispatchTotal

/-!
What a call is resolved to, up to the order of its targets. The targets are gathered from the
answers on single receivers, so they depend neither on memos nor on the order of receivers, and
neither does the question whether there are any.
-/

namespace CallResolution

theorem Outcome.and {α : Type} {good better : α → Prop} {bad worse : QueryError → Prop}
    {answer : Except QueryError α} (first : Outcome good bad answer)
    (second : Outcome better worse answer) :
    Outcome (fun value => good value ∧ better value) (fun error => bad error ∧ worse error)
      answer := by
  cases answer with
  | ok value => exact ⟨first, second⟩
  | error error => exact ⟨first, second⟩

theorem Query.Meets.and {α : Type} {inv : Memos → Prop} {query : Query α}
    {good better : α → Prop} {bad worse : QueryError → Prop}
    (first : Query.Meets inv query good bad) (second : Query.Meets inv query better worse) :
    Query.Meets inv query (fun value => good value ∧ better value)
      fun error => bad error ∧ worse error :=
  fun memos start => ⟨(first memos start).1, (first memos start).2.and (second memos start).2⟩

/-- The list holds what all the parts hold, nothing twice, and none of the parts has failed. -/
structure Gathers (parts : Except QueryError (List MethodId) → Prop) (targets : List MethodId) :
    Prop where
  unique : targets.Nodup
  sound : ∀ error, ¬ parts (.error error)
  complete : ∀ target, target ∈ targets ↔ ∃ group, parts (.ok group) ∧ target ∈ group

theorem Gathers.perm {parts : Except QueryError (List MethodId) → Prop}
    {left right : List MethodId} (first : Gathers parts left) (second : Gathers parts right) :
    left.Perm right := by
  rw [List.perm_ext_iff_of_nodup first.unique second.unique]
  intro target
  rw [first.complete, second.complete]

namespace Program

theorem findMethod?_some {program : Program} {className : String} {signature : Signature}
    {method : MethodId} (found : program.findMethod? className signature = some method) :
    ∃ id entry, program.classId? className = some id ∧ method ∈ program.methodsOf id ∧
      program.method? method = some entry ∧ entry.signature = signature := by
  obtain ⟨id, named, chosen⟩ := Option.bind_eq_some_iff.mp found
  have passes : program.hasSignature signature method = true := List.find?_some chosen
  obtain ⟨entry, listed, same⟩ := (Option.any_eq_true _ _).mp passes
  exact ⟨id, entry, named, List.mem_of_find?_eq_some chosen, listed, by simpa using same⟩

end Program

namespace Hierarchy

/-- What the receivers of a call contribute to its targets. A call that is not dispatched has
one part. -/
inductive PartOf (hierarchy : Hierarchy) (method container : MethodId) :
    InvocationKind → Except QueryError (List MethodId) → Prop
  | dispatched {kind entry receiver} : kind.isDynamicDispatch = true →
      hierarchy.program.method? method = some entry →
      hierarchy.program.Receives hierarchy.policy entry.owner receiver →
      PartOf hierarchy method container kind (hierarchy.targetOn method receiver)
  | special : PartOf hierarchy method container .special
      ((hierarchy.specialTarget method container).map ([·]))
  | static : PartOf hierarchy method container .static (.ok [method])

theorem targetsOn_gathers (hierarchy : Hierarchy) (receivers : List ClassId) (method : MethodId) :
    let parts := fun part => ∃ receiver ∈ receivers, hierarchy.targetOn method receiver = part
    Outcome (Gathers parts) (fun error => parts (.error error))
      (hierarchy.targetsOn receivers method) := by
  intro parts
  have each : ∀ receiver ∈ receivers, Outcome
      (fun group => hierarchy.targetOn method receiver = .ok group)
      (fun error => parts (.error error)) (hierarchy.targetOn method receiver) := by
    intro receiver member
    cases answer : hierarchy.targetOn method receiver with
    | ok group => exact rfl
    | error error => exact ⟨receiver, member, answer⟩
  refine (Outcome.mapM each).bind fun groups related => ⟨nodup_eraseDups _, ?_, fun target => ?_⟩
  · rintro error ⟨receiver, member, failed⟩
    obtain ⟨_, _, answered⟩ := mem_of_forall₂ related.flip member
    cases failed.symm.trans answered
  · rw [List.mem_eraseDups, List.mem_flatten]
    constructor
    · rintro ⟨group, listed, inGroup⟩
      obtain ⟨receiver, member, answered⟩ := mem_of_forall₂ related listed
      exact ⟨group, ⟨receiver, member, answered⟩, inGroup⟩
    · rintro ⟨group, ⟨receiver, member, answered⟩, inGroup⟩
      obtain ⟨_, listed, again⟩ := mem_of_forall₂ related.flip member
      cases answered.symm.trans again
      exact ⟨group, listed, inGroup⟩

variable {program : Program} {policy : Policy}

theorem abstractTargets_gathers {id : ClassId} (bound : id.index < program.classes.size)
    (method : MethodId) :
    let hierarchy := (ofProgram program policy).1
    let parts := fun part => ∃ receiver, program.Receives policy id receiver ∧
      hierarchy.targetOn method receiver = part
    Query.Meets (tables program policy).Exact (hierarchy.abstractTargets id method) (Gathers parts)
      fun error => parts (.error error) := by
  intro hierarchy parts
  refine (receivers_exact bound).bind fun receivers exact => ?_
  have gathers := hierarchy.targetsOn_gathers receivers method
  simp only [exact] at gathers
  exact .ofExcept gathers

theorem gathers_single {parts : Except QueryError (List MethodId) → Prop} {target : MethodId}
    (only : ∀ part, parts part ↔ part = .ok [target]) : Gathers parts [target] := by
  refine ⟨List.nodup_singleton target, fun error part => ?_, fun other => ?_⟩
  · cases (only _).mp part
  · constructor
    · intro member
      exact ⟨[target], (only _).mpr rfl, member⟩
    · rintro ⟨group, part, member⟩
      cases (only _).mp part
      exact member

theorem meets_single {inv : Memos → Prop} {parts : Except QueryError (List MethodId) → Prop}
    (answer : Except QueryError MethodId) (only : ∀ part, parts part ↔ part = answer.map ([·])) :
    Query.Meets inv (do
      let target ← Query.ofExcept answer
      pure [target]) (Gathers parts) fun error => parts (.error error) := by
  cases answer with
  | error error => exact fun _ start => ⟨start, (only _).mpr rfl⟩
  | ok target => exact Query.Meets.pure (gathers_single only)

theorem partOf_special {hierarchy : Hierarchy} {method container : MethodId}
    {part : Except QueryError (List MethodId)} :
    hierarchy.PartOf method container .special part ↔
      part = (hierarchy.specialTarget method container).map ([·]) := by
  constructor
  · intro partOf
    cases partOf with
    | dispatched dynamic => cases dynamic
    | special => rfl
  · rintro rfl
    exact .special

theorem gathers_special {hierarchy : Hierarchy} {method container target : MethodId}
    (answered : hierarchy.specialTarget method container = .ok target) :
    Gathers (hierarchy.PartOf method container .special) [target] := by
  apply gathers_single
  intro part
  rw [partOf_special, answered]
  rfl

theorem partOf_static {hierarchy : Hierarchy} {method container : MethodId}
    {part : Except QueryError (List MethodId)} :
    hierarchy.PartOf method container .static part ↔ part = .ok [method] := by
  constructor
  · intro partOf
    cases partOf with
    | dispatched dynamic => cases dynamic
    | static => rfl
  · rintro rfl
    exact .static

theorem partOf_dispatched {hierarchy : Hierarchy} {kind : InvocationKind}
    (dynamic : kind.isDynamicDispatch = true) {method container : MethodId} {entry : MethodEntry}
    (found : hierarchy.program.method? method = some entry) :
    hierarchy.PartOf method container kind = fun part =>
      ∃ receiver, hierarchy.program.Receives hierarchy.policy entry.owner receiver ∧
        hierarchy.targetOn method receiver = part := by
  funext part
  apply propext
  constructor
  · intro partOf
    cases partOf with
    | dispatched _ foundAgain receives =>
        cases found.symm.trans foundAgain
        exact ⟨_, receives, rfl⟩
    | special => cases dynamic
    | static => cases dynamic
  · rintro ⟨receiver, receives, rfl⟩
    exact .dispatched dynamic found receives

theorem targets_gathers (wellFormed : program.WellFormed) (kind : InvocationKind)
    {method : MethodId} (methodBound : method.index < program.methods.size)
    (container : MethodId) :
    let hierarchy := (ofProgram program policy).1
    Query.Meets (tables program policy).Exact (hierarchy.targets kind method container)
      (Gathers (hierarchy.PartOf method container kind))
      fun error => hierarchy.PartOf method container kind (.error error) := by
  intro hierarchy
  have dispatched {kind : InvocationKind} (dynamic : kind.isDynamicDispatch = true) :
      Query.Meets (tables program policy).Exact (do
        let entry ← Query.ofExcept (program.requireMethod method)
        hierarchy.abstractTargets entry.owner method)
      (Gathers (hierarchy.PartOf method container kind))
      fun error => hierarchy.PartOf method container kind (.error error) := by
    refine Query.Meets.bind (.ofExcept (Program.requireMethod_outcome methodBound))
      fun entry found => ?_
    rw [partOf_dispatched dynamic found]
    exact abstractTargets_gathers (wellFormed.ownerBound method entry found) method
  cases kind with
  | virtual => exact dispatched rfl
  | interface => exact dispatched rfl
  | dynamic => exact dispatched rfl
  | special => exact meets_single (hierarchy.specialTarget method container) fun _ => partOf_special
  | static => exact meets_single (.ok method) fun _ => partOf_static

inductive Resolves (hierarchy : Hierarchy) (caller : MethodId) (invocation : Invocation) :
    CallTarget → Prop
  | external : hierarchy.program.classId? invocation.className = none →
      Resolves hierarchy caller invocation .external
  | missing {id} : hierarchy.program.classId? invocation.className = some id →
      hierarchy.program.findMethod? invocation.className invocation.signature = none →
      Resolves hierarchy caller invocation .missing
  | resolved {callee targets} :
      hierarchy.program.findMethod? invocation.className invocation.signature = some callee →
      targets ≠ [] → Gathers (hierarchy.PartOf callee caller invocation.kind) targets →
      Resolves hierarchy caller invocation (.resolved targets)
  | unresolved {callee} :
      hierarchy.program.findMethod? invocation.className invocation.signature = some callee →
      (Gathers (hierarchy.PartOf callee caller invocation.kind) [] ∨
        ∃ error, hierarchy.PartOf callee caller invocation.kind (.error error)) →
      Resolves hierarchy caller invocation (.unresolved callee)

theorem resolveCall_resolves (wellFormed : program.WellFormed) {caller : MethodId}
    (callerBound : caller.index < program.methods.size) (invocation : Invocation) :
    let hierarchy := (ofProgram program policy).1
    Query.Meets (tables program policy).Exact (hierarchy.resolveCall caller invocation)
      (fun outcome => hierarchy.Resolves caller invocation outcome.1) fun _ => False := by
  intro hierarchy
  unfold resolveCall
  split
  · rename_i unknown
    exact .pure (.external (Option.isNone_iff_eq_none.mp unknown))
  · rename_i known
    obtain ⟨id, found⟩ :=
      Option.ne_none_iff_exists'.mp fun unknown => known (Option.isNone_iff_eq_none.mpr unknown)
    split
    · rename_i missing
      exact .pure (.missing found missing)
    · rename_i callee named
      obtain ⟨_, _, _, _, listed, _⟩ := Program.findMethod?_some named
      have calleeBound := (Array.getElem?_eq_some_iff.mp listed).1
      refine ((targets_gathers wellFormed invocation.kind calleeBound caller).and
        (targets_meets wellFormed invocation.kind calleeBound callerBound)).observe.bind
        fun answer outcome => ?_
      split
      · exact .pure (.unresolved named (.inl outcome.1))
      · rename_i targets nonempty
        exact .pure (.resolved named nonempty outcome.1)
      · rename_i error
        obtain ⟨failed, recoverable⟩ := outcome
        rw [if_pos recoverable]
        exact .pure (.unresolved named (.inr ⟨error, failed⟩))

end Hierarchy

inductive CallTarget.Alike : CallTarget → CallTarget → Prop
  | external : Alike .external .external
  | missing : Alike .missing .missing
  | resolved {left right} : left.Perm right → Alike (.resolved left) (.resolved right)
  | unresolved (method) : Alike (.unresolved method) (.unresolved method)

namespace CallTarget.Alike

variable {left right : CallTarget}

theorem targets (alike : left.Alike right) : left.targets.Perm right.targets := by
  cases alike with
  | resolved perm => exact perm
  | _ => exact List.Perm.refl _

theorem count (alike : left.Alike right) (counters : Counters) :
    counters.count left = counters.count right := by
  cases alike with
  | resolved perm => simp [Counters.count, CallTarget.isPolymorphic, perm.length_eq]
  | _ => rfl

end CallTarget.Alike

namespace Hierarchy.Resolves

variable {hierarchy : Hierarchy} {caller : MethodId} {invocation : Invocation}

theorem alike {left right : CallTarget} (first : hierarchy.Resolves caller invocation left)
    (second : hierarchy.Resolves caller invocation right) : left.Alike right := by
  have absent (unknown : hierarchy.program.classId? invocation.className = none) :
      hierarchy.program.findMethod? invocation.className invocation.signature = none := by
    simp [Program.findMethod?, unknown]
  cases first with
  | external unknown =>
      cases second with
      | external _ => exact .external
      | missing known _ => cases unknown.symm.trans known
      | resolved named _ _ => cases (absent unknown).symm.trans named
      | unresolved named _ => cases (absent unknown).symm.trans named
  | missing known unnamed =>
      cases second with
      | external unknown => cases unknown.symm.trans known
      | missing _ _ => exact .missing
      | resolved named _ _ => cases unnamed.symm.trans named
      | unresolved named _ => cases unnamed.symm.trans named
  | resolved named nonempty gathers =>
      cases second with
      | external unknown => cases (absent unknown).symm.trans named
      | missing _ unnamed => cases unnamed.symm.trans named
      | resolved again _ others =>
          cases named.symm.trans again
          exact .resolved (gathers.perm others)
      | unresolved again failed =>
          cases named.symm.trans again
          rcases failed with nothing | ⟨error, part⟩
          · exact absurd (gathers.perm nothing).eq_nil nonempty
          · exact absurd part (gathers.sound error)
  | unresolved named failed =>
      cases second with
      | external unknown => cases (absent unknown).symm.trans named
      | missing _ unnamed => cases unnamed.symm.trans named
      | resolved again nonempty gathers =>
          cases named.symm.trans again
          rcases failed with nothing | ⟨error, part⟩
          · exact absurd (gathers.perm nothing).eq_nil nonempty
          · exact absurd part (gathers.sound error)
      | unresolved again _ =>
          cases named.symm.trans again
          exact .unresolved _

end Hierarchy.Resolves

end CallResolution

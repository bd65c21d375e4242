import CallResolution.Proofs.Lookup
import CallResolution.Proofs.ReceiverOrder

/-!
Dispatch through a static type. Every receiver that is not abstract is asked for its target, and
one that has none makes the whole dispatch fail. Targets come in the order of receivers, which
without cycles is the order of the closure itself.
-/

namespace CallResolution

theorem mapM_fails_fast {α β : Type} (step : α → Except QueryError β) (items : List α) :
    Outcome (List.Forall₂ (fun item value => step item = .ok value) items)
      (fun error => ∃ earlier item later, items = earlier ++ item :: later ∧
        (∀ other ∈ earlier, ∃ value, step other = .ok value) ∧ step item = .error error)
      (items.mapM step) := by
  induction items with
  | nil => exact .nil
  | cons item items ih =>
      rw [List.mapM_cons]
      cases first : step item with
      | error error => exact ⟨[], item, items, rfl, by simp, first⟩
      | ok value =>
          cases rest : items.mapM step with
          | ok values =>
              rw [rest] at ih
              exact .cons first ih
          | error error =>
              rw [rest] at ih
              obtain ⟨earlier, failing, later, split, passed, failed⟩ := ih
              refine ⟨item :: earlier, failing, later, congrArg (item :: ·) split, ?_, failed⟩
              intro other member
              rcases List.mem_cons.mp member with rfl | listed
              · exact ⟨value, first⟩
              · exact passed other listed

namespace Hierarchy

/-- The answer consists of the targets of all these receivers, and there is one only if they all
have a target. -/
structure ImageOf (hierarchy : Hierarchy) (method : MethodId) (receivers : List ClassId)
    (answer : Except QueryError (List MethodId)) : Prop where
  succeeds : (∃ targets, answer = .ok targets) ↔
    ∀ receiver ∈ receivers, ∃ target, hierarchy.concreteTarget receiver method = .ok target
  unique : ∀ targets, answer = .ok targets → targets.Nodup
  complete : ∀ targets, answer = .ok targets → ∀ target, target ∈ targets ↔
    ∃ receiver ∈ receivers, hierarchy.concreteTarget receiver method = .ok target

/-- The answer lists the targets as the receivers come, or it is the failure of the first receiver
that fails. -/
structure OrderedImageOf (hierarchy : Hierarchy) (method : MethodId) (receivers : List ClassId)
    (answer : Except QueryError (List MethodId)) : Prop where
  listed : ∀ targets, answer = .ok targets → ∃ results,
    List.Forall₂ (fun receiver target => hierarchy.concreteTarget receiver method = .ok target)
      receivers results ∧ targets = results.eraseDups
  failed : ∀ error, answer = .error error → ∃ earlier receiver later,
    receivers = earlier ++ receiver :: later ∧
    (∀ other ∈ earlier, ∃ target, hierarchy.concreteTarget other method = .ok target) ∧
    hierarchy.concreteTarget receiver method = .error error

variable {hierarchy : Hierarchy} {method : MethodId} {receivers others : List ClassId}
  {answer : Except QueryError (List MethodId)}

theorem OrderedImageOf.image (ordered : hierarchy.OrderedImageOf method receivers answer) :
    hierarchy.ImageOf method receivers answer := by
  refine ⟨?_, ?_, ?_⟩
  · constructor
    · rintro ⟨targets, answered⟩ receiver member
      obtain ⟨results, each, _⟩ := ordered.listed targets answered
      obtain ⟨target, _, found⟩ := mem_of_forall₂ each.flip member
      exact ⟨target, found⟩
    · intro all
      cases answered : answer with
      | ok targets => exact ⟨targets, rfl⟩
      | error error =>
          obtain ⟨earlier, receiver, later, split, _, failed⟩ := ordered.failed error answered
          obtain ⟨target, found⟩ := all receiver (by simp [split])
          cases failed.symm.trans found
  · intro targets answered
    obtain ⟨results, _, rfl⟩ := ordered.listed targets answered
    exact nodup_eraseDups results
  · intro targets answered target
    obtain ⟨results, each, rfl⟩ := ordered.listed targets answered
    rw [List.mem_eraseDups]
    constructor
    · intro member
      exact mem_of_forall₂ each member
    · rintro ⟨receiver, member, found⟩
      obtain ⟨result, listed, again⟩ := mem_of_forall₂ each.flip member
      cases found.symm.trans again
      exact listed

theorem ImageOf.congr (image : hierarchy.ImageOf method receivers answer)
    (same : ∀ receiver, receiver ∈ receivers ↔ receiver ∈ others) :
    hierarchy.ImageOf method others answer := by
  refine ⟨?_, image.unique, ?_⟩
  · simpa only [same] using image.succeeds
  · simpa only [same] using image.complete

theorem mapM_targetOn (listed : ∀ receiver ∈ receivers, hierarchy.program.isClass receiver = true) :
    (receivers.mapM (hierarchy.targetOn method)).map List.flatten =
      (receivers.filter hierarchy.program.isConcrete).mapM
        (hierarchy.concreteTarget · method) := by
  induction receivers with
  | nil => rfl
  | cons receiver receivers ih =>
      obtain ⟨entry, found, _⟩ := (Option.any_eq_true _ _).mp (listed receiver (by simp))
      have rest := ih fun other member => listed other (by simp [member])
      rw [List.mapM_cons, targetOn_eq method found]
      cases concrete : hierarchy.program.isConcrete receiver with
      | false =>
          rw [List.filter_cons_of_neg (by simp [concrete]), ← rest]
          cases receivers.mapM (hierarchy.targetOn method) <;> rfl
      | true =>
          rw [List.filter_cons_of_pos concrete, List.mapM_cons, ← rest]
          cases hierarchy.concreteTarget receiver method with
          | error error => rfl
          | ok target => cases receivers.mapM (hierarchy.targetOn method) <;> rfl

theorem targetsOn_ordered
    (listed : ∀ receiver ∈ receivers, hierarchy.program.isClass receiver = true)
    (method : MethodId) :
    hierarchy.OrderedImageOf method (receivers.filter hierarchy.program.isConcrete)
      (hierarchy.targetsOn receivers method) := by
  have asked : hierarchy.targetsOn receivers method =
      ((receivers.filter hierarchy.program.isConcrete).mapM
        (hierarchy.concreteTarget · method)).map List.eraseDups := by
    rw [← mapM_targetOn listed, targetsOn]
    cases receivers.mapM (hierarchy.targetOn method) <;> rfl
  have outcome := mapM_fails_fast (hierarchy.concreteTarget · method)
    (receivers.filter hierarchy.program.isConcrete)
  rw [asked]
  cases found : (receivers.filter hierarchy.program.isConcrete).mapM
      (hierarchy.concreteTarget · method) with
  | ok results =>
      rw [found] at outcome
      refine ⟨?_, ?_⟩
      · rintro _ ⟨⟩
        exact ⟨results, outcome, rfl⟩
      · rintro _ ⟨⟩
  | error error =>
      rw [found] at outcome
      refine ⟨?_, ?_⟩
      · rintro _ ⟨⟩
      · rintro _ ⟨⟩
        exact outcome

theorem abstractTargets_answer {id : ClassId} {memos : Memos}
    (asked : (hierarchy.receivers id memos).1 = .ok receivers) (method : MethodId) :
    (hierarchy.abstractTargets id method memos).1 = hierarchy.targetsOn receivers method := by
  unfold abstractTargets
  rw [Query.bind_apply]
  generalize hierarchy.receivers id memos = result at asked
  obtain ⟨_, later⟩ := result
  subst asked
  rfl

/-- Dispatch through a class or an interface is the image of its receivers that are not abstract.
Without cycles it keeps their order, since closing implementers once more changes nothing. -/
theorem dispatch_is_image (program : Program) (policy : Policy) (requests others : List Request)
    {id : ClassId} (bound : id.index < program.classes.size) (method : MethodId) :
    let built := afterHistory program policy requests
    let again := afterHistory program policy others
    let answer := (built.1.abstractTargets id method built.2).1
    ∃ receivers closed, (again.1.receiverClasses id again.2).1 = .ok receivers ∧
      (built.1.receivers id built.2).1 = .ok closed ∧
      (∀ receiver, receiver ∈ closed ↔ receiver ∈ receivers) ∧
      built.1.ImageOf method (receivers.filter program.isConcrete) answer ∧
      (program.Acyclic policy → closed = receivers ∧
        built.1.OrderedImageOf method (receivers.filter program.isConcrete) answer) := by
  intro built again answer
  obtain ⟨receivers, asked, exact⟩ := (receiverClasses_exact bound _
    (exact_afterHistory program policy others)).2.exists_ok
  obtain ⟨closed, closing, closedExact⟩ := (receivers_exact bound _
    (exact_afterHistory program policy requests)).2.exists_ok
  have same : ∀ receiver, receiver ∈ closed ↔ receiver ∈ receivers := by
    intro receiver
    rw [closedExact, exact]
  have ordered : built.1.OrderedImageOf method (closed.filter program.isConcrete) answer := by
    rw [show answer = _ from abstractTargets_answer closing method]
    exact targetsOn_ordered (fun receiver member => ((closedExact receiver).mp member).isClass)
      method
  refine ⟨receivers, closed, asked, closing, same, ordered.image.congr ?_, ?_⟩
  · intro receiver
    rw [List.mem_filter, List.mem_filter, same]
  · intro acyclic
    have plain := (receivers_plain acyclic id _ (plain_afterHistory acyclic requests)).2
    rw [closing] at plain
    have unchanged := plain _ (plain_afterHistory acyclic others)
    have equal : closed = receivers := Except.ok.inj (unchanged.symm.trans asked)
    exact ⟨equal, equal ▸ ordered⟩

def choreClasses : List ClassDecl :=
  let run : MethodDecl := ⟨⟨"run", []⟩, .publicBit, []⟩
  [⟨"Chore", none, [], .ofBits 0x201, [run]⟩, ⟨"Base", none, ["Chore"], .ofBits 0x401, []⟩,
    ⟨"Wash", some "Base", [], .publicBit, [run]⟩, ⟨"Rinse", some "Wash", ["Chore"], .publicBit, []⟩,
    ⟨"Nap", none, ["Chore"], .publicBit, []⟩]

def choreProgram : Program :=
  (Program.load choreClasses []).toOption.getD .empty

theorem choreProgram_acyclic (policy : Policy) : choreProgram.Acyclic policy :=
  Program.acyclic_of_ordered policy (by decide +kernel) (by decide +kernel)

theorem choreProgram_targets :
    let hierarchy := (ofProgram choreProgram .standard).1
    hierarchy.concreteTarget ⟨2⟩ ⟨0⟩ = .ok ⟨1⟩ ∧ hierarchy.concreteTarget ⟨3⟩ ⟨0⟩ = .ok ⟨1⟩ ∧
    hierarchy.concreteTarget ⟨4⟩ ⟨0⟩ = .error (.noConcreteDispatch "Nap" "Chore.run()") := by
  intro hierarchy
  have supers : choreProgram.superOf? ⟨1⟩ = none ∧ choreProgram.superOf? ⟨2⟩ = some ⟨1⟩ ∧
      choreProgram.superOf? ⟨3⟩ = some ⟨2⟩ ∧ choreProgram.superOf? ⟨4⟩ = none := by
    decide +kernel
  have ids : choreProgram.classIds = [⟨0⟩, ⟨1⟩, ⟨2⟩, ⟨3⟩, ⟨4⟩] := by decide +kernel
  have above : choreProgram.ancestors ⟨2⟩ = [⟨1⟩] ∧ choreProgram.ancestors ⟨3⟩ = [⟨2⟩, ⟨1⟩] ∧
      choreProgram.ancestors ⟨4⟩ = [] := by
    simp [Program.ancestors, Search.climb, Search.without, supers, ids]
  have climbed : ∀ receiver, choreProgram.isClass receiver = true →
      hierarchy.superClassesIncluding receiver =
        .ok (receiver :: choreProgram.ancestors receiver) := by
    intro receiver isClass
    have outcome : Outcome _ (fun _ => False) (hierarchy.superClassesIncluding receiver) :=
      superClassesIncluding_outcome isClass
    obtain ⟨_, asked, rfl⟩ := outcome.exists_ok
    exact asked
  refine ⟨?_, ?_, ?_⟩
  · rw [concreteTarget, climbed _ (by decide +kernel), above.1]
    decide +kernel
  · rw [concreteTarget, climbed _ (by decide +kernel), above.2.1]
    decide +kernel
  · rw [concreteTarget, climbed _ (by decide +kernel), above.2.2]
    decide +kernel

theorem choreProgram_concrete {receiver : ClassId}
    (isClass : choreProgram.isClass receiver = true)
    (concrete : choreProgram.isConcrete receiver = true) :
    receiver ∈ ([⟨2⟩, ⟨3⟩, ⟨4⟩] : List ClassId) := by
  have all : ∀ other ∈ choreProgram.classIds, choreProgram.isClass other = true →
      choreProgram.isConcrete other = true → other ∈ ([⟨2⟩, ⟨3⟩, ⟨4⟩] : List ClassId) := by
    decide +kernel
  exact all receiver (Handle.mem_upTo.mpr (Program.bound_of_class isClass)) isClass concrete

theorem dispatch_is_image_chore :
    let built := afterHistory choreProgram .standard [.subClasses ⟨2⟩]
    (⟨0⟩ : ClassId).index < choreProgram.classes.size ∧ choreProgram.Acyclic .standard ∧
    (built.1.receivers ⟨0⟩ built.2).1 = (built.1.implementers ⟨0⟩ built.2).1 ∧
    (built.1.abstractTargets ⟨0⟩ ⟨0⟩ built.2).1 =
      .error (.noConcreteDispatch "Nap" "Chore.run()") := by
  intro built
  have acyclic := choreProgram_acyclic .standard
  have bound : (⟨0⟩ : ClassId).index < choreProgram.classes.size := by decide +kernel
  have isInterface : choreProgram.isInterface ⟨0⟩ = true := by decide +kernel
  obtain ⟨receivers, closed, asked, closing, _, image, ordered⟩ := dispatch_is_image choreProgram
    .standard [.subClasses ⟨2⟩] [.subClasses ⟨2⟩] bound ⟨0⟩
  obtain ⟨rfl, ordered⟩ := ordered acyclic
  have once : built.1.receiverClasses ⟨0⟩ = built.1.implementers ⟨0⟩ :=
    receiverClasses_of_interface .standard isInterface
  have listing : (built.1.implementers ⟨0⟩ built.2).1 = .ok closed := by
    rw [← once]
    exact asked
  refine ⟨bound, acyclic, closing.trans listing.symm, ?_⟩
  obtain ⟨_, again, exact⟩ := (implementers_exact isInterface _
    (exact_afterHistory choreProgram .standard [.subClasses ⟨2⟩])).2.exists_ok
  cases listing.symm.trans again
  obtain ⟨wash, rinse, nap⟩ := choreProgram_targets
  cases answered : (built.1.abstractTargets ⟨0⟩ ⟨0⟩ built.2).1 with
  | ok targets =>
      have listed : ⟨4⟩ ∈ closed := (exact ⟨4⟩).mpr
        ⟨⟨0⟩, .inl rfl, ⟨4⟩, by decide +kernel, by decide +kernel, .refl⟩
      obtain ⟨target, found⟩ := image.succeeds.mp ⟨targets, answered⟩ ⟨4⟩
        (List.mem_filter.mpr ⟨listed, by decide +kernel⟩)
      cases nap.symm.trans found
  | error error =>
      obtain ⟨earlier, receiver, later, split, _, failed⟩ := ordered.failed error answered
      have member : receiver ∈ closed.filter choreProgram.isConcrete := by simp [split]
      obtain ⟨listed, concrete⟩ := List.mem_filter.mp member
      have among := choreProgram_concrete ((exact receiver).mp listed).isClass concrete
      simp only [List.mem_cons, List.not_mem_nil, or_false] at among
      rcases among with rfl | rfl | rfl
      · cases wash.symm.trans failed
      · cases rinse.symm.trans failed
      · cases failed.symm.trans nap
        rfl

end Hierarchy

end CallResolution

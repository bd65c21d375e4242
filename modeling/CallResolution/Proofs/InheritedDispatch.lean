import CallResolution.Proofs.Integrity
import CallResolution.Proofs.VirtualDispatch

/-!
What a class inherits from its super-class. Where a class does not answer a dispatch itself, its
super-class answers for it. On a cycle the climb from the super-class comes round to the class in
the end, while the climb from the class begins there, but a class that does not answer may be
asked at any point.
-/

namespace CallResolution

namespace Search

variable {α : Type} [DecidableEq α] {next : α → Option α}

theorem without_comm (unvisited : List α) (first second : α) :
    without (without unvisited [first]) [second] =
      without (without unvisited [second]) [first] := by
  rw [without_without, without_without]
  apply without_congr
  intro node _
  simp [or_comm]

/-- A node from which the climb only comes to where it has been can be left out of the climb, or it
is where the climb ends. -/
theorem climb_without {last first : α} (turns : next last = some first) (node : α)
    {unvisited : List α} (passed : first ∉ unvisited) :
    climb next node unvisited = climb next node (without unvisited [last]) ∨
      climb next node unvisited = climb next node (without unvisited [last]) ++ [last] := by
  fun_induction climb next node unvisited with
  | case1 node unvisited ends =>
      rw [climb, ends]
      exact .inl rfl
  | case2 node unvisited above climbed member ih =>
      rw [climb.eq_def next node, climbed]
      by_cases here : above = last
      · subst here
        have stays : first ∉ without unvisited [above] := fun again =>
          passed (mem_without.mp again).1
        rw [climb, turns]
        simp [stays]
      · have ahead : above ∈ without unvisited [last] := by simp [member, here]
        have rest := ih fun again => passed (mem_without.mp again).1
        simp only [if_pos ahead, without_comm unvisited last above, List.cons_append,
          List.cons.injEq, true_and]
        exact rest
  | case3 node unvisited above climbed visited =>
      rw [climb, climbed]
      simp [visited]

end Search

namespace Program

variable {program : Program}

theorem ancestors_super {child parent : ClassId} (super : program.superOf? child = some parent)
    (distinct : parent ≠ child) :
    parent :: program.ancestors parent = program.ancestors child ∨
      parent :: program.ancestors parent = program.ancestors child ++ [child] := by
  have ahead : parent ∈ Search.without program.classIds [child] := by
    simpa [classIds, distinct] using superOf?_bound super
  have climbed : program.ancestors child = parent :: Search.climb program.superOf? parent
      (Search.without (Search.without program.classIds [parent]) [child]) := by
    rw [ancestors, Search.climb, super]
    simp only [if_pos ahead, Search.without_comm program.classIds child parent]
  rw [climbed, ancestors]
  rcases Search.climb_without super parent
    (fun again => (Search.mem_without.mp again).2 (List.mem_singleton_self parent))
    with apart | comesRound
  · exact .inl (congrArg (parent :: ·) apart)
  · exact .inr (congrArg (parent :: ·) comesRound)

theorem ancestors_of_no_super {id : ClassId} (super : program.superOf? id = none) :
    program.ancestors id = [] := by
  rw [ancestors, Search.climb, super]

def Answers (program : Program) (id : ClassId) (method : MethodId) (signature : Signature)
    (target : MethodId) : Prop :=
  target ∈ program.methodsOf id ∧ program.hasSignature signature target = true ∧
    program.methodVisible id method = .ok true

end Program

namespace Hierarchy

section Requested

variable {hierarchy : Hierarchy} (rule : hierarchy.policy.visibility = .requested)

include rule

theorem accepts_iff_answers {receiver declarer : ClassId} {method target : MethodId}
    {signature : Signature} : hierarchy.Accepts receiver method signature declarer target ↔
      hierarchy.program.Answers declarer method signature target := by
  rw [Accepts, accepts_requested rule]
  rfl

theorem acceptedIn?_receiver (receiver other : ClassId) (method : MethodId) (signature : Signature)
    (classes : List ClassId) : hierarchy.acceptedIn? receiver method signature classes =
      hierarchy.acceptedIn? other method signature classes := by
  have among (declarer : ClassId) (candidates : List MethodId) :
      hierarchy.acceptedAmong? receiver method signature declarer candidates =
        hierarchy.acceptedAmong? other method signature declarer candidates := by
    induction candidates with
    | nil => rfl
    | cons candidate candidates ih =>
        simp only [acceptedAmong?, answersWith, accepts_requested rule, ih]
  induction classes with
  | nil => rfl
  | cons declarer classes ih => simp only [acceptedIn?, among, ih]

variable (wellFormed : hierarchy.program.WellFormed) {method : MethodId} {entry : MethodEntry}
  {receiver parent : ClassId} {receiverEntry parentEntry : ClassEntry}
  (named : hierarchy.program.method? method = some entry)
  (receiverListed : hierarchy.program.class? receiver = some receiverEntry)

include wellFormed named receiverListed

theorem acceptedIn?_own : ∃ found,
    hierarchy.acceptedIn? receiver method entry.signature [receiver] = .ok found ∧
      Finds (hierarchy.program.Answers receiver method entry.signature) found := by
  obtain ⟨found, searched⟩ := acceptedIn?_exists wellFormed named receiverListed [receiver]
    (by simp)
  have finds := acceptedIn?_finds searched
  simp only [accepts_iff_answers rule, List.mem_singleton, exists_eq_left] at finds
  exact ⟨found, searched, finds⟩

theorem concreteTarget_own {classes : List ClassDecl} {sources : List DetachedMethod}
    (held : hierarchy.program.Holds classes sources) (isClass : hierarchy.program.isClass receiver = true) {target : MethodId}
    (answers : hierarchy.program.Answers receiver method entry.signature target) :
    hierarchy.concreteTarget receiver method = .ok target := by
  obtain ⟨found, searched, finds⟩ := acceptedIn?_own rule wellFormed named receiverListed
  cases found with
  | none => exact absurd answers (finds target)
  | some first =>
      obtain rfl : first = target :=
        held.method_unique finds.1 answers.1 finds.2.1 answers.2.1
      exact concreteTarget_eq receiverListed isClass named
        (acceptedIn?_append_some searched (hierarchy.program.ancestors receiver))

theorem acceptedIn?_declined
    (declined : ∀ target, ¬ hierarchy.program.Answers receiver method entry.signature target) :
    hierarchy.acceptedIn? receiver method entry.signature [receiver] = .ok none := by
  obtain ⟨found, searched, finds⟩ := acceptedIn?_own rule wellFormed named receiverListed
  cases found with
  | none => exact searched
  | some first => exact absurd finds (declined first)

theorem acceptedIn?_super
    (declined : ∀ target, ¬ hierarchy.program.Answers receiver method entry.signature target)
    (super : hierarchy.program.superOf? receiver = some parent) (distinct : parent ≠ receiver) :
    ∃ found, hierarchy.acceptedIn? receiver method entry.signature
        (receiver :: hierarchy.program.ancestors receiver) = .ok found ∧
      hierarchy.acceptedIn? parent method entry.signature
        (parent :: hierarchy.program.ancestors parent) = .ok found := by
  have own := acceptedIn?_declined rule wellFormed named receiverListed declined
  obtain ⟨found, above⟩ := acceptedIn?_exists wellFormed named receiverListed
    (hierarchy.program.ancestors receiver) fun _ => List.mem_cons_of_mem _
  refine ⟨found, (acceptedIn?_append own _).trans above, ?_⟩
  rw [acceptedIn?_receiver rule parent receiver]
  rcases Program.ancestors_super super distinct with same | comesRound
  · rw [same, above]
  · rw [comesRound, acceptedIn?_append above]
    cases found with
    | some target => rfl
    | none => exact own

variable (isClass : hierarchy.program.isClass receiver = true)
  (declined : ∀ target, ¬ hierarchy.program.Answers receiver method entry.signature target)

include isClass declined

theorem concreteTarget_super (super : hierarchy.program.superOf? receiver = some parent)
    (parentListed : hierarchy.program.class? parent = some parentEntry)
    (parentIsClass : hierarchy.program.isClass parent = true) (distinct : parent ≠ receiver) :
    (∃ target, hierarchy.concreteTarget receiver method = .ok target ∧
      hierarchy.concreteTarget parent method = .ok target) ∨
    hierarchy.concreteTarget receiver method =
        .error (.noConcreteDispatch receiverEntry.name entry.render) ∧
      hierarchy.concreteTarget parent method =
        .error (.noConcreteDispatch parentEntry.name entry.render) := by
  obtain ⟨found, searched, parentSearched⟩ :=
    acceptedIn?_super rule wellFormed named receiverListed declined super distinct
  have answer := concreteTarget_eq receiverListed isClass named searched
  have parentAnswer := concreteTarget_eq parentListed parentIsClass named parentSearched
  cases found with
  | some target => exact .inl ⟨target, answer, parentAnswer⟩
  | none => exact .inr ⟨answer, parentAnswer⟩

theorem concreteTarget_top (top : hierarchy.program.superOf? receiver = none) :
    hierarchy.concreteTarget receiver method =
      .error (.noConcreteDispatch receiverEntry.name entry.render) := by
  have own := acceptedIn?_declined rule wellFormed named receiverListed declined
  rw [← Program.ancestors_of_no_super top] at own
  exact concreteTarget_eq receiverListed isClass named own

end Requested

/-- A class answers a dispatch itself, or its super-class does, or neither has an answer. -/
theorem dispatch_inherits {program : Program} {classes : List ClassDecl}
    {detached : List DetachedMethod} (loaded : Program.load classes detached = .ok program)
    (policy : Policy) (rule : policy.visibility = .requested) {method : MethodId}
    {entry : MethodEntry} (named : program.method? method = some entry) {receiver : ClassId}
    {receiverEntry : ClassEntry} (listed : program.class? receiver = some receiverEntry)
    (plain : receiverEntry.isInterface = false) :
    let dispatched := (ofProgram program policy).1.concreteTarget
    (∀ target, program.Answers receiver method entry.signature target →
      dispatched receiver method = .ok target) ∧
    ((∀ target, ¬ program.Answers receiver method entry.signature target) →
      (∀ parent parentEntry, program.superOf? receiver = some parent →
        program.class? parent = some parentEntry → parentEntry.isInterface = false →
        parent ≠ receiver →
        (∃ target, dispatched receiver method = .ok target ∧
          dispatched parent method = .ok target) ∨
        dispatched receiver method =
            .error (.noConcreteDispatch receiverEntry.name entry.render) ∧
          dispatched parent method =
            .error (.noConcreteDispatch parentEntry.name entry.render)) ∧
      (program.superOf? receiver = none → dispatched receiver method =
        .error (.noConcreteDispatch receiverEntry.name entry.render))) := by
  intro dispatched
  have wellFormed := Program.load_wellFormed loaded
  have isClass : program.isClass receiver = true := by simp [Program.isClass, listed, plain]
  refine ⟨fun target answers => ?_, fun declined => ⟨?_, fun top => ?_⟩⟩
  · exact concreteTarget_own rule wellFormed named listed (Program.load_holds loaded) isClass
      answers
  · intro parent parentEntry super parentListed parentPlain distinct
    have parentIsClass : program.isClass parent = true := by
      simp [Program.isClass, parentListed, parentPlain]
    exact concreteTarget_super rule wellFormed named listed isClass declined super parentListed
      parentIsClass distinct
  · exact concreteTarget_top rule wellFormed named listed isClass declined top

def ringClasses : List ClassDecl :=
  [⟨"Low", some "Mid", [], .publicBit, []⟩, ⟨"Mid", some "Top", [], .publicBit, []⟩,
    ⟨"Top", some "Low", [], .publicBit, [⟨⟨"run", []⟩, .publicBit, []⟩]⟩]

def ringProgram : Program :=
  (Program.load ringClasses []).toOption.getD .empty

theorem ringProgram_loaded : Program.load ringClasses [] = .ok ringProgram := by
  decide +kernel

theorem dispatch_inherits_ring :
    let dispatched := (ofProgram ringProgram .standard).1.concreteTarget
    ringProgram.Answers ⟨2⟩ ⟨0⟩ ⟨"run", []⟩ ⟨0⟩ ∧ dispatched ⟨2⟩ ⟨0⟩ = .ok ⟨0⟩ ∧
    (∀ target, ¬ ringProgram.Answers ⟨1⟩ ⟨0⟩ ⟨"run", []⟩ target) ∧ dispatched ⟨1⟩ ⟨0⟩ = .ok ⟨0⟩ ∧
    (∀ target, ¬ ringProgram.Answers ⟨0⟩ ⟨0⟩ ⟨"run", []⟩ target) ∧
      dispatched ⟨0⟩ ⟨0⟩ = .ok ⟨0⟩ := by
  intro dispatched
  have named : ringProgram.method? ⟨0⟩ = some ⟨⟨2⟩, "Top", ⟨"run", []⟩, .publicBit, []⟩ := by
    decide +kernel
  have low : ringProgram.class? ⟨0⟩ = some ⟨"Low", some "Mid", [], .publicBit, []⟩ := by
    decide +kernel
  have mid : ringProgram.class? ⟨1⟩ = some ⟨"Mid", some "Top", [], .publicBit, []⟩ := by
    decide +kernel
  have top : ringProgram.class? ⟨2⟩ = some ⟨"Top", some "Low", [], .publicBit, [⟨0⟩]⟩ := by
    decide +kernel
  have supers : ringProgram.superOf? ⟨0⟩ = some ⟨1⟩ ∧ ringProgram.superOf? ⟨1⟩ = some ⟨2⟩ := by
    decide +kernel
  have declines (id : ClassId) (nothing : ringProgram.methodsOf id = []) (target : MethodId) :
      ¬ ringProgram.Answers id ⟨0⟩ ⟨"run", []⟩ target := by
    simp [Program.Answers, nothing]
  have midDeclines := declines ⟨1⟩ (by simp [Program.methodsOf, mid])
  have lowDeclines := declines ⟨0⟩ (by simp [Program.methodsOf, low])
  have answers : ringProgram.Answers ⟨2⟩ ⟨0⟩ ⟨"run", []⟩ ⟨0⟩ :=
    ⟨by simp [Program.methodsOf, top], by decide +kernel, by decide +kernel⟩
  have own := (dispatch_inherits ringProgram_loaded .standard rfl named top rfl).1 ⟨0⟩ answers
  have inherited : dispatched ⟨1⟩ ⟨0⟩ = .ok ⟨0⟩ := by
    rcases ((dispatch_inherits ringProgram_loaded .standard rfl named mid rfl).2 midDeclines).1
      ⟨2⟩ _ supers.2 top rfl (by decide) with ⟨target, found, above⟩ | ⟨_, above⟩
    · cases own.symm.trans above
      exact found
    · cases own.symm.trans above
  refine ⟨answers, own, midDeclines, inherited, lowDeclines, ?_⟩
  rcases ((dispatch_inherits ringProgram_loaded .standard rfl named low rfl).2 lowDeclines).1
    ⟨1⟩ _ supers.1 mid rfl (by decide) with ⟨target, found, above⟩ | ⟨_, above⟩
  · cases inherited.symm.trans above
    exact found
  · cases inherited.symm.trans above

end Hierarchy

end CallResolution

import CallResolution.Proofs.Asking

/-!
The memos that a history of requests leaves behind. Whatever is asked, memos change only
where a closure is computed, so an invariant has to be checked there and nowhere else.
-/

namespace CallResolution

/-- What can be asked of a hierarchy with memos. The remaining questions have answers that
do not mention memos. A build may resolve blocks in any order. -/
inductive Request where
  | subClasses (id : ClassId)
  | subClassesIncluding (id : ClassId)
  | subInterfaces (id : ClassId)
  | subInterfacesIncluding (id : ClassId)
  | implementers (id : ClassId)
  | abstractTargets (id : ClassId) (method : MethodId)
  | targets (kind : InvocationKind) (method container : MethodId)
  | build (options : BuildOptions) (schedule : List (BlockId × BlockEntry))

namespace Hierarchy

def memosAfter (hierarchy : Hierarchy) (memos : Memos) : Request → Memos
  | .subClasses id => (hierarchy.subClasses id memos).2
  | .subClassesIncluding id => (hierarchy.subClassesIncluding id memos).2
  | .subInterfaces id => (hierarchy.subInterfaces id memos).2
  | .subInterfacesIncluding id => (hierarchy.subInterfacesIncluding id memos).2
  | .implementers id => (hierarchy.implementers id memos).2
  | .abstractTargets id method => (hierarchy.abstractTargets id method memos).2
  | .targets kind method container => (hierarchy.targets kind method container memos).2
  | .build options schedule => (CallGraph.buildScheduled hierarchy options schedule memos).2

def afterHistory (program : Program) (policy : Policy) (requests : List Request) :
    Hierarchy × Memos :=
  let (hierarchy, memos) := ofProgram program policy
  (hierarchy, requests.foldl hierarchy.memosAfter memos)

theorem targets_cases {hierarchy : Hierarchy} {method container : MethodId}
    {motive : Query (List MethodId) → Prop}
    (dispatched : motive (do
      let entry ← Query.ofExcept (hierarchy.program.requireMethod method)
      hierarchy.abstractTargets entry.owner method))
    (special : motive (do
      let target ← Query.ofExcept (hierarchy.specialTarget method container)
      pure [target]))
    (static : motive (pure [method])) (kind : InvocationKind) :
    motive (hierarchy.targets kind method container) := by
  cases kind with
  | virtual => exact dispatched
  | interface => exact dispatched
  | dynamic => exact dispatched
  | special => exact special
  | static => exact static

structure Maintains (hierarchy : Hierarchy) (inv : Memos → Prop) : Prop where
  subClasses : ∀ id, Ensures inv (hierarchy.subClassClosure id) fun _ => True
  subInterfaces : ∀ id, Ensures inv (hierarchy.subInterfaceClosure id) fun _ => True

abbrev Keeps {α : Type} (inv : Memos → Prop) (query : Query α) : Prop :=
  Query.Meets inv query (fun _ => True) fun _ => True

theorem keeps_ofExcept {α : Type} {inv : Memos → Prop} (answer : Except QueryError α) :
    Keeps inv (Query.ofExcept answer) := by
  apply Query.Meets.ofExcept
  cases answer <;> trivial

namespace Maintains

variable {hierarchy : Hierarchy} {inv : Memos → Prop} (maintains : hierarchy.Maintains inv)

include maintains

theorem keeps_subClasses (id : ClassId) : Keeps inv (hierarchy.subClasses id) :=
  (keeps_ofExcept _).bind fun _ _ => .ofClosure (maintains.subClasses id)

theorem keeps_subClassesIncluding (id : ClassId) :
    Keeps inv (hierarchy.subClassesIncluding id) :=
  (maintains.keeps_subClasses id).bind fun _ _ => .pure trivial

theorem keeps_subInterfaces (id : ClassId) : Keeps inv (hierarchy.subInterfaces id) :=
  (keeps_ofExcept _).bind fun _ _ => .ofClosure (maintains.subInterfaces id)

theorem keeps_subInterfacesIncluding (id : ClassId) :
    Keeps inv (hierarchy.subInterfacesIncluding id) :=
  (maintains.keeps_subInterfaces id).bind fun _ _ => .pure trivial

theorem keeps_implementers (id : ClassId) : Keeps inv (hierarchy.implementers id) :=
  (maintains.keeps_subInterfacesIncluding id).bind fun _ _ => .pure trivial

theorem keeps_receivers (id : ClassId) : Keeps inv (hierarchy.receivers id) := by
  refine (keeps_ofExcept _).bind fun entry _ => ?_
  split
  · refine (maintains.keeps_implementers id).bind fun implementers _ => ?_
    refine (Query.Meets.mapM fun other _ => maintains.keeps_subClassesIncluding other).bind ?_
    exact fun _ _ => .pure trivial
  · exact maintains.keeps_subClassesIncluding id

theorem keeps_abstractTargets (id : ClassId) (method : MethodId) :
    Keeps inv (hierarchy.abstractTargets id method) :=
  (maintains.keeps_receivers id).bind fun _ _ => keeps_ofExcept _

theorem keeps_targets (kind : InvocationKind) (method container : MethodId) :
    Keeps inv (hierarchy.targets kind method container) := by
  refine targets_cases ?_ ?_ ?_ kind
  · exact (keeps_ofExcept _).bind fun entry _ => maintains.keeps_abstractTargets entry.owner method
  · exact (keeps_ofExcept _).bind fun _ _ => .pure trivial
  · exact .pure trivial

theorem keeps_resolveCall (caller : MethodId) (invocation : Invocation) :
    Keeps inv (hierarchy.resolveCall caller invocation) := by
  unfold resolveCall
  split
  · exact .pure trivial
  · split
    · exact .pure trivial
    · refine (maintains.keeps_targets _ _ _).observe.bind fun answer _ => ?_
      split
      · exact .pure trivial
      · exact .pure trivial
      · split
        · exact .pure trivial
        · exact fun _ start => ⟨start, trivial⟩

theorem keeps_resolveBlocks (schedule : List (BlockId × BlockEntry)) :
    Keeps inv (hierarchy.resolveBlocks schedule) := by
  have call (caller : MethodId) (entry : Nat × Invocation) : Keeps inv (do
      let outcome ← hierarchy.resolveCall caller entry.2
      pure (⟨entry.1, entry.2, outcome.1, outcome.2⟩ : ResolvedCall)) :=
    (maintains.keeps_resolveCall caller entry.2).bind fun _ _ => .pure trivial
  have block (id : BlockId) (entry : BlockEntry) : Keeps inv (hierarchy.resolveBlock id entry) :=
    (Query.Meets.mapM fun item _ => call entry.method item).bind fun _ _ => .pure trivial
  exact (Query.Meets.mapM fun entry _ => block entry.1 entry.2).mono fun _ _ => trivial

theorem memosAfter (request : Request) {memos : Memos} (start : inv memos) :
    inv (hierarchy.memosAfter memos request) := by
  cases request with
  | subClasses id => exact (maintains.keeps_subClasses id memos start).1
  | subClassesIncluding id => exact (maintains.keeps_subClassesIncluding id memos start).1
  | subInterfaces id => exact (maintains.keeps_subInterfaces id memos start).1
  | subInterfacesIncluding id => exact (maintains.keeps_subInterfacesIncluding id memos start).1
  | implementers id => exact (maintains.keeps_implementers id memos start).1
  | abstractTargets id method => exact (maintains.keeps_abstractTargets id method memos start).1
  | targets kind method container =>
      exact (maintains.keeps_targets kind method container memos start).1
  | build options schedule =>
      have kept := (maintains.keeps_resolveBlocks schedule memos start).1
      change inv (CallGraph.buildScheduled hierarchy options schedule memos).2
      unfold CallGraph.buildScheduled
      generalize hierarchy.resolveBlocks schedule memos = result at kept
      obtain ⟨_ | blocks, later⟩ := result
      · exact kept
      · dsimp only
        split <;> exact kept

theorem foldl_memosAfter (requests : List Request) {memos : Memos} (start : inv memos) :
    inv (requests.foldl hierarchy.memosAfter memos) := by
  induction requests generalizing memos with
  | nil => exact start
  | cons request requests ih => exact ih (maintains.memosAfter request start)

end Maintains

theorem closeUnderSubClasses_ensures {hierarchy : Hierarchy} {inv : Memos → Prop}
    {relation : ClassId → List ClassId → Prop}
    (closure : ∀ id, Ensures inv (hierarchy.subClassClosure id) (relation id))
    (ids : List ClassId) :
    Ensures inv (hierarchy.closeUnderSubClasses ids) fun closed =>
      ∃ groups, List.Forall₂ (fun id group => ∃ below, relation id below ∧ group = below ++ [id])
        ids groups ∧ closed = groups.flatten.eraseDups := by
  refine Ensures.bind (Ensures.mapM fun id _ => ?_)
    fun groups related => .pure ⟨groups, related, rfl⟩
  exact (closure id).bind fun below related => .pure ⟨below, related, rfl⟩

theorem implementerTable_closed {program : Program} {policy : Policy} {inv : Memos → Prop}
    {relation : ClassId → List ClassId → Prop}
    (closure : ∀ id, Ensures inv ((tables program policy).subClassClosure id) (relation id))
    (start : inv ⟨.empty, .empty⟩) :
    List.Forall₂ (fun ids row => ∃ groups,
        List.Forall₂ (fun id group => ∃ below, relation id below ∧ group = below ++ [id])
          ids groups ∧ row = groups.flatten.eraseDups)
      (program.classIds.map program.directImplementers)
      (ofProgram program policy).1.implementerTable.toList :=
  (Ensures.mapM (fun ids _ => closeUnderSubClasses_ensures closure ids) _ start).2

theorem ofProgram_maintains {program : Program} {policy : Policy} {inv : Memos → Prop}
    (maintains : (tables program policy).Maintains inv) :
    (ofProgram program policy).1.Maintains inv :=
  ⟨maintains.subClasses, maintains.subInterfaces⟩

/-- An invariant of closures that holds of no memos at all holds after every history. -/
theorem inv_afterHistory {program : Program} {policy : Policy} {inv : Memos → Prop}
    (maintains : (tables program policy).Maintains inv) (start : inv ⟨.empty, .empty⟩)
    (requests : List Request) : inv (afterHistory program policy requests).2 := by
  apply (ofProgram_maintains maintains).foldl_memosAfter
  have closing := Ensures.mapM fun ids
      (_ : ids ∈ (tables program policy).implementerTable.toList) =>
    closeUnderSubClasses_ensures maintains.subClasses ids
  exact (closing _ start).1

end Hierarchy

end CallResolution

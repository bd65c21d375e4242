import CallResolution.Proofs.Building
import CallResolution.Proofs.Figures

/-!
Answers that stand. A memo is only ever added to, and whatever a question looks up it has
recorded by the time it is answered. So it finds the same answer again, however much was asked
in between, even where a cycle makes the first answer depend on what was asked before.
-/

namespace CallResolution

namespace Search

variable {α : Type} [DecidableEq α]

def Memo.Grows (memo later : Memo α) : Prop :=
  ∀ node known, memo.get? node = some known → later.get? node = some known

theorem Memo.Grows.trans {memo middle later : Memo α} (first : memo.Grows middle)
    (second : middle.Grows later) : memo.Grows later :=
  fun node known recorded => second node known (first node known recorded)

theorem closure_grows (children : α → List α) (domain : List α) (root : α) (memo : Memo α) :
    memo.Grows (closure children domain root memo).2 := by
  intro node known recorded
  unfold closure
  cases asked : memo.get? root with
  | some answer => exact recorded
  | none =>
      have different : node ≠ root := by
        rintro rfl
        cases asked.symm.trans recorded
      simp [different, recorded]

theorem closure_records (children : α → List α) (domain : List α) (root : α) (memo : Memo α) :
    (closure children domain root memo).2.get? root =
      some (closure children domain root memo).1 := by
  unfold closure
  cases asked : memo.get? root with
  | some answer => exact asked
  | none => simp

theorem closure_again {children : α → List α} {domain : List α} {root : α} {memo later : Memo α}
    (grown : (closure children domain root memo).2.Grows later) :
    (closure children domain root later).1 = (closure children domain root memo).1 := by
  have recorded := grown root _ (closure_records children domain root memo)
  rw [closure, recorded]

end Search

structure Memos.Grows (memos later : Memos) : Prop where
  subClasses : memos.subClasses.Grows later.subClasses
  subInterfaces : memos.subInterfaces.Grows later.subInterfaces

theorem Memos.Grows.refl (memos : Memos) : memos.Grows memos :=
  ⟨fun _ _ recorded => recorded, fun _ _ recorded => recorded⟩

theorem Memos.Grows.trans {memos middle later : Memos} (first : memos.Grows middle)
    (second : middle.Grows later) : memos.Grows later :=
  ⟨first.subClasses.trans second.subClasses, first.subInterfaces.trans second.subInterfaces⟩

/-- The action only adds to the memos, and with its additions kept it always ends with the same
value. -/
structure Stands {α : Type} (action : Memos → α × Memos) : Prop where
  grows : ∀ memos : Memos, memos.Grows (action memos).2
  again : ∀ memos later : Memos, (action memos).2.Grows later → (action later).1 = (action memos).1

namespace Stands

variable {α β : Type}

theorem pure (value : α) : Stands (Pure.pure value : Query α) :=
  ⟨Memos.Grows.refl, fun _ _ _ => rfl⟩

theorem ofExcept (answer : Except QueryError α) : Stands (Query.ofExcept answer) :=
  ⟨Memos.Grows.refl, fun _ _ _ => rfl⟩

theorem ofClosure {action : StateM Memos α} (stands : Stands action) :
    Stands (Query.ofClosure action) :=
  ⟨stands.grows, fun memos later grown => congrArg Except.ok (stands.again memos later grown)⟩

theorem observe {query : Query α} (stands : Stands query) : Stands query.observe :=
  ⟨stands.grows, fun memos later grown => congrArg Except.ok (stands.again memos later grown)⟩

theorem bind {query : Query α} {next : α → Query β} (first : Stands query)
    (second : ∀ value, Stands (next value)) : Stands (query >>= next) := by
  constructor
  · intro memos
    have grown := first.grows memos
    rw [Query.bind_apply]
    generalize query memos = result at grown
    obtain ⟨answer, middle⟩ := result
    cases answer with
    | error error => exact grown
    | ok value => exact grown.trans ((second value).grows middle)
  · intro memos later grown
    have sameFirst := first.again memos later
    have grownAgain := first.grows later
    rw [Query.bind_apply] at grown ⊢
    rw [Query.bind_apply]
    generalize query memos = result at grown sameFirst
    generalize query later = repeated at sameFirst grownAgain
    obtain ⟨answer, middle⟩ := result
    obtain ⟨answerAgain, middleAgain⟩ := repeated
    cases answer with
    | error error =>
        obtain rfl : answerAgain = .error error := sameFirst grown
        rfl
    | ok value =>
        -- What the second part recorded is still there when the first part is asked again.
        obtain rfl : answerAgain = .ok value :=
          sameFirst (((second value).grows middle).trans grown)
        exact (second value).again middle middleAgain (grown.trans grownAgain)

theorem mapM {step : α → Query β} (each : ∀ item, Stands (step item)) (items : List α) :
    Stands (items.mapM step) := by
  induction items with
  | nil => exact pure []
  | cons item items ih =>
      rw [List.mapM_cons]
      exact (each item).bind fun value => ih.bind fun values => pure (value :: values)

end Stands

namespace Hierarchy

variable (hierarchy : Hierarchy)

theorem subClassClosure_stands (id : ClassId) : Stands (hierarchy.subClassClosure id) where
  grows _ := ⟨Search.closure_grows _ _ _ _, fun _ _ recorded => recorded⟩
  again _ _ grown := Search.closure_again grown.subClasses

theorem subInterfaceClosure_stands (id : ClassId) : Stands (hierarchy.subInterfaceClosure id) where
  grows _ := ⟨fun _ _ recorded => recorded, Search.closure_grows _ _ _ _⟩
  again _ _ grown := Search.closure_again grown.subInterfaces

theorem maintains_grows (start : Memos) : hierarchy.Maintains start.Grows where
  subClasses id memos grown :=
    ⟨grown.trans ((hierarchy.subClassClosure_stands id).grows memos), trivial⟩
  subInterfaces id memos grown :=
    ⟨grown.trans ((hierarchy.subInterfaceClosure_stands id).grows memos), trivial⟩

theorem subClasses_stands (id : ClassId) : Stands (hierarchy.subClasses id) :=
  (Stands.ofExcept _).bind fun _ => .ofClosure (hierarchy.subClassClosure_stands id)

theorem subClassesIncluding_stands (id : ClassId) : Stands (hierarchy.subClassesIncluding id) :=
  (hierarchy.subClasses_stands id).bind fun below => .pure (below ++ [id])

theorem subInterfaces_stands (id : ClassId) : Stands (hierarchy.subInterfaces id) :=
  (Stands.ofExcept _).bind fun _ => .ofClosure (hierarchy.subInterfaceClosure_stands id)

theorem subInterfacesIncluding_stands (id : ClassId) :
    Stands (hierarchy.subInterfacesIncluding id) :=
  (hierarchy.subInterfaces_stands id).bind fun below => .pure (below ++ [id])

theorem implementers_stands (id : ClassId) : Stands (hierarchy.implementers id) :=
  (hierarchy.subInterfacesIncluding_stands id).bind fun _ => .pure _

theorem receivers_stands (id : ClassId) : Stands (hierarchy.receivers id) := by
  refine (Stands.ofExcept _).bind fun entry => ?_
  split
  · refine (hierarchy.implementers_stands id).bind fun implementers => ?_
    refine (Stands.mapM hierarchy.subClassesIncluding_stands implementers).bind fun groups => ?_
    exact .pure groups.flatten.eraseDups
  · exact hierarchy.subClassesIncluding_stands id

theorem abstractTargets_stands (id : ClassId) (method : MethodId) :
    Stands (hierarchy.abstractTargets id method) :=
  (hierarchy.receivers_stands id).bind fun _ => .ofExcept _

theorem targets_stands (kind : InvocationKind) (method container : MethodId) :
    Stands (hierarchy.targets kind method container) := by
  refine targets_cases (motive := fun query => Stands query) ?_ ?_ ?_ kind
  · exact (Stands.ofExcept _).bind fun entry => hierarchy.abstractTargets_stands entry.owner method
  · exact (Stands.ofExcept _).bind fun target => .pure [target]
  · exact .pure [method]

theorem resolveCall_stands (caller : MethodId) (invocation : Invocation) :
    Stands (hierarchy.resolveCall caller invocation) := by
  unfold resolveCall
  split
  · exact .pure _
  · split
    · exact .pure _
    · refine (hierarchy.targets_stands _ _ _).observe.bind fun answer => ?_
      split
      · exact .pure _
      · exact .pure _
      · split
        · exact .pure _
        · exact .ofExcept (.error _)

theorem resolveBlocks_stands (schedule : List (BlockId × BlockEntry)) :
    Stands (hierarchy.resolveBlocks schedule) := by
  refine Stands.mapM (fun entry => ?_) schedule
  refine (Stands.mapM (fun call => ?_) _).bind fun calls => .pure _
  exact (hierarchy.resolveCall_stands _ call.2).bind fun outcome => .pure _

end Hierarchy

theorem CallGraph.buildScheduled_again {hierarchy : Hierarchy} {options : BuildOptions}
    (others : BuildOptions) {schedule : List (BlockId × BlockEntry)} {memos later : Memos}
    (grown : (buildScheduled hierarchy options schedule memos).2.Grows later) :
    (buildScheduled hierarchy others schedule later).1 =
      (buildScheduled hierarchy options schedule memos).1.map fun result =>
        (result.1.withOptions others, result.2) := by
  have again := (hierarchy.resolveBlocks_stands schedule).again memos later
  unfold buildScheduled at grown ⊢
  generalize hierarchy.resolveBlocks schedule memos = result at grown again
  generalize hierarchy.resolveBlocks schedule later = repeated at again
  obtain ⟨answer, middle⟩ := result
  obtain ⟨answerAgain, _⟩ := repeated
  cases answer with
  | error error =>
      obtain rfl : answerAgain = .error error := again grown
      rfl
  | ok blocks =>
      dsimp only at grown ⊢
      have kept : middle.Grows later := by split at grown <;> exact grown
      obtain rfl : answerAgain = .ok blocks := again kept
      dsimp only
      rw [merge_withOptions options others]
      cases merge options (inBlockOrder hierarchy.program blocks) <;> rfl

inductive Question where
  | subClasses (id : ClassId)
  | subClassesIncluding (id : ClassId)
  | subInterfaces (id : ClassId)
  | subInterfacesIncluding (id : ClassId)
  | implementers (id : ClassId)
  | concreteTarget (receiver : ClassId) (method : MethodId)
  | abstractTargets (id : ClassId) (method : MethodId)
  | specialTarget (method container : MethodId)
  | targets (kind : InvocationKind) (method container : MethodId)

abbrev Question.Answer : Question → Type
  | .concreteTarget .. | .specialTarget .. => MethodId
  | .abstractTargets .. | .targets .. => List MethodId
  | _ => List ClassId

namespace Hierarchy

def ask (hierarchy : Hierarchy) : (question : Question) → Query question.Answer
  | .subClasses id => hierarchy.subClasses id
  | .subClassesIncluding id => hierarchy.subClassesIncluding id
  | .subInterfaces id => hierarchy.subInterfaces id
  | .subInterfacesIncluding id => hierarchy.subInterfacesIncluding id
  | .implementers id => hierarchy.implementers id
  | .concreteTarget receiver method => Query.ofExcept (hierarchy.concreteTarget receiver method)
  | .abstractTargets id method => hierarchy.abstractTargets id method
  | .specialTarget method container => Query.ofExcept (hierarchy.specialTarget method container)
  | .targets kind method container => hierarchy.targets kind method container

theorem ask_stands (hierarchy : Hierarchy) (question : Question) :
    Stands (hierarchy.ask question) := by
  cases question with
  | subClasses id => exact hierarchy.subClasses_stands id
  | subClassesIncluding id => exact hierarchy.subClassesIncluding_stands id
  | subInterfaces id => exact hierarchy.subInterfaces_stands id
  | subInterfacesIncluding id => exact hierarchy.subInterfacesIncluding_stands id
  | implementers id => exact hierarchy.implementers_stands id
  | concreteTarget receiver method => exact .ofExcept _
  | abstractTargets id method => exact hierarchy.abstractTargets_stands id method
  | specialTarget method container => exact .ofExcept _
  | targets kind method container => exact hierarchy.targets_stands kind method container

/-- A question gets the same answer or the same error every time, and a call graph built again
is the same graph with the same messages. -/
theorem answers_stand {classes : List ClassDecl} {detached : List DetachedMethod}
    {program : Program} (loaded : Program.load classes detached = .ok program) (policy : Policy)
    (requests : List Request) :
    let built := afterHistory program policy requests
    (∀ question (between : List Request),
      let first := built.1.ask question built.2
      (built.1.ask question (between.foldl built.1.memosAfter first.2)).1 = first.1) ∧
    ∀ options others (between : List Request), ∃ callGraph events,
      let first := CallGraph.build built.1 options built.2
      first.1 = .ok (callGraph, events) ∧
      (CallGraph.build built.1 others (between.foldl built.1.memosAfter first.2)).1 =
        .ok (callGraph.withOptions others, events) := by
  intro built
  have later (start : Memos) (between : List Request) :
      start.Grows (between.foldl built.1.memosAfter start) :=
    (built.1.maintains_grows start).foldl_memosAfter between (.refl start)
  refine ⟨fun question between => ?_, fun options others between => ?_⟩
  · exact (built.1.ask_stands question).again _ _ (later _ between)
  · obtain ⟨_, callGraph, _, result, _⟩ := CallGraph.buildScheduled_merges
      (Program.load_wellFormed loaded) options (List.Perm.refl program.blockEntries)
      (exact_afterHistory program policy requests)
    have first := congrArg Prod.fst result
    refine ⟨callGraph, _, first, ?_⟩
    have second := CallGraph.buildScheduled_again others
      (later (CallGraph.build built.1 options built.2).2 between)
    exact second.trans (congrArg (Except.map _) first)

theorem answers_stand_tangled :
    let built := afterHistory CallGraph.tangledProgram .precise [.subClasses ⟨2⟩]
    let between : List Request := [.subInterfaces ⟨1⟩, .abstractTargets ⟨3⟩ ⟨1⟩,
      .build .standard CallGraph.tangledProgram.blockEntries.reverse]
    let first := built.1.ask (.targets .interface ⟨0⟩ ⟨1⟩) built.2
    (built.1.ask (.targets .interface ⟨0⟩ ⟨1⟩) (between.foldl built.1.memosAfter first.2)).1 =
      first.1 ∧
    ∃ callGraph events, let first := CallGraph.build built.1 .sequential built.2
      first.1 = .ok (callGraph, events) ∧
      (CallGraph.build built.1 .minimal (between.foldl built.1.memosAfter first.2)).1 =
        .ok (callGraph.withOptions .minimal, events) := by
  have stand := answers_stand CallGraph.tangledProgram_loaded .precise [.subClasses ⟨2⟩]
  exact ⟨stand.1 (.targets .interface ⟨0⟩ ⟨1⟩) _, stand.2 .sequential .minimal _⟩

end Hierarchy

end CallResolution

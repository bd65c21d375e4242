import CallResolution.Proofs.Building
import CallResolution.Proofs.VirtualDispatch

/-!
Programs in which everything is public. The two visibility rules ask about different methods from
different classes, but where every answer is yes, a dispatch takes the same way under both. Only
the dispatch on one receiver looks at the rule; whatever is asked through it then agrees, with the
memos that are left behind.
-/

namespace CallResolution

theorem bind_congr_of_ok {ε α β : Type} {answer : Except ε α} {next other : α → Except ε β}
    (same : ∀ value, answer = .ok value → next value = other value) :
    (answer >>= next) = (answer >>= other) := by
  cases answer with
  | error error => rfl
  | ok value => exact same value rfl

namespace Program

variable {program : Program}

def allPublic (program : Program) : Bool :=
  program.classes.all (·.modifiers.isPublic) && program.methods.all (·.modifiers.isPublic)

theorem class_isPublic (allPublic : program.allPublic = true) {id : ClassId} {entry : ClassEntry}
    (listed : program.class? id = some entry) : entry.modifiers.isPublic = true := by
  rw [Program.allPublic, Bool.and_eq_true] at allPublic
  exact Array.all_eq_true_iff_forall_mem.mp allPublic.1 entry (Array.mem_of_getElem? listed)

theorem method_isPublic (allPublic : program.allPublic = true) {id : MethodId}
    {entry : MethodEntry} (named : program.method? id = some entry) :
    entry.modifiers.isPublic = true := by
  rw [Program.allPublic, Bool.and_eq_true] at allPublic
  exact Array.all_eq_true_iff_forall_mem.mp allPublic.2 entry (Array.mem_of_getElem? named)

theorem methodVisible_of_allPublic (wellFormed : program.WellFormed)
    (allPublic : program.allPublic = true) {viewer : ClassId} {viewerEntry : ClassEntry}
    {method : MethodId} {entry : MethodEntry}
    (viewerListed : program.class? viewer = some viewerEntry)
    (named : program.method? method = some entry) :
    program.methodVisible viewer method = .ok true := by
  have bound := wellFormed.ownerBound method entry named
  have ownerListed : program.class? entry.owner = some program.classes[entry.owner.index] := by
    simp [class?, bound]
  rw [methodVisible_eq named viewerListed ownerListed, class_isPublic allPublic ownerListed, admits,
    method_isPublic allPublic named]
  rfl

end Program

namespace Hierarchy

def withVisibility (hierarchy : Hierarchy) (rule : VisibilityRule) : Hierarchy :=
  { hierarchy with policy := { hierarchy.policy with visibility := rule } }

theorem ofProgram_withVisibility (program : Program) (policy : Policy) (rule : VisibilityRule) :
    ofProgram program { policy with visibility := rule } =
      ((ofProgram program policy).1.withVisibility rule, (ofProgram program policy).2) :=
  rfl

theorem accepts_of_allPublic (hierarchy : Hierarchy) (wellFormed : hierarchy.program.WellFormed)
    (allPublic : hierarchy.program.allPublic = true) {receiver declarer : ClassId}
    {receiverEntry declarerEntry : ClassEntry} {requested candidate : MethodId}
    {requestedEntry candidateEntry : MethodEntry}
    (receiverListed : hierarchy.program.class? receiver = some receiverEntry)
    (requestedNamed : hierarchy.program.method? requested = some requestedEntry)
    (declarerListed : hierarchy.program.class? declarer = some declarerEntry)
    (candidateNamed : hierarchy.program.method? candidate = some candidateEntry) :
    hierarchy.accepts receiver requested declarer candidate = .ok true := by
  unfold accepts
  split
  · exact Program.methodVisible_of_allPublic wellFormed allPublic declarerListed requestedNamed
  · exact Program.methodVisible_of_allPublic wellFormed allPublic receiverListed candidateNamed

section AllPublic

variable {hierarchy : Hierarchy} (wellFormed : hierarchy.program.WellFormed)
  (allPublic : hierarchy.program.allPublic = true) (rule : VisibilityRule)

section Climb

variable {receiver : ClassId} {receiverEntry : ClassEntry} {requested : MethodId}
  {requestedEntry : MethodEntry}
  (receiverListed : hierarchy.program.class? receiver = some receiverEntry)
  (requestedNamed : hierarchy.program.method? requested = some requestedEntry)
  (signature : Signature)

include wellFormed allPublic receiverListed requestedNamed

theorem acceptedAmong?_withVisibility {declarer : ClassId} {declarerEntry : ClassEntry}
    (declarerListed : hierarchy.program.class? declarer = some declarerEntry)
    (candidates : List MethodId) :
    (hierarchy.withVisibility rule).acceptedAmong? receiver requested signature declarer
        candidates =
      hierarchy.acceptedAmong? receiver requested signature declarer candidates := by
  have answers (candidate : MethodId) :
      (hierarchy.withVisibility rule).answersWith receiver requested signature declarer candidate =
        hierarchy.answersWith receiver requested signature declarer candidate := by
    refine bind_congr_of_ok fun entry required => ?_
    have candidateNamed := Program.requireMethod_eq_ok.mp required
    rw [accepts_of_allPublic hierarchy wellFormed allPublic receiverListed requestedNamed
        declarerListed candidateNamed,
      accepts_of_allPublic (hierarchy.withVisibility rule) wellFormed allPublic receiverListed
        requestedNamed declarerListed candidateNamed]
  induction candidates with
  | nil => rfl
  | cons candidate rest ih => simp only [acceptedAmong?, answers, ih]

theorem acceptedIn?_withVisibility (classes : List ClassId) :
    (hierarchy.withVisibility rule).acceptedIn? receiver requested signature classes =
      hierarchy.acceptedIn? receiver requested signature classes := by
  induction classes with
  | nil => rfl
  | cons declarer above ih =>
      refine bind_congr_of_ok fun entry required => ?_
      rw [acceptedAmong?_withVisibility wellFormed allPublic rule receiverListed requestedNamed
        signature (Program.requireEntry_eq_ok.mp required), ih]

end Climb

include wellFormed allPublic

theorem concreteTarget_withVisibility :
    (hierarchy.withVisibility rule).concreteTarget = hierarchy.concreteTarget := by
  funext receiver method
  refine bind_congr_of_ok fun receiverEntry required => bind_congr_of_ok fun requested named =>
    bind_congr_of_ok fun classes _ => ?_
  obtain ⟨_, listed, _⟩ := bind_eq_ok.mp required
  rw [acceptedIn?_withVisibility wellFormed allPublic rule (Program.requireEntry_eq_ok.mp listed)
    (Program.requireMethod_eq_ok.mp named)]

theorem specialTarget_withVisibility :
    (hierarchy.withVisibility rule).specialTarget = hierarchy.specialTarget := by
  funext method container
  unfold specialTarget
  rw [concreteTarget_withVisibility wellFormed allPublic rule]
  rfl

theorem abstractTargets_withVisibility :
    (hierarchy.withVisibility rule).abstractTargets = hierarchy.abstractTargets := by
  have each : (hierarchy.withVisibility rule).targetOn = hierarchy.targetOn := by
    funext method receiver
    unfold targetOn
    rw [concreteTarget_withVisibility wellFormed allPublic rule]
    rfl
  funext id method
  unfold abstractTargets targetsOn
  rw [each]
  rfl

theorem targets_withVisibility :
    (hierarchy.withVisibility rule).targets = hierarchy.targets := by
  funext kind method container
  unfold targets
  rw [abstractTargets_withVisibility wellFormed allPublic rule,
    specialTarget_withVisibility wellFormed allPublic rule]
  rfl

theorem resolveBlocks_withVisibility :
    (hierarchy.withVisibility rule).resolveBlocks = hierarchy.resolveBlocks := by
  have call : (hierarchy.withVisibility rule).resolveCall = hierarchy.resolveCall := by
    funext caller invocation
    unfold resolveCall
    rw [targets_withVisibility wellFormed allPublic rule]
    rfl
  unfold resolveBlocks resolveBlock
  rw [call]

theorem buildScheduled_withVisibility :
    CallGraph.buildScheduled (hierarchy.withVisibility rule) =
      CallGraph.buildScheduled hierarchy := by
  unfold CallGraph.buildScheduled
  rw [resolveBlocks_withVisibility wellFormed allPublic rule]
  rfl

theorem memosAfter_withVisibility :
    (hierarchy.withVisibility rule).memosAfter = hierarchy.memosAfter := by
  funext memos request
  cases request with
  | subClasses id => rfl
  | subClassesIncluding id => rfl
  | subInterfaces id => rfl
  | subInterfacesIncluding id => rfl
  | implementers id => rfl
  | abstractTargets id method =>
      simp only [memosAfter, abstractTargets_withVisibility wellFormed allPublic rule]
  | targets kind method container =>
      simp only [memosAfter, targets_withVisibility wellFormed allPublic rule]
  | build options schedule =>
      simp only [memosAfter, buildScheduled_withVisibility wellFormed allPublic rule]

end AllPublic

theorem afterHistory_withVisibility {program : Program} (wellFormed : program.WellFormed)
    (allPublic : program.allPublic = true) (policy : Policy) (rule : VisibilityRule)
    (requests : List Request) :
    afterHistory program { policy with visibility := rule } requests =
      ((afterHistory program policy requests).1.withVisibility rule,
        (afterHistory program policy requests).2) := by
  have steps : ((ofProgram program policy).1.withVisibility rule).memosAfter =
      (ofProgram program policy).1.memosAfter :=
    memosAfter_withVisibility wellFormed allPublic rule
  simp only [afterHistory, ofProgram_withVisibility, steps]

/-- Where everything is public, it does not matter which method a dispatch wants to be visible. -/
theorem visibility_rules_coincide {program : Program} {classes : List ClassDecl}
    {detached : List DetachedMethod} (loaded : Program.load classes detached = .ok program)
    (allPublic : program.allPublic = true) (policy : Policy) (rule : VisibilityRule)
    (requests : List Request) :
    let built := afterHistory program policy requests
    let other := afterHistory program { policy with visibility := rule } requests
    other.2 = built.2 ∧ other.1.concreteTarget = built.1.concreteTarget ∧
    other.1.specialTarget = built.1.specialTarget ∧
    (∀ id method, other.1.abstractTargets id method other.2 =
      built.1.abstractTargets id method built.2) ∧
    (∀ kind method container, other.1.targets kind method container other.2 =
      built.1.targets kind method container built.2) ∧
    ∀ options, ∃ callGraph events later,
      CallGraph.build built.1 options built.2 = (.ok (callGraph, events), later) ∧
      CallGraph.build other.1 options other.2 = (.ok (callGraph, events), later) := by
  intro built other
  have wellFormed := Program.load_wellFormed loaded
  have same : other = (built.1.withVisibility rule, built.2) :=
    afterHistory_withVisibility wellFormed allPublic policy rule requests
  have memos : other.2 = built.2 := by rw [same]
  refine ⟨memos, ?_⟩
  simp only [same]
  refine ⟨concreteTarget_withVisibility wellFormed allPublic rule,
    specialTarget_withVisibility wellFormed allPublic rule, fun id method => ?_,
    fun kind method container => ?_, fun options => ?_⟩
  · rw [abstractTargets_withVisibility wellFormed allPublic rule]
  · rw [targets_withVisibility wellFormed allPublic rule]
  · have held := exact_afterHistory program policy requests
    obtain ⟨_, callGraph, later, builds, _⟩ :=
      CallGraph.buildScheduled_merges wellFormed options (List.Perm.refl _) held
    refine ⟨callGraph, _, later, builds, ?_⟩
    rw [CallGraph.build, buildScheduled_withVisibility wellFormed allPublic rule]
    exact builds

def openClasses : List ClassDecl :=
  let run : Signature := ⟨"run", []⟩
  let calls (kind : InvocationKind) (className : String) : Statement :=
    .invoke ⟨kind, className, run⟩
  [⟨"A", some "B", ["I"], .publicBit,
      [⟨run, .publicBit, [[calls .virtual "B", calls .interface "I"]]⟩]⟩,
    ⟨"B", some "A", [], .publicBit, [⟨run, .publicBit, [[calls .special "A"]]⟩]⟩,
    ⟨"I", none, [], .union .publicBit .interfaceBit, [⟨run, .publicBit, []⟩]⟩]

def openProgram : Program :=
  (Program.load openClasses []).toOption.getD .empty

theorem visibility_rules_coincide_open :
    let requests : List Request := [.subClasses ⟨1⟩, .targets .interface ⟨2⟩ ⟨0⟩]
    let built := afterHistory openProgram .standard requests
    let other := afterHistory openProgram { Policy.standard with visibility := .candidate } requests
    openProgram.allPublic = true ∧ other.2 = built.2 ∧
    other.1.concreteTarget ⟨1⟩ ⟨0⟩ = built.1.concreteTarget ⟨1⟩ ⟨0⟩ ∧
    other.1.specialTarget ⟨0⟩ ⟨1⟩ = built.1.specialTarget ⟨0⟩ ⟨1⟩ ∧
    other.1.abstractTargets ⟨2⟩ ⟨2⟩ other.2 = built.1.abstractTargets ⟨2⟩ ⟨2⟩ built.2 ∧
    other.1.targets .virtual ⟨3⟩ ⟨0⟩ other.2 = built.1.targets .virtual ⟨3⟩ ⟨0⟩ built.2 ∧
    ∃ callGraph events later,
      CallGraph.build built.1 .sequential built.2 = (.ok (callGraph, events), later) ∧
      CallGraph.build other.1 .sequential other.2 = (.ok (callGraph, events), later) := by
  intro requests built other
  have loaded : Program.load openClasses [] = .ok openProgram := by decide +kernel
  have allPublic : openProgram.allPublic = true := by decide +kernel
  obtain ⟨memos, concrete, special, classes, kinds, builds⟩ :=
    visibility_rules_coincide loaded allPublic .standard .candidate requests
  exact ⟨allPublic, memos, congrFun (congrFun concrete _) _, congrFun (congrFun special _) _,
    classes _ _, kinds _ _ _, builds .sequential⟩

end Hierarchy

end CallResolution

import CallResolution.Proofs.CallSites
import CallResolution.Proofs.Integrity
import CallResolution.Proofs.Recorded
import CallResolution.Proofs.Resolved

/-!
Building a call graph of a loaded program. It always succeeds, whatever the program looks
like and whatever was asked before, and the graph shows exactly the calls of the program.
-/

namespace CallResolution

open Resolution

def Invocation.LeadsTo (invocation : Invocation) (program : Program) (targets : List MethodId) :
    Prop :=
  targets.Nodup ∧
    ((program.findMethod? invocation.className invocation.signature).isSome = true → targets ≠ [])

namespace Hierarchy

variable {program : Program} {policy : Policy}

theorem Resolves.leadsTo {hierarchy : Hierarchy} {caller : MethodId} {invocation : Invocation}
    {target : CallTarget} (resolves : hierarchy.Resolves caller invocation target) :
    invocation.LeadsTo hierarchy.program target.targets := by
  cases resolves with
  | external unknown => exact ⟨List.nodup_nil, by simp [Program.findMethod?, unknown]⟩
  | missing _ unnamed => exact ⟨List.nodup_nil, by simp [unnamed]⟩
  | resolved _ nonempty gathers => exact ⟨gathers.unique, fun _ => nonempty⟩
  | unresolved => exact ⟨List.nodup_singleton _, by simp [CallTarget.targets]⟩

theorem resolveCall_meets (wellFormed : program.WellFormed) {caller : MethodId}
    (callerBound : caller.index < program.methods.size) (invocation : Invocation) :
    Query.Meets (tables program policy).Exact
      ((ofProgram program policy).1.resolveCall caller invocation)
      (fun outcome => invocation.LeadsTo program outcome.1.targets) fun _ => False :=
  (resolveCall_resolves wellFormed callerBound invocation).mono fun _ resolves =>
    resolves.leadsTo

theorem resolveSites_eq_ok (wellFormed : program.WellFormed) {sites : List CallSite}
    (unique : sites.Nodup) (callers : ∀ site ∈ sites, site.caller.index < program.methods.size)
    {memos : Memos} (held : (tables program policy).Exact memos) :
    let hierarchy := (ofProgram program policy).1
    ∃ outcome later, hierarchy.resolveSites sites memos = (.ok (sites.map outcome), later) ∧
      ∀ site ∈ sites, hierarchy.Resolves site.caller site.invocation (outcome site).1 := by
  have meets : Query.Meets (tables program policy).Exact
      ((ofProgram program policy).1.resolveSites sites) _ fun _ => False :=
    Query.Meets.mapM fun site member =>
      resolveCall_resolves wellFormed (callers site member) site.invocation
  obtain ⟨outcomes, answered, related⟩ := (meets memos held).2.exists_ok
  obtain ⟨outcome, same, holds⟩ := exists_map_of_forall₂ (.external, none) unique related
  exact ⟨outcome, _, Prod.ext (answered.trans (congrArg Except.ok same)) rfl, holds⟩

end Hierarchy

namespace Program

/-- The methods that come up in the program when each site leads to the given targets: for
every block its own method, then the targets of its calls. -/
def mentions (program : Program) (targets : CallSite → List MethodId) : List MethodId :=
  program.blockEntries.flatMap fun entry => entry.2.method :: (sitesOf entry).flatMap targets

def resolutions (program : Program) (targets : CallSite → List MethodId) : List Resolution :=
  program.callSites.flatMap fun site => (targets site).map fun target => (site, target)

variable {program : Program} {targets : CallSite → List MethodId}

theorem sitesOn_targets {site : CallSite} {targets : List MethodId} (unique : targets.Nodup)
    (caller callee : MethodId) :
    sitesOn (targets.map fun target => (site, target)) (caller, callee) =
      if site.caller = caller ∧ callee ∈ targets then [site] else [] := by
  induction targets with
  | nil => simp [sitesOn]
  | cons target targets ih =>
      obtain ⟨apart, restUnique⟩ := List.nodup_cons.mp unique
      rw [List.map_cons, ← List.singleton_append, sitesOn_append, sitesOn_singleton, ih restUnique]
      simp only [Resolution.link, Prod.mk.injEq, List.mem_cons]
      by_cases here : target = callee
      · subst here
        simp [apart]
      · simp [here, Ne.symm here]

theorem sitesOn_resolutions (unique : ∀ site ∈ program.callSites, (targets site).Nodup)
    (caller callee : MethodId) :
    sitesOn (program.resolutions targets) (caller, callee) =
      program.callSites.filter fun site => site.caller = caller ∧ callee ∈ targets site := by
  unfold resolutions
  generalize program.callSites = sites at unique
  induction sites with
  | nil => rfl
  | cons site sites ih =>
      have rest := ih fun other member => unique other (by simp [member])
      rw [List.flatMap_cons, sitesOn_append, sitesOn_targets (unique site (by simp)), rest,
        List.filter_cons]
      by_cases listed : site.caller = caller ∧ callee ∈ targets site <;> simp [listed]

end Program

namespace CallGraph

variable {program : Program} {policy : Policy}

/-- What building comes down to: every site has an outcome, and the blocks with the outcomes of
their sites are merged in block order. -/
theorem buildScheduled_merges (wellFormed : program.WellFormed) (options : BuildOptions)
    {schedule : List (BlockId × BlockEntry)} (shuffled : schedule.Perm program.blockEntries)
    {memos : Memos} (held : (Hierarchy.tables program policy).Exact memos) :
    ∃ outcome callGraph later,
      buildScheduled (Hierarchy.ofProgram program policy).1 options schedule memos =
        (.ok (callGraph, warnings (schedule.map (BlockCalls.ofEntry outcome)) ++
          [callGraph.builtEvent]), later) ∧
      (Hierarchy.ofProgram program policy).1.resolveSites (Program.sitesIn schedule) memos =
        (.ok ((Program.sitesIn schedule).map outcome), later) ∧
      (∀ site ∈ program.callSites, (Hierarchy.ofProgram program policy).1.Resolves site.caller
        site.invocation (outcome site).1) ∧
      merge options (program.blockEntries.map (BlockCalls.ofEntry outcome)) = .ok callGraph := by
  have sites : (Program.sitesIn schedule).Perm program.callSites :=
    shuffled.flatMap_right Program.sitesOf
  have unique : (Program.sitesIn schedule).Nodup :=
    sites.nodup_iff.mpr (Program.nodup_callSites program)
  have callers : ∀ site ∈ Program.sitesIn schedule,
      site.caller.index < program.methods.size := by
    intro site member
    obtain ⟨block, listed, caller, _⟩ := Program.mem_sitesIn.mp member
    have found := Program.mem_blockEntries.mp (shuffled.mem_iff.mp listed)
    exact caller ▸ wellFormed.callerBound site.block block found
  obtain ⟨outcome, later, asked, holds⟩ :=
    Hierarchy.resolveSites_eq_ok wellFormed unique callers held
  have resolved := Hierarchy.resolveBlocks_eq_ok asked
  obtain ⟨callGraph, merged, _⟩ := merge_records options
    (program.blockEntries.map (BlockCalls.ofEntry outcome))
  have ordered : inBlockOrder (Hierarchy.ofProgram program policy).1.program
      (schedule.map (BlockCalls.ofEntry outcome)) =
      program.blockEntries.map (BlockCalls.ofEntry outcome) := inBlockOrder_eq shuffled outcome
  refine ⟨outcome, callGraph, later, ?_, asked, fun site member =>
    holds site (sites.mem_iff.mpr member), merged⟩
  unfold buildScheduled
  rw [resolved]
  dsimp only
  rw [ordered, merged]

theorem records_of_merge {options : BuildOptions} {outcome : CallSite → CallTarget × Option Event}
    {callGraph : CallGraph}
    (merged : merge options (program.blockEntries.map (BlockCalls.ofEntry outcome)) =
      .ok callGraph) :
    callGraph.Records (program.mentions fun site => (outcome site).1.targets)
      (program.resolutions fun site => (outcome site).1.targets) := by
  obtain ⟨_, mergedAgain, records⟩ := merge_records options
    (program.blockEntries.map (BlockCalls.ofEntry outcome))
  cases merged.symm.trans mergedAgain
  have mentioned : (program.blockEntries.map (BlockCalls.ofEntry outcome)).flatMap
      BlockCalls.methods = program.mentions fun site => (outcome site).1.targets := by
    simp only [List.flatMap_map, BlockCalls.methods_ofEntry, Program.mentions]
  have placed : (program.blockEntries.map (BlockCalls.ofEntry outcome)).flatMap
      BlockCalls.resolutions = program.resolutions fun site => (outcome site).1.targets := by
    simp only [List.flatMap_map, BlockCalls.resolutions_ofEntry, Program.resolutions,
      Program.callSites, Program.sitesIn, List.flatMap_assoc]
  rw [← mentioned, ← placed]
  exact records

theorem buildScheduled_records (wellFormed : program.WellFormed) (options : BuildOptions)
    {schedule : List (BlockId × BlockEntry)} (shuffled : schedule.Perm program.blockEntries)
    {memos : Memos} (held : (Hierarchy.tables program policy).Exact memos) :
    ∃ outcome callGraph later,
      buildScheduled (Hierarchy.ofProgram program policy).1 options schedule memos =
        (.ok (callGraph, warnings (schedule.map (BlockCalls.ofEntry outcome)) ++
          [callGraph.builtEvent]), later) ∧
      (Hierarchy.ofProgram program policy).1.resolveSites (Program.sitesIn schedule) memos =
        (.ok ((Program.sitesIn schedule).map outcome), later) ∧
      (∀ site ∈ program.callSites,
        site.invocation.LeadsTo program (outcome site).1.targets) ∧
      callGraph.Records (program.mentions fun site => (outcome site).1.targets)
        (program.resolutions fun site => (outcome site).1.targets) := by
  obtain ⟨outcome, callGraph, later, built, asked, resolves, merged⟩ :=
    buildScheduled_merges wellFormed options shuffled held
  exact ⟨outcome, callGraph, later, built, asked,
    fun site member => (resolves site member).leadsTo, records_of_merge merged⟩

def Answered {α : Type} (answer : Except QueryError α) : Prop :=
  (∃ value, answer = .ok value) ∨
    ∃ receiver method, answer = .error (.noConcreteDispatch receiver method)

theorem answered_of_outcome {α : Type} {good : α → Prop} {answer : Except QueryError α}
    (outcome : Outcome good (fun error => error.isRecoverable = true) answer) :
    Answered answer := by
  cases answer with
  | ok value => exact Or.inl ⟨value, rfl⟩
  | error error =>
      cases error with
      | noConcreteDispatch receiver method => exact Or.inr ⟨receiver, method, rfl⟩
      | _ => cases outcome

theorem build_never_fails {classes : List ClassDecl} {detached : List DetachedMethod}
    (loaded : Program.load classes detached = .ok program) (policy : Policy)
    (requests : List Request) :
    let built := Hierarchy.afterHistory program policy requests
    (∀ options, ∃ result, (build built.1 options built.2).1 = .ok result) ∧
    (∀ options schedule, schedule.Perm program.blockEntries →
      ∃ result, (buildScheduled built.1 options schedule built.2).1 = .ok result) ∧
    (∀ (caller : MethodId) invocation, caller.index < program.methods.size →
      ∃ result, (built.1.resolveCall caller invocation built.2).1 = .ok result) ∧
    (∀ (id : ClassId) (method : MethodId), id.index < program.classes.size →
      method.index < program.methods.size →
      Answered (built.1.abstractTargets id method built.2).1) ∧
    (∀ method container : MethodId, method.index < program.methods.size →
      container.index < program.methods.size →
      Answered (built.1.specialTarget method container)) ∧
    (∀ kind (method container : MethodId), method.index < program.methods.size →
      container.index < program.methods.size →
      Answered (built.1.targets kind method container built.2).1) := by
  have wellFormed := Program.load_wellFormed loaded
  have held := Hierarchy.exact_afterHistory program policy requests
  have scheduled (options : BuildOptions) {schedule : List (BlockId × BlockEntry)}
      (shuffled : schedule.Perm program.blockEntries) : ∃ result, (buildScheduled
        (Hierarchy.ofProgram program policy).1 options schedule
        (Hierarchy.afterHistory program policy requests).2).1 = .ok result := by
    obtain ⟨_, _, _, built, _⟩ := buildScheduled_records wellFormed options shuffled held
    exact ⟨_, congrArg Prod.fst built⟩
  refine ⟨fun options => scheduled options (List.Perm.refl _),
    fun options schedule shuffled => scheduled options shuffled, ?_, ?_, ?_, ?_⟩
  · intro caller invocation callerBound
    obtain ⟨result, answered, _⟩ :=
      (Hierarchy.resolveCall_meets wellFormed callerBound invocation _ held).2.exists_ok
    exact ⟨result, answered⟩
  · intro id method bound methodBound
    exact answered_of_outcome
      (Hierarchy.abstractTargets_meets wellFormed bound methodBound _ held).2
  · intro method container methodBound containerBound
    exact answered_of_outcome
      (Hierarchy.specialTarget_outcome wellFormed methodBound containerBound)
  · intro kind method container methodBound containerBound
    exact answered_of_outcome
      (Hierarchy.targets_meets wellFormed kind methodBound containerBound _ held).2

def tangledClasses : List ClassDecl :=
  let run : Signature := ⟨"run", []⟩
  let call (kind : InvocationKind) (className : String) : Statement :=
    .invoke ⟨kind, className, run⟩
  let method (blocks : List (List Statement)) : MethodDecl := ⟨run, .publicBit, blocks⟩
  [⟨"I", some "A", ["J"], .interfaceBit, [⟨run, .empty, []⟩]⟩,
    ⟨"J", none, ["I"], .interfaceBit, []⟩,
    ⟨"A", some "B", ["I", "I"], .publicBit,
      [method [[call .interface "I", call .virtual "A"], [call .interface "I", call .static "X"]]]⟩,
    ⟨"B", some "A", [], .publicBit, [method [[call .special "A", call .virtual "B"]]]⟩,
    ⟨"C", some "I", ["A"], .ofBits 0x413, [method [[call .dynamic "J", call .virtual "C"]]]⟩]

def tangledProgram : Program :=
  (Program.load tangledClasses []).toOption.getD .empty

theorem tangledProgram_loaded : Program.load tangledClasses [] = .ok tangledProgram := by
  decide +kernel

theorem build_never_fails_tangled :
    let built := Hierarchy.afterHistory tangledProgram .precise [.subClasses ⟨3⟩, .implementers ⟨1⟩]
    (∃ result, (build built.1 .sequential built.2).1 = .ok result) ∧
    (∃ result, (buildScheduled built.1 .standard tangledProgram.blockEntries.reverse built.2).1 =
      .ok result) ∧
    (∃ result, (built.1.resolveCall ⟨3⟩ ⟨.virtual, "C", ⟨"run", []⟩⟩ built.2).1 = .ok result) ∧
    Answered (built.1.abstractTargets ⟨1⟩ ⟨0⟩ built.2).1 ∧
    Answered (built.1.specialTarget ⟨1⟩ ⟨2⟩) ∧
    Answered (built.1.targets .dynamic ⟨0⟩ ⟨3⟩ built.2).1 := by
  obtain ⟨builds, schedules, calls, classes, specials, kinds⟩ := build_never_fails
    tangledProgram_loaded .precise [.subClasses ⟨3⟩, .implementers ⟨1⟩]
  refine ⟨builds .sequential, schedules .standard _ (List.reverse_perm _), calls _ _ ?_,
    classes _ _ ?_ ?_, specials _ _ ?_ ?_, kinds .dynamic _ _ ?_ ?_⟩
  all_goals decide +kernel

structure Depicts (callGraph : CallGraph) (program : Program)
    (targets : CallSite → List MethodId) : Prop where
  methods : callGraph.methods = (program.mentions targets).eraseDups
  contains : ∀ method, callGraph.contains method = true ↔ method ∈ program.mentions targets
  links : callGraph.graph.edges.toList.map (fun edge =>
      (callGraph.graph.node? edge.source, callGraph.graph.node? edge.target)) =
    ((program.resolutions targets).map Resolution.link).eraseDups.map fun link =>
      (some link.1, some link.2)
  sites : ∀ caller callee site, site ∈ callGraph.callSites caller callee ↔
    site.caller = caller ∧ callee ∈ targets site ∧
    ∃ block, program.block? site.block = some block ∧ block.method = caller ∧
      (block.statements[site.statement]?).bind Statement.invocation? = some site.invocation
  ordered : ∀ caller callee, (callGraph.callSites caller callee).Pairwise CallSite.Before
  unlinked : ∀ caller callee, callGraph.callSites caller callee = [] ↔
    ∀ edge ∈ callGraph.graph.edges, ¬ (callGraph.graph.node? edge.source = some caller ∧
      callGraph.graph.node? edge.target = some callee)
  callees : ∀ caller callee,
    callee ∈ callGraph.callees caller ↔ callGraph.callSites caller callee ≠ []
  callers : ∀ caller callee,
    caller ∈ callGraph.callers callee ↔ callGraph.callSites caller callee ≠ []
  calleesUnique : ∀ method, (callGraph.callees method).Nodup
  callersUnique : ∀ method, (callGraph.callers method).Nodup

theorem depicts_of_records {callGraph : CallGraph} {targets : CallSite → List MethodId}
    (unique : ∀ site ∈ program.callSites, (targets site).Nodup)
    (records : callGraph.Records (program.mentions targets) (program.resolutions targets)) :
    callGraph.Depicts program targets := by
  have sites (caller callee : MethodId) : callGraph.callSites caller callee =
      program.callSites.filter fun site => site.caller = caller ∧ callee ∈ targets site := by
    rw [records.callSites_eq, Program.sitesOn_resolutions unique]
  have linked (caller callee : MethodId) : callGraph.callSites caller callee ≠ [] ↔
      (caller, callee) ∈ (program.resolutions targets).map Resolution.link := by
    rw [records.callSites_eq, Ne, sitesOn_eq_nil, not_not]
  refine ⟨records.methods, records.contains_iff, records.links_eq, ?_, ?_, ?_, ?_, ?_,
    records.nodup_callees, records.nodup_callers⟩
  · intro caller callee site
    rw [sites, List.mem_filter, Program.callSites, Program.mem_sitesIn]
    simp only [Program.mem_blockEntries, decide_eq_true_eq]
    constructor
    · rintro ⟨⟨block, found, method, carried⟩, rfl, target⟩
      exact ⟨rfl, target, block, found, method, carried⟩
    · rintro ⟨rfl, target, block, found, method, carried⟩
      exact ⟨⟨block, found, method, carried⟩, rfl, target⟩
  · intro caller callee
    rw [sites]
    exact (Program.callSites_ordered program).filter _
  · intro caller callee
    rw [← not_iff_not, ← Ne, linked, ← records.exists_edge_iff]
    push Not
    rfl
  · exact fun caller callee => records.mem_callees.trans (linked caller callee).symm
  · exact fun caller callee => records.mem_callers.trans (linked caller callee).symm

theorem build_depicts {classes : List ClassDecl} {detached : List DetachedMethod}
    (loaded : Program.load classes detached = .ok program) (policy : Policy)
    (requests : List Request) (options : BuildOptions)
    {schedule : List (BlockId × BlockEntry)} (shuffled : schedule.Perm program.blockEntries) :
    let built := Hierarchy.afterHistory program policy requests
    ∃ outcome callGraph events later,
      buildScheduled built.1 options schedule built.2 = (.ok (callGraph, events), later) ∧
      built.1.resolveSites (Program.sitesIn schedule) built.2 =
        (.ok ((Program.sitesIn schedule).map outcome), later) ∧
      callGraph.Depicts program (fun site => (outcome site).1.targets) ∧
      ∀ site ∈ program.callSites,
        (program.findMethod? site.invocation.className site.invocation.signature).isSome = true →
        ∃ callee, site ∈ callGraph.callSites site.caller callee := by
  have wellFormed := Program.load_wellFormed loaded
  have held := Hierarchy.exact_afterHistory program policy requests
  obtain ⟨outcome, callGraph, later, built, asked, leads, records⟩ :=
    buildScheduled_records wellFormed options shuffled held
  have depicts := depicts_of_records (fun site member => (leads site member).1) records
  refine ⟨outcome, callGraph, _, later, built, asked, depicts, ?_⟩
  intro site member named
  obtain ⟨callee, listed⟩ := List.exists_mem_of_ne_nil _ ((leads site member).2 named)
  obtain ⟨block, found, method, carried⟩ := Program.mem_sitesIn.mp member
  have placed := Program.mem_blockEntries.mp found
  exact ⟨callee, (depicts.sites site.caller callee site).mpr
    ⟨rfl, listed, block, placed, method, carried⟩⟩

theorem build_depicts_tangled :
    let built := Hierarchy.afterHistory tangledProgram .precise [.subClasses ⟨3⟩, .implementers ⟨1⟩]
    let schedule := tangledProgram.blockEntries.reverse
    schedule.Perm tangledProgram.blockEntries ∧ ∃ outcome callGraph events later,
      buildScheduled built.1 .standard schedule built.2 = (.ok (callGraph, events), later) ∧
      built.1.resolveSites (Program.sitesIn schedule) built.2 =
        (.ok ((Program.sitesIn schedule).map outcome), later) ∧
      callGraph.Depicts tangledProgram (fun site => (outcome site).1.targets) ∧
      ∃ callee, ⟨⟨3⟩, ⟨3⟩, 1, ⟨.virtual, "C", ⟨"run", []⟩⟩⟩ ∈ callGraph.callSites ⟨3⟩ callee := by
  refine ⟨List.reverse_perm _, ?_⟩
  obtain ⟨outcome, callGraph, events, later, built, asked, depicts, led⟩ := build_depicts
    tangledProgram_loaded .precise [.subClasses ⟨3⟩, .implementers ⟨1⟩] .standard
    (List.reverse_perm _)
  refine ⟨outcome, callGraph, events, later, built, asked, depicts, ?_⟩
  exact led ⟨⟨3⟩, ⟨3⟩, 1, ⟨.virtual, "C", ⟨"run", []⟩⟩⟩ (by decide +kernel) (by decide +kernel)

end CallGraph

end CallResolution

import CallResolution.Proofs.Scheduling
import Mathlib.Algebra.GroupWithZero.Nat

/-!
The figures of a build. Counters are raised while calls are merged, call sites are summed up from
the edges, and warnings arise while calls are resolved. They tell of the same calls, so they
balance: every call has one outcome, a site for each target, and a warning if it went wrong.
-/

namespace CallResolution

open Resolution

namespace CallTarget

def isUnresolved : CallTarget → Bool
  | .unresolved _ => true
  | _ => false

variable {outcomes : List CallTarget}

def resolvedTargets (outcomes : List CallTarget) : Nat :=
  ((outcomes.filter isResolved).map fun outcome => outcome.targets.length).sum

theorem resolvedTargets_cons (outcome : CallTarget) (outcomes : List CallTarget) :
    resolvedTargets (outcome :: outcomes) =
      (if outcome.isResolved then outcome.targets.length else 0) + resolvedTargets outcomes := by
  rw [resolvedTargets, List.filter_cons]
  split <;> simp [resolvedTargets]

theorem sum_targets (outcomes : List CallTarget) :
    (outcomes.map fun outcome => outcome.targets.length).sum =
      outcomes.countP isUnresolved + resolvedTargets outcomes := by
  induction outcomes with
  | nil => rfl
  | cons outcome outcomes ih =>
      have share : outcome.targets.length = (if outcome.isUnresolved then 1 else 0) +
          if outcome.isResolved then outcome.targets.length else 0 := by
        cases outcome <;> simp [targets, isResolved, isUnresolved]
      rw [List.map_cons, List.sum_cons, List.countP_cons, resolvedTargets_cons, ih]
      omega

theorem countP_isPolymorphic_le (outcomes : List CallTarget) :
    outcomes.countP isPolymorphic ≤ outcomes.countP isResolved := by
  apply List.countP_mono_left
  intro outcome _ polymorphic
  cases outcome with
  | resolved methods => rfl
  | _ => cases polymorphic

theorem resolvedTargets_eq_iff
    (nonempty : ∀ methods, .resolved methods ∈ outcomes → methods ≠ []) :
    outcomes.countP isResolved ≤ resolvedTargets outcomes ∧
      (resolvedTargets outcomes = outcomes.countP isResolved ↔
        outcomes.countP isPolymorphic = 0) := by
  induction outcomes with
  | nil => simp [resolvedTargets]
  | cons outcome outcomes ih =>
      obtain ⟨lower, exact⟩ := ih fun methods member => nonempty methods (by simp [member])
      rw [List.countP_cons, List.countP_cons, resolvedTargets_cons]
      cases outcome with
      | resolved methods =>
          have some := List.length_pos_iff.mpr (nonempty methods (by simp))
          simp only [isResolved, isPolymorphic, targets, if_true, decide_eq_true_eq]
          split <;> omega
      | _ =>
          simp only [isResolved, isPolymorphic, Bool.false_eq_true, if_false]
          omega

end CallTarget

namespace Counters

def ofOutcomes (outcomes : List CallTarget) : Counters where
  invocations := outcomes.length
  resolved := outcomes.countP CallTarget.isResolved
  polymorphic := outcomes.countP CallTarget.isPolymorphic
  unresolved := outcomes.countP CallTarget.isUnresolved
  external := outcomes.count .external
  missing := outcomes.count .missing

theorem foldl_count (outcomes : List CallTarget) (start : Counters) :
    outcomes.foldl count start =
      { invocations := start.invocations + outcomes.length
        resolved := start.resolved + outcomes.countP CallTarget.isResolved
        polymorphic := start.polymorphic + outcomes.countP CallTarget.isPolymorphic
        unresolved := start.unresolved + outcomes.countP CallTarget.isUnresolved
        external := start.external + outcomes.count .external
        missing := start.missing + outcomes.count .missing } := by
  induction outcomes generalizing start with
  | nil => rfl
  | cons outcome outcomes ih =>
      simp only [List.foldl_cons, ih, List.length_cons, List.countP_cons, List.count_cons]
      cases outcome <;>
        simp [count, CallTarget.isResolved, CallTarget.isPolymorphic, CallTarget.isUnresolved] <;>
        omega

theorem foldl_count_zero (outcomes : List CallTarget) :
    outcomes.foldl count .zero = ofOutcomes outcomes := by
  simp [foldl_count, zero, ofOutcomes]

theorem ofOutcomes_balanced (outcomes : List CallTarget) :
    (ofOutcomes outcomes).invocations = (ofOutcomes outcomes).resolved +
      (ofOutcomes outcomes).unresolved + (ofOutcomes outcomes).external +
      (ofOutcomes outcomes).missing := by
  unfold ofOutcomes
  induction outcomes with
  | nil => rfl
  | cons outcome outcomes ih =>
      simp only [List.length_cons, List.countP_cons, List.count_cons] at ih ⊢
      cases outcome <;> simp [CallTarget.isResolved, CallTarget.isUnresolved] <;> omega

end Counters

namespace Program

def outcomes (program : Program) (outcome : CallSite → CallTarget × Option Event) :
    List CallTarget :=
  program.callSites.map fun site => (outcome site).1

theorem length_invocations (statements : List Statement) :
    (Statement.invocations statements).length =
      statements.countP fun statement => statement.invocation?.isSome := by
  have numbered : statements = statements.zipIdx.map Prod.fst := by simp
  rw [Statement.invocations, List.length_filterMap_eq_countP]
  conv_rhs => rw [numbered, List.countP_map]
  simp only [Option.isSome_map, Function.comp_def]

theorem length_callSites (program : Program) :
    program.callSites.length = (program.blocks.toList.map fun block =>
      block.statements.countP fun statement => statement.invocation?.isSome).sum := by
  have blocks : program.blockEntries.map Prod.snd = program.blocks.toList := by
    rw [blockEntries, List.map_filterMap, ← Handle.filterMap_upTo program.blocks]
    refine List.filterMap_congr ?_
    intro id _
    simp [block?, Function.comp_def]
  rw [callSites, sitesIn, List.length_flatMap, ← blocks, List.map_map]
  simp only [sitesOf, List.length_map, length_invocations, Function.comp_def]

end Program

namespace Hierarchy

inductive Warns (invocation : Invocation) : CallTarget → Option Event → Prop
  | external : Warns invocation .external none
  | missing : Warns invocation .missing (some (.missingMethod invocation))
  | resolved {targets} : targets ≠ [] → Warns invocation (.resolved targets) none
  | noReceiver {callee} : Warns invocation (.unresolved callee) (some (.noReceiver invocation))
  | failed {callee error} : error.isRecoverable = true →
      Warns invocation (.unresolved callee) (some (.dispatchFailed error))

theorem resolveCall_warns (hierarchy : Hierarchy) (caller : MethodId) (invocation : Invocation) :
    Query.Meets (fun _ => True) (hierarchy.resolveCall caller invocation)
      (fun outcome => Warns invocation outcome.1 outcome.2) fun _ => True := by
  unfold resolveCall
  split
  · exact .pure .external
  · split
    · exact .pure .missing
    · rename_i callee _
      have anything : Query.Meets (fun _ => True)
          (hierarchy.targets invocation.kind callee caller) (fun _ => True) fun _ => True := by
        intro memos _
        refine ⟨trivial, ?_⟩
        cases (hierarchy.targets invocation.kind callee caller memos).1 <;> trivial
      refine anything.observe.bind fun answer asked => ?_
      split
      · exact .pure .noReceiver
      · rename_i targets nonempty
        exact .pure (.resolved nonempty)
      · split
        · rename_i recoverable
          exact .pure (.failed recoverable)
        · exact fun _ start => ⟨start, trivial⟩

theorem Warns.level {invocation : Invocation} {target : CallTarget} {event : Event}
    (warns : Warns invocation target (some event)) : event.level = "WARN" := by
  cases warns <;> rfl

theorem Warns.share {invocation : Invocation} {target : CallTarget} {warning : Option Event}
    (warns : Warns invocation target warning) :
    (if warning.isSome then 1 else 0) =
      (if target == .missing then 1 else 0) + if target.isUnresolved then 1 else 0 := by
  cases warns <;> simp [CallTarget.isUnresolved]

theorem Resolves.undispatched {hierarchy : Hierarchy} {caller : MethodId} {invocation : Invocation}
    {target : CallTarget} (resolves : hierarchy.Resolves caller invocation target)
    (fixed : invocation.kind = .special ∨ invocation.kind = .static) :
    target.targets.length =
      if (hierarchy.program.findMethod? invocation.className invocation.signature).isSome
        then 1 else 0 := by
  cases resolves with
  | external unknown => simp [Program.findMethod?, unknown, CallTarget.targets]
  | missing _ unnamed => simp [unnamed, CallTarget.targets]
  | unresolved named _ => simp [named, CallTarget.targets]
  | @resolved callee targets named _ gathers =>
      rw [named]
      rcases fixed with kind | kind
      · rw [kind] at gathers
        cases answered : hierarchy.specialTarget callee caller with
        | error error =>
            refine absurd (partOf_special.mpr ?_) (gathers.sound error)
            rw [answered]
            rfl
        | ok only => exact (gathers.perm (gathers_special answered)).length_eq
      · rw [kind] at gathers
        exact (gathers.perm (gathers_single fun _ => partOf_static)).length_eq

end Hierarchy

theorem KindCounts.sum_toList (sites : List CallSite) :
    ((KindCounts.ofFn fun kind => sites.countP fun site => site.invocation.kind == kind).toList.map
      Prod.snd).sum = sites.length := by
  induction sites with
  | nil => rfl
  | cons site sites ih =>
      simp only [toList, InvocationKind.all, ofFn, get, List.map_cons, List.map_nil, List.sum_cons,
        List.sum_nil, List.countP_cons, List.length_cons] at ih ⊢
      cases site.invocation.kind <;> simp <;> omega

theorem sum_map_eq_countP {α : Type} {items : List α} {value : α → Nat} {test : α → Bool}
    (each : ∀ item ∈ items, value item = if test item then 1 else 0) :
    (items.map value).sum = items.countP test := by
  induction items with
  | nil => rfl
  | cons item items ih =>
      have first := each item (by simp)
      have rest := ih fun other member => each other (by simp [member])
      rw [List.map_cons, List.sum_cons, List.countP_cons, rest, first]
      omega

namespace CallGraph

variable {program : Program} {callGraph : CallGraph}
  {outcome : CallSite → CallTarget × Option Event}

theorem warnings_eq (entries : List (BlockId × BlockEntry)) :
    warnings (entries.map (BlockCalls.ofEntry outcome)) =
      (Program.sitesIn entries).filterMap fun site => (outcome site).2 := by
  rw [warnings, Program.sitesIn, List.flatMap_map, List.filterMap_flatMap]
  simp [BlockCalls.ofEntry, Program.sitesOf, List.filterMap_map]

namespace Records

variable {seen : List MethodId} {placed : List Resolution}

theorem entryPoints_uncalled (records : callGraph.Records seen placed) :
    callGraph.entryPoints = callGraph.methods.filter fun method =>
      (callGraph.callers method).isEmpty := by
  rw [records.entryPoints_eq]
  refine List.filter_congr fun method _ => ?_
  rw [Bool.eq_iff_iff]
  simp [records.callers_eq]

theorem leafMethods_callless (records : callGraph.Records seen placed) :
    callGraph.leafMethods = callGraph.methods.filter fun method =>
      (callGraph.callees method).isEmpty := by
  rw [records.leafMethods_eq]
  refine List.filter_congr fun method _ => ?_
  rw [Bool.eq_iff_iff]
  simp [records.callees_eq]

theorem edgeCount_le (records : callGraph.Records seen placed) :
    callGraph.edgeCount ≤ callGraph.allSites.length := by
  have distinct : (placed.map Resolution.link).eraseDups.length ≤
      (placed.map Resolution.link).length :=
    (List.subperm_of_subset (nodup_eraseDups _) fun _ => List.mem_eraseDups.mp).length_le
  rw [records.edgeCount_eq, records.allSites_perm.length_eq, List.length_map]
  rwa [List.length_map] at distinct

theorem countP_allSites {targets : CallSite → List MethodId}
    (records : callGraph.Records seen (program.resolutions targets)) (test : CallSite → Bool) :
    callGraph.allSites.countP test =
      (program.callSites.map fun site => if test site then (targets site).length else 0).sum := by
  rw [records.allSites_perm.countP_eq, Program.resolutions, List.map_flatMap, List.countP_flatMap]
  refine congrArg List.sum (List.map_congr_left ?_)
  intro site _
  simp [Function.comp_def, List.countP_replicate]

end Records

structure Balances (callGraph : CallGraph) (program : Program)
    (outcome : CallSite → CallTarget × Option Event) : Prop where
  counters : callGraph.stats.counters = .ofOutcomes (program.outcomes outcome)
  invocations : callGraph.stats.counters.invocations = (program.blocks.toList.map fun block =>
    block.statements.countP fun statement => statement.invocation?.isSome).sum
  balanced : callGraph.stats.counters.invocations =
    callGraph.stats.counters.resolved + callGraph.stats.counters.unresolved +
      callGraph.stats.counters.external + callGraph.stats.counters.missing
  kinds : callGraph.stats.totalCallSites =
    (callGraph.stats.callsByKind.toList.map Prod.snd).sum
  sites : callGraph.stats.totalCallSites = callGraph.stats.counters.unresolved +
    CallTarget.resolvedTargets (program.outcomes outcome)
  polymorphic : callGraph.stats.counters.polymorphic ≤ callGraph.stats.counters.resolved
  monomorphic : callGraph.stats.totalCallSites =
    callGraph.stats.counters.resolved + callGraph.stats.counters.unresolved ↔
      callGraph.stats.counters.polymorphic = 0
  special : callGraph.stats.callsByKind.special = program.callSites.countP fun site =>
    site.invocation.kind == .special &&
      (program.findMethod? site.invocation.className site.invocation.signature).isSome
  static : callGraph.stats.callsByKind.static = program.callSites.countP fun site =>
    site.invocation.kind == .static &&
      (program.findMethod? site.invocation.className site.invocation.signature).isSome
  edges : callGraph.stats.edgeCount ≤ callGraph.stats.totalCallSites
  entryPoints : callGraph.stats.entryPoints = callGraph.methods.countP fun method =>
    (callGraph.callers method).isEmpty
  leafMethods : callGraph.stats.leafMethods = callGraph.methods.countP fun method =>
    (callGraph.callees method).isEmpty

theorem balances_of_merge {policy : Policy} {options : BuildOptions}
    (resolves : ∀ site ∈ program.callSites, (Hierarchy.ofProgram program policy).1.Resolves
      site.caller site.invocation (outcome site).1)
    (merged : merge options (program.blockEntries.map (BlockCalls.ofEntry outcome)) =
      .ok callGraph) : callGraph.Balances program outcome := by
  have records := records_of_merge merged
  have counters : callGraph.stats.counters = .ofOutcomes (program.outcomes outcome) := by
    rw [← Counters.foldl_count_zero, Program.outcomes, List.foldl_map]
    exact counters_of_merge merged
  have nonempty : ∀ methods, .resolved methods ∈ program.outcomes outcome → methods ≠ [] := by
    intro methods listed
    obtain ⟨site, member, same⟩ := List.mem_map.mp listed
    have resolved := resolves site member
    rw [same] at resolved
    cases resolved with
    | resolved _ nonempty _ => exact nonempty
  have total : callGraph.stats.totalCallSites =
      (program.outcomes outcome).countP CallTarget.isUnresolved +
        CallTarget.resolvedTargets (program.outcomes outcome) := by
    have counted := records.countP_allSites fun _ => true
    rw [List.countP_true] at counted
    rw [← CallTarget.sum_targets, Program.outcomes, List.map_map]
    exact counted
  have undispatched : ∀ kind, kind = .special ∨ kind = .static →
      callGraph.stats.callsByKind.get kind = program.callSites.countP fun site =>
        site.invocation.kind == kind &&
          (program.findMethod? site.invocation.className site.invocation.signature).isSome := by
    intro kind fixed
    have read : callGraph.stats.callsByKind.get kind =
        callGraph.allSites.countP fun site => site.invocation.kind == kind := by
      cases kind <;> rfl
    rw [read, records.countP_allSites]
    apply sum_map_eq_countP
    intro site member
    by_cases here : site.invocation.kind = kind
    · rw [(resolves site member).undispatched (here ▸ fixed)]
      simp only [here, beq_self_eq_true, Bool.true_and, if_true]
      rfl
    · simp [here]
  have polymorphic := CallTarget.resolvedTargets_eq_iff nonempty
  refine ⟨counters, ?_, ?_, ?_, ?_, ?_, ?_, undispatched .special (.inl rfl),
    undispatched .static (.inr rfl), records.edgeCount_le, ?_, ?_⟩
  · rw [counters, ← Program.length_callSites]
    exact List.length_map _
  · rw [counters]
    exact Counters.ofOutcomes_balanced _
  · exact (KindCounts.sum_toList callGraph.allSites).symm
  · rw [total, counters]
    rfl
  · rw [counters]
    exact CallTarget.countP_isPolymorphic_le _
  · rw [total, counters]
    change _ = (program.outcomes outcome).countP CallTarget.isResolved +
      (program.outcomes outcome).countP CallTarget.isUnresolved ↔
        (program.outcomes outcome).countP CallTarget.isPolymorphic = 0
    omega
  · rw [List.countP_eq_length_filter, ← records.entryPoints_uncalled]
    rfl
  · rw [List.countP_eq_length_filter, ← records.leafMethods_callless]
    rfl

/-- The log of a build: a warning for each call that is missing or unresolved, as the calls come
in the text, and then one line with the figures. -/
def Logs (callGraph : CallGraph) (program : Program)
    (outcome : CallSite → CallTarget × Option Event) (events : List Event) : Prop :=
  ∃ (warned : List (CallSite × Event)) (figures : Event),
    events = warned.map Prod.snd ++ [figures] ∧
    warned.length = callGraph.stats.counters.missing + callGraph.stats.counters.unresolved ∧
    warned.Pairwise (fun left right => left.1.Before right.1) ∧
    (∀ entry ∈ warned, entry.2.level = "WARN" ∧ entry.1 ∈ program.callSites ∧
      Hierarchy.Warns entry.1.invocation (outcome entry.1).1 (some entry.2)) ∧
    figures.level = "DEBUG" ∧
    figures = .callGraphBuilt callGraph.stats.methodCount callGraph.stats.edgeCount
      callGraph.stats.counters.invocations callGraph.stats.counters.unresolved
      callGraph.stats.counters.external

theorem countP_warned {sites : List CallSite}
    (warns : ∀ site ∈ sites, Hierarchy.Warns site.invocation (outcome site).1 (outcome site).2) :
    sites.countP (fun site => (outcome site).2.isSome) =
      (sites.map fun site => (outcome site).1).count .missing +
        (sites.map fun site => (outcome site).1).countP CallTarget.isUnresolved := by
  induction sites with
  | nil => rfl
  | cons site sites ih =>
      have rest := ih fun other member => warns other (by simp [member])
      have share := (warns site (by simp)).share
      rw [List.countP_cons, List.map_cons, List.count_cons, List.countP_cons, rest]
      omega

theorem logs_of_counters
    (warns : ∀ site ∈ program.callSites,
      Hierarchy.Warns site.invocation (outcome site).1 (outcome site).2)
    (counters : callGraph.stats.counters = .ofOutcomes (program.outcomes outcome)) :
    callGraph.Logs program outcome
      (warnings (program.blockEntries.map (BlockCalls.ofEntry outcome)) ++
        [callGraph.builtEvent]) := by
  refine ⟨program.callSites.filterMap fun site => (outcome site).2.map fun event => (site, event),
    callGraph.builtEvent, ?_, ?_, ?_, ?_, rfl, rfl⟩
  · rw [warnings_eq, List.map_filterMap]
    simp [Program.callSites, Function.comp_def]
  · rw [counters, List.length_filterMap_eq_countP]
    simp only [Option.isSome_map]
    exact countP_warned warns
  · rw [List.pairwise_filterMap]
    refine (Program.callSites_ordered program).imp ?_
    intro left right before leftEntry leftMade rightEntry rightMade
    obtain ⟨_, _, rfl⟩ := Option.map_eq_some_iff.mp leftMade
    obtain ⟨_, _, rfl⟩ := Option.map_eq_some_iff.mp rightMade
    exact before
  · intro entry listed
    obtain ⟨site, member, made⟩ := List.mem_filterMap.mp listed
    obtain ⟨event, warned, rfl⟩ := Option.map_eq_some_iff.mp made
    have told := warns site member
    rw [warned] at told
    exact ⟨told.level, member, told⟩

/-- Counters, call sites and warnings agree. -/
theorem build_balances {classes : List ClassDecl} {detached : List DetachedMethod}
    (loaded : Program.load classes detached = .ok program) (policy : Policy)
    (requests : List Request) (options : BuildOptions) :
    let built := Hierarchy.afterHistory program policy requests
    ∃ outcome callGraph events later,
      build built.1 options built.2 = (.ok (callGraph, events), later) ∧
      built.1.resolveSites program.callSites built.2 =
        (.ok (program.callSites.map outcome), later) ∧
      callGraph.Balances program outcome ∧ callGraph.Logs program outcome events := by
  intro built
  have held := Hierarchy.exact_afterHistory program policy requests
  obtain ⟨outcome, callGraph, later, result, asked, resolves, merged⟩ :=
    buildScheduled_merges (Program.load_wellFormed loaded) options (.refl _) held
  have balances := balances_of_merge resolves merged
  have warns := Query.Meets.mapM_ok (fun (site : CallSite) _ =>
    (Hierarchy.ofProgram program policy).1.resolveCall_warns site.caller site.invocation)
    trivial asked
  exact ⟨outcome, callGraph, _, later, result, asked, balances,
    logs_of_counters warns balances.counters⟩

theorem build_balances_tangled :
    let built := Hierarchy.afterHistory tangledProgram .precise [.subClasses ⟨3⟩]
    Program.load tangledClasses [] = .ok tangledProgram ∧ ∃ outcome callGraph events later,
      build built.1 .sequential built.2 = (.ok (callGraph, events), later) ∧
      callGraph.Balances tangledProgram outcome ∧ callGraph.Logs tangledProgram outcome events ∧
      callGraph.stats.counters.invocations = 8 ∧ callGraph.stats.callsByKind.special = 1 ∧
      callGraph.stats.callsByKind.static = 0 := by
  refine ⟨tangledProgram_loaded, ?_⟩
  obtain ⟨outcome, callGraph, events, later, result, _, balances, logs⟩ := build_balances
    tangledProgram_loaded .precise [.subClasses ⟨3⟩] .sequential
  refine ⟨outcome, callGraph, events, later, result, balances, logs, ?_, ?_, ?_⟩
  · rw [balances.invocations]
    decide +kernel
  · rw [balances.special]
    decide +kernel
  · rw [balances.static]
    decide +kernel

end CallGraph

end CallResolution

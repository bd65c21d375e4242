import CallResolution.Proofs.Justification
import CallResolution.Proofs.MirroredDispatch
import CallResolution.Proofs.Reordering
import CallResolution.Proofs.Scheduling

/-!
Deferred entries of constructors. They decide to which method a construction leads, and nothing
else: other calls stay on their edges, and whatever a construction leads to, it is one method.
-/

namespace CallResolution

open Resolution

theorem Program.Integral.sameMethod {program : Program} (integral : program.Integral)
    {method : MethodId} {entry : MethodEntry} (found : program.method? method = some entry) :
    SameMethod program program method method :=
  ⟨entry.className, entry.signature, integral.findMethod?_entry found,
    integral.findMethod?_entry found⟩

namespace Hierarchy

variable {hierarchy : Hierarchy} {method container : MethodId}

theorem specialTarget_constructor {entry caller : MethodEntry} {classEntry : ClassEntry}
    (found : hierarchy.program.method? method = some entry)
    (constructs : entry.isConstructor = true)
    (owner : hierarchy.program.class? entry.owner = some classEntry)
    (within : hierarchy.program.method? container = some caller) :
    ∃ target, hierarchy.specialTarget method container = .ok target := by
  simp only [specialTarget, deferredCall, deferredEntry, Program.requireMethod_eq_ok.mpr found,
    Program.requireMethod_eq_ok.mpr within, Program.requireEntry_eq_ok.mpr owner, constructs,
    if_true, Bool.true_or, bind, Except.bind]
  split
  · exact ⟨_, rfl⟩
  · exact ⟨method, rfl⟩

variable {invocation : Invocation} {target : CallTarget}

/-- A construction leads to one method, whatever the policy. -/
theorem Resolves.constructed (resolves : hierarchy.Resolves container invocation target)
    (integral : hierarchy.program.Integral) {caller : MethodEntry}
    (within : hierarchy.program.method? container = some caller)
    (constructs : invocation.constructs = true)
    (named : hierarchy.program.findMethod? invocation.className invocation.signature =
      some method) :
    ∃ only, target = .resolved [only] := by
  obtain ⟨kind, name⟩ : invocation.kind = .special ∧ invocation.signature.name = "<init>" := by
    simpa [Invocation.constructs] using constructs
  obtain ⟨entry, found, _, signature⟩ := (integral.identities _ _ _).mp named
  obtain ⟨classEntry, owner, _⟩ := integral.owners method entry found
  have constructor : entry.isConstructor = true := by
    simp [MethodEntry.isConstructor, signature, name]
  obtain ⟨only, answered⟩ := specialTarget_constructor found constructor owner within
  have single := gathers_special answered
  cases resolves with
  | external unknown => simp [Program.findMethod?, unknown] at named
  | missing _ unnamed => cases unnamed.symm.trans named
  | resolved again _ gathers =>
      cases named.symm.trans again
      rw [kind] at gathers
      exact ⟨only, congrArg _ (List.perm_singleton.mp (gathers.perm single))⟩
  | unresolved again failed =>
      cases named.symm.trans again
      rw [kind] at failed
      rcases failed with nothing | ⟨error, part⟩
      · cases (nothing.perm single).symm.eq_nil
      · exact absurd part (single.sound error)

end Hierarchy

structure CallTarget.SameFigures (left right : CallTarget) : Prop where
  length : left.targets.length = right.targets.length
  count : ∀ counters : Counters, counters.count left = counters.count right

namespace Hierarchy

variable {program : Program} {policy : Policy} {rules : List DeferredRule}
  {caller : MethodId} {invocation : Invocation} {target other : CallTarget}

section Pair

variable (integral : program.Integral) {callerEntry : MethodEntry}
  (within : program.method? caller = some callerEntry)
  (resolves : (ofProgram program policy).1.Resolves caller invocation target)
  (otherResolves : (ofProgram program { policy with deferred := rules }).1.Resolves caller
    invocation other)

include integral within resolves otherResolves

theorem mirrors_of_ordinary (ordinary : invocation.constructs = false) :
    target.Mirrors program program other := by
  have mirrors : (ofProgram program policy).1.Mirrors
      (ofProgram program { policy with deferred := rules }).1 := ⟨.refl integral, rfl, rfl⟩
  exact mirrors.resolves_mirrors (integral.sameMethod within) (.inr ordinary) resolves otherResolves

theorem targets_of_ordinary (ordinary : invocation.constructs = false) :
    target.targets.Perm other.targets := by
  obtain ⟨middle, related, shuffled⟩ :=
    (mirrors_of_ordinary integral within resolves otherResolves ordinary).targets
  have same : target.targets = middle := by
    rw [← List.forall₂_eq_eq_eq]
    exact related.imp fun _ _ => Program.SameMethod.eq
  exact same ▸ shuffled

theorem sameFigures : target.SameFigures other := by
  have known (alike : other.Alike target) : target.SameFigures other :=
    ⟨alike.targets.length_eq.symm, fun counters => (alike.count counters).symm⟩
  cases constructs : invocation.constructs with
  | false =>
      have mirrors := mirrors_of_ordinary integral within resolves otherResolves constructs
      exact ⟨(targets_of_ordinary integral within resolves otherResolves constructs).length_eq,
        mirrors.count⟩
  | true =>
      cases named : program.findMethod? invocation.className invocation.signature with
      | some method =>
          obtain ⟨only, rfl⟩ := resolves.constructed integral within constructs named
          obtain ⟨otherOnly, rfl⟩ := otherResolves.constructed integral within constructs named
          exact ⟨rfl, fun _ => rfl⟩
      | none =>
          cases resolves with
          | external unknown => exact known (otherResolves.alike (.external unknown))
          | missing found unnamed => exact known (otherResolves.alike (.missing found unnamed))
          | resolved found => cases named.symm.trans found
          | unresolved found => cases named.symm.trans found

end Pair

end Hierarchy

namespace CallGraph

structure SameButConstructions (left right : CallGraph) : Prop where
  callSites : ∀ caller callee,
    (left.callSites caller callee).filter (fun site => !site.invocation.constructs) =
      (right.callSites caller callee).filter fun site => !site.invocation.constructs
  counters : left.stats.counters = right.stats.counters
  totalCallSites : left.stats.totalCallSites = right.stats.totalCallSites
  callsByKind : left.stats.callsByKind = right.stats.callsByKind

variable {program : Program}

theorem kinds_eq {targets otherTargets : CallSite → List MethodId}
    (same : ∀ site ∈ program.callSites, (targets site).length = (otherTargets site).length) :
    ((program.resolutions targets).map fun resolution => resolution.1.invocation.kind) =
      (program.resolutions otherTargets).map fun resolution => resolution.1.invocation.kind := by
  simp only [Program.resolutions, List.map_flatMap, List.map_map, Function.comp_def]
  refine List.flatMap_congr fun site member => ?_
  rw [List.map_const', List.map_const', same site member]

theorem deferral_confined {classes : List ClassDecl} {detached : List DetachedMethod}
    (loaded : Program.load classes detached = .ok program) (policy : Policy)
    (rules : List DeferredRule) (requests otherRequests : List Request)
    (options otherOptions : BuildOptions) :
    let built := Hierarchy.afterHistory program policy requests
    let other := Hierarchy.afterHistory program { policy with deferred := rules } otherRequests
    ∃ callGraph events otherGraph otherEvents,
      (build built.1 options built.2).1 = .ok (callGraph, events) ∧
      (build other.1 otherOptions other.2).1 = .ok (otherGraph, otherEvents) ∧
      callGraph.SameButConstructions otherGraph := by
  have wellFormed := Program.load_wellFormed loaded
  have integral := (Program.load_holds loaded).integral
  obtain ⟨outcome, callGraph, _, built, _, resolves, merged⟩ := buildScheduled_merges wellFormed
    options (.refl _) (Hierarchy.exact_afterHistory program policy requests)
  obtain ⟨otherOutcome, otherGraph, _, otherBuilt, _, otherResolves, otherMerged⟩ :=
    buildScheduled_merges wellFormed otherOptions (.refl _)
      (Hierarchy.exact_afterHistory program { policy with deferred := rules } otherRequests)
  refine ⟨callGraph, _, otherGraph, _, congrArg Prod.fst built, congrArg Prod.fst otherBuilt, ?_⟩
  have figures : ∀ site ∈ program.callSites,
      (outcome site).1.SameFigures (otherOutcome site).1 := by
    intro site member
    obtain ⟨entry, found⟩ := integral.caller_found member
    exact Hierarchy.sameFigures integral found (resolves site member) (otherResolves site member)
  have records := records_of_merge merged
  have otherRecords := records_of_merge otherMerged
  have kinds := kinds_eq fun site member => (figures site member).length
  have counters : callGraph.counters = otherGraph.counters := by
    rw [counters_of_merge merged, counters_of_merge otherMerged]
    exact List.foldl_ext _ _ _ fun counters site member => (figures site member).count counters
  refine ⟨fun caller callee => ?_, counters, ?_, ?_⟩
  · rw [records.callSites_eq, otherRecords.callSites_eq,
      Program.sitesOn_resolutions fun site member => (resolves site member).leadsTo.1,
      Program.sitesOn_resolutions fun site member => (otherResolves site member).leadsTo.1,
      List.filter_filter, List.filter_filter]
    refine List.filter_congr fun site member => ?_
    cases ordinary : site.invocation.constructs with
    | true => rfl
    | false =>
        obtain ⟨entry, found⟩ := integral.caller_found member
        have targets := Hierarchy.targets_of_ordinary integral found (resolves site member)
          (otherResolves site member) ordinary
        simp only [targets.mem_iff]
  · rw [records.stats_ofRecords, otherRecords.stats_ofRecords, kinds]
    rfl
  · rw [records.stats_ofRecords, otherRecords.stats_ofRecords, kinds]
    rfl

theorem deferral_confined_errand :
    let built := Hierarchy.afterHistory errandProgram .standard []
    let other := Hierarchy.afterHistory errandProgram .withoutDeferred [.implementers ⟨0⟩]
    built.1.specialTarget ⟨1⟩ ⟨4⟩ = .ok ⟨2⟩ ∧ other.1.specialTarget ⟨1⟩ ⟨4⟩ = .ok ⟨1⟩ ∧
    ∃ callGraph events otherGraph otherEvents,
      (build built.1 .sequential built.2).1 = .ok (callGraph, events) ∧
      (build other.1 .sequential other.2).1 = .ok (otherGraph, otherEvents) ∧
      callGraph.SameButConstructions otherGraph :=
  ⟨by decide +kernel, by decide +kernel, deferral_confined errandProgram_loaded .standard [] []
    [.implementers ⟨0⟩] .sequential .sequential⟩

end CallGraph

end CallResolution

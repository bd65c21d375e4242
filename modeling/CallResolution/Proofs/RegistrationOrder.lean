import CallResolution.Proofs.MirroredAnswers
import CallResolution.Proofs.Scheduling

/-!
The order in which classes are registered. It decides about handles, about the order of tables and
closures, and about node and edge numbers. Told by names and signatures, no answer and no call
graph depends on it.
-/

namespace CallResolution

open Program Resolution

namespace CallTarget.Mirrors

variable {left right : Program} {target other : CallTarget}

theorem symm (mirrors : target.Mirrors left right other) : other.Mirrors right left target := by
  obtain ⟨⟨middle, related, shuffled⟩, count⟩ := mirrors
  have back : List.Forall₂ (SameMethod right left) middle target.targets :=
    related.flip.imp fun _ _ => SameMethod.symm
  obtain ⟨again, onward, moved⟩ := List.perm_comp_forall₂ shuffled.symm back
  exact ⟨⟨again, onward, moved⟩, fun counters => (count counters).symm⟩

theorem exists_target (mirrors : target.Mirrors left right other) {method : MethodId}
    (member : method ∈ target.targets) :
    ∃ again ∈ other.targets, SameMethod left right method again := by
  obtain ⟨middle, related, shuffled⟩ := mirrors.targets
  obtain ⟨again, listed, same⟩ := mem_of_forall₂ related.flip member
  exact ⟨again, shuffled.mem_iff.mp listed, same⟩

theorem mem_iff (programs : left.Mirrors right) (mirrors : target.Mirrors left right other)
    {method again : MethodId} (same : SameMethod left right method again) :
    method ∈ target.targets ↔ again ∈ other.targets := by
  constructor
  · intro member
    obtain ⟨found, listed, related⟩ := mirrors.exists_target member
    exact (programs.paired same related).mp rfl ▸ listed
  · intro member
    obtain ⟨found, listed, related⟩ := mirrors.symm.exists_target member
    exact (programs.paired same related.symm).mpr rfl ▸ listed

theorem length_eq (mirrors : target.Mirrors left right other) :
    target.targets.length = other.targets.length := by
  obtain ⟨middle, related, shuffled⟩ := mirrors.targets
  exact related.length_eq.trans shuffled.length_eq

end CallTarget.Mirrors

theorem Counters.count_comm (counters : Counters) (target other : CallTarget) :
    (counters.count target).count other = (counters.count other).count target := by
  cases target <;> cases other <;> simp [Counters.count, Nat.add_right_comm]

theorem Program.mem_mentions {program : Program} {targets : CallSite → List MethodId}
    {method : MethodId} : method ∈ program.mentions targets ↔
      (∃ id block, program.block? id = some block ∧ block.method = method) ∨
        ∃ site ∈ program.callSites, method ∈ targets site := by
  simp only [mentions, callSites, sitesIn, List.mem_flatMap, List.mem_cons]
  constructor
  · rintro ⟨entry, listed, rfl | ⟨site, member, targeted⟩⟩
    · exact .inl ⟨entry.1, entry.2, mem_blockEntries.mp listed, rfl⟩
    · exact .inr ⟨site, ⟨entry, listed, member⟩, targeted⟩
  · rintro (⟨id, block, found, rfl⟩ | ⟨site, ⟨entry, listed, member⟩, targeted⟩)
    · exact ⟨(id, block), mem_blockEntries.mpr found, .inl rfl⟩
    · exact ⟨entry, listed, .inr ⟨site, member, targeted⟩⟩

theorem Program.mem_links {program : Program} {targets : CallSite → List MethodId}
    {link : MethodId × MethodId} : link ∈ (program.resolutions targets).map Resolution.link ↔
      ∃ site ∈ program.callSites, site.caller = link.1 ∧ link.2 ∈ targets site := by
  simp only [resolutions, List.map_flatMap, List.map_map, List.mem_flatMap, List.mem_map,
    Function.comp_def, Resolution.link]
  constructor
  · rintro ⟨site, member, target, targeted, rfl⟩
    exact ⟨site, member, rfl, targeted⟩
  · rintro ⟨site, member, caller, targeted⟩
    exact ⟨site, member, link.2, targeted, Prod.ext caller rfl⟩

theorem Program.Mirrors.callers {left right : Program} (mirrors : left.Mirrors right)
    {site again : CallSite} (member : site ∈ left.callSites)
    (place : left.placeOf site = right.placeOf again) :
    SameMethod left right site.caller again.caller := by
  obtain ⟨entry, found⟩ := mirrors.integral.caller_found member
  exact mirrors.sameMethod_of_identityOf? found (congrArg SitePlace.caller place)

structure SameOutcomes (left right : Program) (outcome other : CallSite → CallTarget) : Prop where
  programs : left.Mirrors right
  places : (left.callSites.map left.placeOf).Perm (right.callSites.map right.placeOf)
  targets : ∀ site ∈ left.callSites, ∀ again ∈ right.callSites,
    left.placeOf site = right.placeOf again → (outcome site).Mirrors left right (other again)

namespace SameOutcomes

variable {left right : Program} {outcome other : CallSite → CallTarget}

theorem of_resolves {hierarchy otherHierarchy : Hierarchy} (mirrors : hierarchy.Mirrors otherHierarchy)
    (deferred : hierarchy.policy.deferred = otherHierarchy.policy.deferred)
    (places : (hierarchy.program.callSites.map hierarchy.program.placeOf).Perm
      (otherHierarchy.program.callSites.map otherHierarchy.program.placeOf))
    (resolves : ∀ site ∈ hierarchy.program.callSites,
      hierarchy.Resolves site.caller site.invocation (outcome site))
    (otherResolves : ∀ site ∈ otherHierarchy.program.callSites,
      otherHierarchy.Resolves site.caller site.invocation (other site)) :
    SameOutcomes hierarchy.program otherHierarchy.program outcome other := by
  refine ⟨mirrors.programs, places, fun site member again listed place => ?_⟩
  have invocation : site.invocation = again.invocation := congrArg SitePlace.invocation place
  exact mirrors.resolves_mirrors (mirrors.programs.callers member place) (.inl deferred)
    (resolves site member) (invocation ▸ otherResolves again listed)

theorem symm (same : SameOutcomes left right outcome other) :
    SameOutcomes right left other outcome :=
  ⟨same.programs.symm, same.places.symm, fun again listed site member place =>
    (same.targets site member again listed place.symm).symm⟩

variable (same : SameOutcomes left right outcome other)

include same

theorem exists_site {site : CallSite} (member : site ∈ left.callSites) :
    ∃ again ∈ right.callSites, left.placeOf site = right.placeOf again := by
  have placed := same.places.mem_iff.mp (List.mem_map_of_mem member)
  obtain ⟨again, listed, place⟩ := List.mem_map.mp placed
  exact ⟨again, listed, place.symm⟩

theorem exists_mention {method : MethodId}
    (mentioned : method ∈ left.mentions fun site => (outcome site).targets) :
    ∃ again ∈ right.mentions (fun site => (other site).targets),
      SameMethod left right method again := by
  rcases mem_mentions.mp mentioned with ⟨id, block, found, rfl⟩ | ⟨site, member, targeted⟩
  · obtain ⟨entry, entryFound, inBlocks⟩ := same.programs.integral.callers id block found
    obtain ⟨again, againFound⟩ := same.programs.exists_method entryFound
    have related : SameMethod left right block.method again :=
      ⟨_, _, same.programs.integral.findMethod?_entry entryFound, againFound⟩
    obtain ⟨_, otherEntry, listed, otherListed, entries⟩ := same.programs.methodEntries related
    cases entryFound.symm.trans listed
    have bodies : (entry.blocks.filterMap left.block?).map BlockEntry.statements =
        (otherEntry.blocks.filterMap right.block?).map BlockEntry.statements :=
      congrArg (fun source => source.method.blocks) entries.source
    have body : block.statements ∈
        (entry.blocks.filterMap left.block?).map BlockEntry.statements :=
      List.mem_map_of_mem (List.mem_filterMap.mpr ⟨id, inBlocks, found⟩)
    rw [bodies] at body
    obtain ⟨otherBlock, otherMember, _⟩ := List.mem_map.mp body
    obtain ⟨otherId, otherInBlocks, otherFound⟩ := List.mem_filterMap.mp otherMember
    obtain ⟨_, foundAgain, caller⟩ :=
      (same.programs.otherIntegral.blocks again otherEntry otherListed otherId).mp otherInBlocks
    cases otherFound.symm.trans foundAgain
    exact ⟨again, mem_mentions.mpr (.inl ⟨otherId, otherBlock, otherFound, caller⟩), related⟩
  · obtain ⟨site', listed, place⟩ := same.exists_site member
    obtain ⟨again, againTargeted, related⟩ :=
      (same.targets site member site' listed place).exists_target targeted
    exact ⟨again, mem_mentions.mpr (.inr ⟨site', listed, againTargeted⟩), related⟩

theorem exists_link {link : MethodId × MethodId}
    (linked : link ∈ (left.resolutions fun site => (outcome site).targets).map Resolution.link) :
    ∃ again ∈ (right.resolutions fun site => (other site).targets).map Resolution.link,
      SameMethod left right link.1 again.1 ∧ SameMethod left right link.2 again.2 := by
  obtain ⟨site, member, caller, targeted⟩ := mem_links.mp linked
  obtain ⟨again, listed, place⟩ := same.exists_site member
  obtain ⟨target, againTargeted, related⟩ :=
    (same.targets site member again listed place).exists_target targeted
  exact ⟨(again.caller, target), mem_links.mpr ⟨again, listed, rfl, againTargeted⟩,
    caller ▸ same.programs.callers member place, related⟩

theorem aligned : ∃ sites, sites.Perm right.callSites ∧
    List.Forall₂ (fun site again => (outcome site).Mirrors left right (other again) ∧
      site.invocation = again.invocation) left.callSites sites := by
  have read : List.Forall₂ (fun place site => place = right.placeOf site)
      (right.callSites.map right.placeOf) right.callSites := by
    rw [List.forall₂_map_left_iff, List.forall₂_same]
    exact fun _ _ => rfl
  obtain ⟨sites, placed, shuffled⟩ := List.perm_comp_forall₂ same.places read
  refine ⟨sites, shuffled, ?_⟩
  have places : left.callSites.map left.placeOf = sites.map right.placeOf := by
    rw [← List.forall₂_eq_eq_eq, List.forall₂_map_right_iff]
    exact placed
  refine (forall₂_of_map_eq places).imp ?_
  rintro site again ⟨member, listed, place⟩
  constructor
  · exact same.targets site member again (shuffled.mem_iff.mp listed) place
  · exact congrArg SitePlace.invocation place

theorem kinds_perm :
    ((left.resolutions fun site => (outcome site).targets).map
      fun resolution => resolution.1.invocation.kind).Perm
    ((right.resolutions fun site => (other site).targets).map
      fun resolution => resolution.1.invocation.kind) := by
  obtain ⟨sites, shuffled, related⟩ := same.aligned
  simp only [Program.resolutions, List.map_flatMap, List.map_map, Function.comp_def, List.map_const']
  refine List.Perm.trans (.of_eq ?_) (shuffled.flatMap_right _)
  refine flatMap_eq_of_forall₂ related ?_
  rintro site again ⟨mirrors, invocation⟩
  rw [mirrors.length_eq, invocation]

theorem counters_eq :
    left.callSites.foldl (fun counters site => Counters.count counters (outcome site)) .zero =
      right.callSites.foldl (fun counters site => counters.count (other site)) .zero := by
  obtain ⟨sites, shuffled, related⟩ := same.aligned
  have step : ∀ counters again, counters = again → ∀ site site',
      (outcome site).Mirrors left right (other site') ∧ site.invocation = site'.invocation →
      Counters.count counters (outcome site) = again.count (other site') := by
    rintro counters _ rfl site site' ⟨mirrors, _⟩
    exact mirrors.count counters
  rw [List.rel_foldl step rfl related]
  exact shuffled.foldl_eq' (fun _ _ _ _ counters => counters.count_comm _ _) _

end SameOutcomes

namespace Program

theorem Integral.identityOf?_injective {program : Program} (integral : program.Integral)
    {method other : MethodId} (found : ∃ entry, program.method? method = some entry)
    (same : program.identityOf? method = program.identityOf? other) : method = other := by
  obtain ⟨entry, listed⟩ := found
  exact ((Mirrors.refl integral).sameMethod_of_identityOf? listed same).eq

theorem Mirrors.found {left right : Program} (mirrors : left.Mirrors right)
    {method other : MethodId} (same : SameMethod left right method other) :
    ∃ entry, left.method? method = some entry := by
  obtain ⟨entry, _, listed, _⟩ := mirrors.methodEntries same
  exact ⟨entry, listed⟩

theorem Mirrors.places_of_caller {left right : Program} (mirrors : left.Mirrors right)
    {classes others : List ClassDecl} {sources otherSources : List DetachedMethod}
    (held : left.Holds classes sources) (otherHeld : right.Holds others otherSources)
    {caller otherCaller : MethodId} (same : SameMethod left right caller otherCaller) :
    (left.callSites.filter fun site => site.caller = caller).map left.placeOf =
      (right.callSites.filter fun site => site.caller = otherCaller).map right.placeOf := by
  obtain ⟨entry, otherEntry, listed, otherListed, entries⟩ := mirrors.methodEntries same
  rw [held.places_of_caller listed, otherHeld.places_of_caller otherListed, entries.source]

end Program

namespace CallGraph

/-- The graphs show the same methods and the same calls and have the same figures. Methods are told
by class and signature, and a block by its method and its position there. -/
structure SameByName (left right : Program) (callGraph other : CallGraph) : Prop where
  methods : (callGraph.methods.map left.identityOf?).Perm (other.methods.map right.identityOf?)
  callSites : ∀ caller otherCaller callee otherCallee, SameMethod left right caller otherCaller →
    SameMethod left right callee otherCallee →
    (callGraph.callSites caller callee).map left.placeOf =
      (other.callSites otherCaller otherCallee).map right.placeOf
  stats : callGraph.stats = other.stats

theorem filter_caller (sites : List CallSite) (targets : CallSite → List MethodId)
    (caller callee : MethodId) :
    (sites.filter fun site => site.caller = caller ∧ callee ∈ targets site) =
      (sites.filter fun site => site.caller = caller).filter
        fun site => callee ∈ targets site := by
  rw [List.filter_filter]
  refine List.filter_congr fun site _ => ?_
  rw [Bool.decide_and, Bool.and_comm]

section Merged

variable {left right : Program} {outcome other : CallSite → CallTarget}
  {callGraph otherGraph : CallGraph} (same : SameOutcomes left right outcome other)
  (records : callGraph.Records (left.mentions fun site => (outcome site).targets)
    (left.resolutions fun site => (outcome site).targets))
  (otherRecords : otherGraph.Records (right.mentions fun site => (other site).targets)
    (right.resolutions fun site => (other site).targets))

include same

theorem mentions_iff (identity : Option (String × Signature)) :
    identity ∈ (left.mentions fun site => (outcome site).targets).map left.identityOf? ↔
      identity ∈ (right.mentions fun site => (other site).targets).map right.identityOf? := by
  refine mem_map_iff_of_cover _ same.programs.identityOf?_eq (fun _ => same.exists_mention)
    (fun again mentioned => ?_) identity
  obtain ⟨method, member, related⟩ := same.symm.exists_mention mentioned
  exact ⟨method, member, related.symm⟩

theorem links_iff (link : Option (String × Signature) × Option (String × Signature)) :
    link ∈ ((left.resolutions fun site => (outcome site).targets).map Resolution.link).map
        (Prod.map left.identityOf? left.identityOf?) ↔
      link ∈ ((right.resolutions fun site => (other site).targets).map Resolution.link).map
        (Prod.map right.identityOf? right.identityOf?) := by
  refine mem_map_iff_of_cover (fun pair again => SameMethod left right pair.1 again.1 ∧
    SameMethod left right pair.2 again.2) (fun _ _ related => ?_) (fun _ => same.exists_link)
    (fun again linked => ?_) link
  · exact Prod.ext (same.programs.identityOf?_eq _ _ related.1)
      (same.programs.identityOf?_eq _ _ related.2)
  · obtain ⟨pair, member, related⟩ := same.symm.exists_link linked
    exact ⟨pair, member, related.1.symm, related.2.symm⟩

include records

theorem methods_map_eq : callGraph.methods.map left.identityOf? =
    ((left.mentions fun site => (outcome site).targets).map left.identityOf?).eraseDups := by
  rw [records.methods, eraseDups_map]
  intro method member again _
  obtain ⟨_, _, related⟩ := same.exists_mention member
  exact same.programs.integral.identityOf?_injective (same.programs.found related)

theorem stats_map_eq : callGraph.stats = .ofRecords
    ((left.mentions fun site => (outcome site).targets).map left.identityOf?)
    (((left.resolutions fun site => (outcome site).targets).map Resolution.link).map
      (Prod.map left.identityOf? left.identityOf?))
    ((left.resolutions fun site => (outcome site).targets).map
      fun resolution => resolution.1.invocation.kind) callGraph.counters := by
  rw [records.stats_ofRecords]
  refine (Stats.ofRecords_map (fun method => ∃ entry, left.method? method = some entry)
    ?_ ?_ ?_ _ _).symm
  · exact fun _ _ found _ => same.programs.integral.identityOf?_injective found
  · intro method member
    obtain ⟨_, _, related⟩ := same.exists_mention member
    exact same.programs.found related
  · intro link linked
    obtain ⟨_, _, callers, callees⟩ := same.exists_link linked
    exact ⟨same.programs.found callers, same.programs.found callees⟩

include otherRecords

theorem sameByName (uniqueTargets : ∀ site ∈ left.callSites, (outcome site).targets.Nodup)
    (otherUnique : ∀ site ∈ right.callSites, (other site).targets.Nodup)
    (places : ∀ caller otherCaller, SameMethod left right caller otherCaller →
      (left.callSites.filter fun site => site.caller = caller).map left.placeOf =
        (right.callSites.filter fun site => site.caller = otherCaller).map right.placeOf)
    (counters : callGraph.counters = otherGraph.counters) :
    callGraph.SameByName left right otherGraph := by
  refine ⟨?_, fun caller otherCaller callee otherCallee callers callees => ?_, ?_⟩
  · rw [methods_map_eq same records, methods_map_eq same.symm otherRecords]
    exact eraseDups_perm (mentions_iff same)
  · have related := forall₂_of_map_eq (places caller otherCaller callers)
    rw [records.callSites_eq, otherRecords.callSites_eq, Program.sitesOn_resolutions uniqueTargets,
      Program.sitesOn_resolutions otherUnique, filter_caller, filter_caller]
    refine map_filter_of_forall₂ related ?_ fun _ _ paired => paired.2.2
    rintro site again ⟨member, listed, place⟩
    have mirrors := same.targets site (List.mem_filter.mp member).1 again
      (List.mem_filter.mp listed).1 place
    exact decide_eq_decide.mpr (mirrors.mem_iff same.programs callees)
  · rw [stats_map_eq same records, stats_map_eq same.symm otherRecords, counters]
    exact Stats.ofRecords_congr (mentions_iff same) (links_iff same) same.kinds_perm _

end Merged

theorem registration_order_immaterial {classes others : List ClassDecl}
    (shuffled : classes.Perm others) (detached : List DetachedMethod) :
    ((∃ program, Program.load classes detached = .ok program) ↔
      ∃ other, Program.load others detached = .ok other) ∧
    ∀ program other, Program.load classes detached = .ok program →
      Program.load others detached = .ok other →
      ∀ policy requests otherRequests,
      let built := Hierarchy.afterHistory program policy requests
      let otherBuilt := Hierarchy.afterHistory other policy otherRequests
      Hierarchy.SameAnswers built otherBuilt ∧
      ∀ options otherOptions schedule otherSchedule, schedule.Perm program.blockEntries →
        otherSchedule.Perm other.blockEntries →
        ∃ callGraph events otherGraph otherEvents,
          (buildScheduled built.1 options schedule built.2).1 = .ok (callGraph, events) ∧
          (buildScheduled otherBuilt.1 otherOptions otherSchedule otherBuilt.2).1 =
            .ok (otherGraph, otherEvents) ∧
          callGraph.SameByName program other otherGraph := by
  refine ⟨?_, fun program other loaded otherLoaded policy requests otherRequests => ?_⟩
  · rw [load_succeeds_iff, load_succeeds_iff]
    exact ⟨loadable_perm shuffled, loadable_perm shuffled.symm⟩
  · have mirrors := load_mirrors shuffled loaded otherLoaded
    have held := load_holds loaded
    have otherHeld := load_holds otherLoaded
    refine ⟨Hierarchy.sameAnswers mirrors policy requests otherRequests, ?_⟩
    intro options otherOptions schedule otherSchedule scheduled otherScheduled
    obtain ⟨outcome, callGraph, _, built, _, resolves, merged⟩ := buildScheduled_merges
      (load_wellFormed loaded) options scheduled
      (Hierarchy.exact_afterHistory program policy requests)
    obtain ⟨otherOutcome, otherGraph, _, otherBuilt, _, otherResolves, otherMerged⟩ :=
      buildScheduled_merges (load_wellFormed otherLoaded) otherOptions otherScheduled
        (Hierarchy.exact_afterHistory other policy otherRequests)
    have hierarchies : (Hierarchy.ofProgram program policy).1.Mirrors
        (Hierarchy.ofProgram other policy).1 := ⟨mirrors, rfl, rfl⟩
    have places : (program.callSites.map program.placeOf).Perm
        (other.callSites.map other.placeOf) := by
      rw [held.places_eq, otherHeld.places_eq]
      exact (sources_perm shuffled detached).flatMap_right _
    have same : SameOutcomes program other (fun site => (outcome site).1)
        fun site => (otherOutcome site).1 :=
      .of_resolves hierarchies rfl places resolves otherResolves
    have counters : callGraph.counters = otherGraph.counters := by
      rw [counters_of_merge merged, counters_of_merge otherMerged, same.counters_eq]
    exact ⟨callGraph, _, otherGraph, _, congrArg Prod.fst built, congrArg Prod.fst otherBuilt,
      sameByName same (records_of_merge merged) (records_of_merge otherMerged)
        (fun site member => (resolves site member).leadsTo.1)
        (fun site member => (otherResolves site member).leadsTo.1)
        (fun _ _ => mirrors.places_of_caller held otherHeld) counters⟩

def reversedProgram : Program :=
  (Program.load tangledClasses.reverse []).toOption.getD .empty

theorem registration_order_immaterial_tangled :
    let built := Hierarchy.afterHistory tangledProgram .precise [.subClasses ⟨3⟩]
    let otherBuilt := Hierarchy.afterHistory reversedProgram .precise []
    let schedule := tangledProgram.blockEntries.reverse
    tangledProgram.classId? "I" = some ⟨0⟩ ∧ reversedProgram.classId? "I" = some ⟨4⟩ ∧
    Hierarchy.SameAnswers built otherBuilt ∧ ∃ callGraph events otherGraph otherEvents,
      (buildScheduled built.1 .standard schedule built.2).1 = .ok (callGraph, events) ∧
      (buildScheduled otherBuilt.1 .sequential reversedProgram.blockEntries otherBuilt.2).1 =
        .ok (otherGraph, otherEvents) ∧
      callGraph.SameByName tangledProgram reversedProgram otherGraph := by
  have loaded : Program.load tangledClasses.reverse [] = .ok reversedProgram := by decide +kernel
  obtain ⟨_, same⟩ := registration_order_immaterial (List.reverse_perm tangledClasses).symm []
  obtain ⟨answers, graphs⟩ := same tangledProgram reversedProgram tangledProgram_loaded loaded
    .precise [.subClasses ⟨3⟩] []
  exact ⟨by decide +kernel, by decide +kernel, answers, graphs .standard .sequential _ _
    (List.reverse_perm _) (.refl _)⟩

end CallGraph

end CallResolution

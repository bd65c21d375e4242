import CallResolution.Proofs.Building
import CallResolution.Proofs.Figures
import Mathlib.Data.List.Perm.Basic

/-!
The order in which blocks are resolved. A call is resolved with the memos that the calls before
it have filled, so another order computes with other memos. Without cycles no outcome depends
on them. With cycles the targets of a call may come in another order, which can change the
order of nodes and edges and nothing else.
-/

namespace CallResolution

open Resolution

variable {program : Program} {policy : Policy}

namespace Hierarchy

section Acyclic

variable (acyclic : program.Acyclic policy)

include acyclic

theorem settles_resolveCall (caller : MethodId) (invocation : Invocation) :
    Query.Settles (tables program policy).Plain
      ((ofProgram program policy).1.resolveCall caller invocation) := by
  unfold resolveCall
  split
  · exact .pure _
  · split
    · exact .pure _
    · refine (settles_targets acyclic _ _ _).observe.bind fun answer => ?_
      split
      · exact .pure _
      · exact .pure _
      · split
        · exact .pure _
        · exact .ofExcept (.error _)

theorem resolveSites_settled {sites : List CallSite}
    {outcome : CallSite → CallTarget × Option Event} {memos later : Memos}
    (held : (tables program policy).Plain memos)
    (asked : (ofProgram program policy).1.resolveSites sites memos =
      (.ok (sites.map outcome), later)) :
    ∀ site ∈ sites, ∀ others, (tables program policy).Plain others →
      ((ofProgram program policy).1.resolveCall site.caller site.invocation others).1 =
        .ok (outcome site) :=
  Query.Meets.mapM_ok
    (fun site _ => (settles_resolveCall acyclic site.caller site.invocation).meets) held asked

end Acyclic

end Hierarchy

namespace BlockCalls

variable {outcome other : CallSite → CallTarget × Option Event}

theorem map_ofEntry_congr {entries : List (BlockId × BlockEntry)}
    (same : ∀ site ∈ Program.sitesIn entries, outcome site = other site) :
    entries.map (ofEntry outcome) = entries.map (ofEntry other) := by
  refine List.map_congr_left fun entry member => ?_
  refine congrArg (BlockCalls.mk entry.2.method entry.1) (List.map_congr_left fun call listed => ?_)
  have site := same ⟨entry.2.method, entry.1, call.1, call.2⟩
    (List.mem_flatMap.mpr ⟨entry, member, List.mem_map_of_mem listed⟩)
  rw [site]

theorem targets_ofEntry (outcome : CallSite → CallTarget × Option Event)
    (entry : BlockId × BlockEntry) :
    (ofEntry outcome entry).calls.map ResolvedCall.target =
      (Program.sitesOf entry).map fun site => (outcome site).1 := by
  simp [ofEntry, Program.sitesOf]

end BlockCalls

namespace CallGraph

/-- The graphs show the same methods, links and call sites and have the same figures. The order
of methods and links is left open. -/
structure SameCalls (left right : CallGraph) : Prop where
  methods : left.methods.Perm right.methods
  links : (left.graph.edges.toList.map fun edge =>
      (left.graph.node? edge.source, left.graph.node? edge.target)).Perm
    (right.graph.edges.toList.map fun edge =>
      (right.graph.node? edge.source, right.graph.node? edge.target))
  callSites : ∀ caller callee, left.callSites caller callee = right.callSites caller callee
  stats : left.stats = right.stats

variable {outcome other : CallSite → CallTarget × Option Event} {options others : BuildOptions}
  {callGraph otherGraph : CallGraph}

theorem counters_of_merge
    (merged : merge options (program.blockEntries.map (BlockCalls.ofEntry outcome)) =
      .ok callGraph) :
    callGraph.counters =
      program.callSites.foldl (fun counters site => counters.count (outcome site).1) .zero := by
  rw [merge_counters merged, List.flatMap_map]
  simp only [BlockCalls.targets_ofEntry]
  rw [← List.map_flatMap, List.foldl_map]
  rfl

theorem sameCalls_of_alike
    (alike : ∀ site ∈ program.callSites, (outcome site).1.Alike (other site).1)
    (unique : ∀ site ∈ program.callSites, (outcome site).1.targets.Nodup)
    (merged : merge options (program.blockEntries.map (BlockCalls.ofEntry outcome)) =
      .ok callGraph)
    (otherMerged : merge others (program.blockEntries.map (BlockCalls.ofEntry other)) =
      .ok otherGraph) :
    callGraph.SameCalls otherGraph := by
  have targets : ∀ site ∈ program.callSites,
      (outcome site).1.targets.Perm (other site).1.targets :=
    fun site member => (alike site member).targets
  have records := records_of_merge merged
  have otherRecords := records_of_merge otherMerged
  have mentioned : (program.mentions fun site => (outcome site).1.targets).Perm
      (program.mentions fun site => (other site).1.targets) := by
    refine List.Perm.flatMap_left _ fun entry member => .cons _ ?_
    exact List.Perm.flatMap_left _ fun site listed =>
      targets site (List.mem_flatMap.mpr ⟨entry, member, listed⟩)
  have sites (link : MethodId × MethodId) :
      sitesOn (program.resolutions fun site => (outcome site).1.targets) link =
        sitesOn (program.resolutions fun site => (other site).1.targets) link := by
    have otherUnique : ∀ site ∈ program.callSites, (other site).1.targets.Nodup :=
      fun site member => (targets site member).nodup_iff.mp (unique site member)
    rw [Program.sitesOn_resolutions unique, Program.sitesOn_resolutions otherUnique]
    refine List.filter_congr fun site member => ?_
    simp only [(targets site member).mem_iff]
  have counters : callGraph.counters = otherGraph.counters := by
    rw [counters_of_merge merged, counters_of_merge otherMerged]
    exact List.foldl_ext _ _ _ fun counters site member => (alike site member).count counters
  refine ⟨records.methods_perm otherRecords fun _ => mentioned.mem_iff, ?_, ?_,
    records.stats_eq otherRecords (fun _ => mentioned.mem_iff) sites counters⟩
  · rw [records.links_eq, otherRecords.links_eq]
    exact (eraseDups_perm (Records.mem_links_iff sites)).map _
  · intro caller callee
    rw [records.callSites_eq, otherRecords.callSites_eq, sites]

theorem schedule_irrelevant {classes : List ClassDecl} {detached : List DetachedMethod}
    (loaded : Program.load classes detached = .ok program) (policy : Policy)
    (requests : List Request) (options others : BuildOptions)
    {schedule : List (BlockId × BlockEntry)} (shuffled : schedule.Perm program.blockEntries) :
    let built := Hierarchy.afterHistory program policy requests
    ∃ sequential events scheduled otherEvents,
      (build built.1 options built.2).1 = .ok (sequential, events) ∧
      (buildScheduled built.1 others schedule built.2).1 = .ok (scheduled, otherEvents) ∧
      (program.Acyclic policy →
        scheduled = sequential.withOptions others ∧ otherEvents.Perm events) ∧
      scheduled.SameCalls sequential := by
  have wellFormed := Program.load_wellFormed loaded
  have held := Hierarchy.exact_afterHistory program policy requests
  obtain ⟨outcome, sequential, _, built, asked, resolves, merged⟩ :=
    buildScheduled_merges wellFormed options (.refl _) held
  obtain ⟨other, scheduled, _, otherBuilt, otherAsked, otherResolves, otherMerged⟩ :=
    buildScheduled_merges wellFormed others shuffled held
  refine ⟨sequential, _, scheduled, _, congrArg Prod.fst built, congrArg Prod.fst otherBuilt, ?_,
    sameCalls_of_alike (fun site member => (otherResolves site member).alike (resolves site member))
      (fun site member => (otherResolves site member).leadsTo.1) otherMerged merged⟩
  intro acyclic
  have plain := Hierarchy.plain_afterHistory acyclic requests
  have same : ∀ site ∈ program.callSites, outcome site = other site := by
    intro site member
    have scheduledMember : site ∈ Program.sitesIn schedule :=
      (shuffled.flatMap_right Program.sitesOf).mem_iff.mpr member
    have here := Hierarchy.resolveSites_settled acyclic plain asked site member _ plain
    have there :=
      Hierarchy.resolveSites_settled acyclic plain otherAsked site scheduledMember _ plain
    exact Except.ok.inj (here.symm.trans there)
  rw [merge_withOptions options others, ← BlockCalls.map_ofEntry_congr same, merged] at otherMerged
  cases otherMerged
  refine ⟨rfl, ?_⟩
  have found : (schedule.map (BlockCalls.ofEntry other)).Perm
      (program.blockEntries.map (BlockCalls.ofEntry outcome)) := by
    rw [BlockCalls.map_ofEntry_congr same]
    exact shuffled.map _
  exact (found.flatMap_right _).append (.refl _)

def shapeClasses : List ClassDecl :=
  let area : Signature := ⟨"area", []⟩
  let call (kind : InvocationKind) (className : String) : Statement :=
    .invoke ⟨kind, className, area⟩
  [⟨"Shape", none, [], .interfaceBit, [⟨area, .publicBit, []⟩]⟩,
    ⟨"Base", none, ["Shape"], .ofBits 0x401, [⟨area, .publicBit, [[call .virtual "Base"]]⟩]⟩,
    ⟨"Round", some "Base", [], .publicBit, [⟨area, .publicBit, [[call .special "Base"]]⟩]⟩,
    ⟨"Square", some "Base", [], .publicBit, [⟨area, .publicBit, [[], [call .interface "Shape"]]⟩]⟩,
    ⟨"Main", none, [], .publicBit, [⟨⟨"main", []⟩, .publicBit,
      [[call .interface "Shape", call .static "Main"], [call .virtual "Round"]]⟩]⟩]

def shapeProgram : Program :=
  (Program.load shapeClasses []).toOption.getD .empty

theorem shapeProgram_loaded : Program.load shapeClasses [] = .ok shapeProgram := by
  decide +kernel

theorem shapeProgram_acyclic (policy : Policy) : shapeProgram.Acyclic policy :=
  Program.acyclic_of_ordered policy (by decide +kernel) (by decide +kernel)

theorem schedule_irrelevant_reversed :
    (let built := Hierarchy.afterHistory shapeProgram .precise [.implementers ⟨0⟩]
    ∃ sequential events scheduled otherEvents,
      (build built.1 .sequential built.2).1 = .ok (sequential, events) ∧
      (buildScheduled built.1 .standard shapeProgram.blockEntries.reverse built.2).1 =
        .ok (scheduled, otherEvents) ∧
      scheduled = sequential.withOptions .standard ∧ otherEvents.Perm events) ∧
    let built := Hierarchy.afterHistory tangledProgram .precise [.subClasses ⟨3⟩]
    ∃ sequential events scheduled otherEvents,
      (build built.1 .sequential built.2).1 = .ok (sequential, events) ∧
      (buildScheduled built.1 .standard tangledProgram.blockEntries.reverse built.2).1 =
        .ok (scheduled, otherEvents) ∧
      scheduled.SameCalls sequential := by
  constructor
  · obtain ⟨sequential, events, scheduled, otherEvents, built, otherBuilt, same, _⟩ :=
      schedule_irrelevant shapeProgram_loaded .precise [.implementers ⟨0⟩] .sequential .standard
        (List.reverse_perm _)
    exact ⟨sequential, events, scheduled, otherEvents, built, otherBuilt,
      same (shapeProgram_acyclic .precise)⟩
  · obtain ⟨sequential, events, scheduled, otherEvents, built, otherBuilt, _, same⟩ :=
      schedule_irrelevant tangledProgram_loaded .precise [.subClasses ⟨3⟩] .sequential .standard
        (List.reverse_perm _)
    exact ⟨sequential, events, scheduled, otherEvents, built, otherBuilt, same⟩

end CallGraph

end CallResolution

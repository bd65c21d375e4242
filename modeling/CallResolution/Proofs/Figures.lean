import CallResolution.CallGraph.Stats
import CallResolution.Proofs.Loading
import CallResolution.Proofs.Recorded

/-!
The figures of a call graph. Counters count the merged calls, options are kept as they are
given, and all other figures can be read off what the graph records. So graphs that record the
same methods and the same sites have the same figures, in whatever order they record them.
-/

namespace CallResolution

open Resolution

theorem foldlM_map {ε σ α : Type} {step : σ → α → Except ε σ} {change : σ → σ}
    (each : ∀ state item, step (change state) item = (step state item).map change)
    (items : List α) (start : σ) :
    items.foldlM step (change start) = (items.foldlM step start).map change := by
  induction items generalizing start with
  | nil => rfl
  | cons item items ih =>
      rw [List.foldlM_cons, List.foldlM_cons, each]
      cases step start item with
      | error error => rfl
      | ok next => exact ih next

theorem foldlM_view {ε σ α τ : Type} {step : σ → α → Except ε σ} (view : σ → τ)
    (update : τ → α → τ)
    (each : ∀ state item next, step state item = .ok next → view next = update (view state) item)
    {items : List α} {start final : σ} (folded : items.foldlM step start = .ok final) :
    view final = items.foldl update (view start) := by
  induction items generalizing start with
  | nil =>
      cases folded
      rfl
  | cons item items ih =>
      rw [List.foldlM_cons] at folded
      obtain ⟨middle, first, rest⟩ := bind_eq_ok.mp folded
      rw [ih rest, each start item middle first, List.foldl_cons]

theorem eraseDups_perm {α : Type} [BEq α] [LawfulBEq α] {left right : List α}
    (same : ∀ item, item ∈ left ↔ item ∈ right) : left.eraseDups.Perm right.eraseDups := by
  rw [List.perm_ext_iff_of_nodup (nodup_eraseDups left) (nodup_eraseDups right)]
  simpa using same

namespace Stats

/-- Figures as a function of what a graph records: the methods that come up, the links, and the
kinds of the calls. -/
def ofRecords {α : Type} [DecidableEq α] (seen : List α) (links : List (α × α))
    (kinds : List InvocationKind) (counters : Counters) : Stats where
  methodCount := seen.eraseDups.length
  edgeCount := links.eraseDups.length
  totalCallSites := kinds.length
  callsByKind := .ofFn kinds.count
  entryPoints := (seen.eraseDups.filter (· ∉ links.map Prod.snd)).length
  leafMethods := (seen.eraseDups.filter (· ∉ links.map Prod.fst)).length
  counters := counters

variable {α β : Type} [DecidableEq α] [DecidableEq β]

theorem ofRecords_congr {seen otherSeen : List α} {links otherLinks : List (α × α)}
    {kinds otherKinds : List InvocationKind}
    (same : ∀ method, method ∈ seen ↔ method ∈ otherSeen)
    (linked : ∀ link, link ∈ links ↔ link ∈ otherLinks) (shuffled : kinds.Perm otherKinds)
    (counters : Counters) :
    ofRecords seen links kinds counters = ofRecords otherSeen otherLinks otherKinds counters := by
  have methods := eraseDups_perm same
  have byKind : kinds.count = otherKinds.count := funext shuffled.count_eq
  have apart {near : α × α → α} : (seen.eraseDups.filter (· ∉ links.map near)).length =
      (otherSeen.eraseDups.filter (· ∉ otherLinks.map near)).length := by
    simp only [List.mem_map, linked, (methods.filter _).length_eq]
  simp only [ofRecords, methods.length_eq, (eraseDups_perm linked).length_eq, shuffled.length_eq,
    byKind, apart]

theorem ofRecords_map {view : α → β} (valid : α → Prop)
    (injective : ∀ item other, valid item → valid other → view item = view other → item = other)
    {seen : List α} {links : List (α × α)} (seenValid : ∀ method ∈ seen, valid method)
    (linksValid : ∀ link ∈ links, valid link.1 ∧ valid link.2) (kinds : List InvocationKind)
    (counters : Counters) :
    ofRecords (seen.map view) (links.map (Prod.map view view)) kinds counters =
      ofRecords seen links kinds counters := by
  have methods : (seen.map view).eraseDups = seen.eraseDups.map view :=
    eraseDups_map fun item member other otherMember =>
      injective item other (seenValid item member) (seenValid other otherMember)
  have edges : (links.map (Prod.map view view)).eraseDups =
      links.eraseDups.map (Prod.map view view) := by
    refine eraseDups_map fun item member other otherMember same => ?_
    have valid := linksValid item member
    have otherValid := linksValid other otherMember
    obtain ⟨first, second⟩ := Prod.mk.inj same
    exact Prod.ext (injective _ _ valid.1 otherValid.1 first)
      (injective _ _ valid.2 otherValid.2 second)
  have apart {ends : List α} (endsValid : ∀ item ∈ ends, valid item) :
      ((seen.eraseDups.map view).filter (· ∉ ends.map view)).length =
        (seen.eraseDups.filter (· ∉ ends)).length := by
    rw [List.filter_map, List.length_map]
    refine congrArg List.length (List.filter_congr fun method member => ?_)
    have methodValid := seenValid method (List.mem_eraseDups.mp member)
    rw [Function.comp_apply, decide_eq_decide, not_iff_not]
    refine ⟨fun listed => ?_, List.mem_map_of_mem⟩
    obtain ⟨other, otherListed, same⟩ := List.mem_map.mp listed
    exact injective other method (endsValid other otherListed) methodValid same ▸ otherListed
  have sources : (links.map (Prod.map view view)).map Prod.fst = (links.map Prod.fst).map view := by
    simp only [List.map_map, Function.comp_def, Prod.map_fst]
  have targets : (links.map (Prod.map view view)).map Prod.snd = (links.map Prod.snd).map view := by
    simp only [List.map_map, Function.comp_def, Prod.map_snd]
  have sourcesValid : ∀ item ∈ links.map Prod.fst, valid item :=
    List.forall_mem_map.mpr fun link linked => (linksValid link linked).1
  have targetsValid : ∀ item ∈ links.map Prod.snd, valid item :=
    List.forall_mem_map.mpr fun link linked => (linksValid link linked).2
  simp only [ofRecords, methods, edges, List.length_map, sources, targets, apart sourcesValid,
    apart targetsValid]

end Stats

namespace CallGraph

def withOptions (callGraph : CallGraph) (options : BuildOptions) : CallGraph :=
  { callGraph with options := options }

namespace Draft

def withOptions (draft : Draft) (options : BuildOptions) : Draft :=
  { draft with callGraph := draft.callGraph.withOptions options }

variable (options : BuildOptions)

theorem intern_withOptions (draft : Draft) (method : MethodId) :
    (draft.withOptions options).intern method =
      ((draft.intern method).1.withOptions options, (draft.intern method).2) := by
  have looked : (draft.withOptions options).callGraph.nodeOf? method =
      draft.callGraph.nodeOf? method := rfl
  simp only [Draft.intern, CallGraph.intern, looked]
  cases draft.callGraph.nodeOf? method <;> rfl

theorem addSite_withOptions (draft : Draft) (source target : NodeId) (site : CallSite) :
    (draft.withOptions options).addSite source target site =
      (draft.addSite source target site).map (withOptions · options) := by
  have looked : (draft.withOptions options).edgeIndex = draft.edgeIndex := rfl
  have graph : (draft.withOptions options).callGraph.graph = draft.callGraph.graph := rfl
  simp only [Draft.addSite, looked, graph]
  cases draft.edgeIndex.lookup (source, target) with
  | some edge =>
      dsimp only
      cases draft.callGraph.graph.modifyEdge? edge (· ++ [site]) <;> rfl
  | none => cases draft.callGraph.graph.addEdge source target [site] <;> rfl

theorem addBlock_withOptions (draft : Draft) (block : BlockCalls) :
    (draft.withOptions options).addBlock block =
      (draft.addBlock block).map (withOptions · options) := by
  have target (source : NodeId) (site : CallSite) (draft : Draft) (target : MethodId) :
      addTarget source site (draft.withOptions options) target =
        (addTarget source site draft target).map (withOptions · options) := by
    simp only [addTarget, intern_withOptions, addSite_withOptions]
  have call (source : NodeId) (draft : Draft) (call : ResolvedCall) :
      (draft.withOptions options).addCall block.caller block.block source call =
        (draft.addCall block.caller block.block source call).map (withOptions · options) :=
    foldlM_map (target source _) call.target.targets (draft.count call.target)
  simp only [addBlock, intern_withOptions]
  exact foldlM_map (call _) block.calls (draft.intern block.caller).1

end Draft

theorem merge_withOptions (options others : BuildOptions) (blocks : List BlockCalls) :
    merge others blocks = (merge options blocks).map (withOptions · others) := by
  have folded := foldlM_map (Draft.addBlock_withOptions others) blocks ⟨empty options, []⟩
  simp only [merge]
  change (blocks.foldlM Draft.addBlock ((⟨empty options, []⟩ : Draft).withOptions others) >>= _) = _
  rw [folded]
  cases blocks.foldlM Draft.addBlock ⟨empty options, []⟩ <;> rfl

theorem merge_options {options : BuildOptions} {blocks : List BlockCalls} {callGraph : CallGraph}
    (merged : merge options blocks = .ok callGraph) : callGraph.options = options := by
  have again := merge_withOptions options options blocks
  rw [merged] at again
  exact congrArg CallGraph.options (Except.ok.inj again)

namespace Draft

theorem counters_addSite {draft next : Draft} {source target : NodeId} {site : CallSite}
    (added : draft.addSite source target site = .ok next) :
    next.callGraph.counters = draft.callGraph.counters := by
  unfold Draft.addSite at added
  split at added
  · split at added
    · cases added
      rfl
    · cases added
  · obtain ⟨_, _, rest⟩ := bind_eq_ok.mp added
    cases rest
    rfl

theorem counters_intern (draft : Draft) (method : MethodId) :
    (draft.intern method).1.callGraph.counters = draft.callGraph.counters := by
  simp only [Draft.intern, CallGraph.intern]
  split <;> rfl

theorem counters_addBlock {draft next : Draft} {block : BlockCalls}
    (added : draft.addBlock block = .ok next) :
    next.callGraph.counters =
      (block.calls.map ResolvedCall.target).foldl Counters.count draft.callGraph.counters := by
  have target {source : NodeId} {site : CallSite} (draft : Draft) (target : MethodId) (next : Draft)
      (added : addTarget source site draft target = .ok next) :
      next.callGraph.counters = draft.callGraph.counters :=
    (counters_addSite added).trans (counters_intern draft target)
  have call {source : NodeId} (draft : Draft) (call : ResolvedCall) (next : Draft)
      (added : draft.addCall block.caller block.block source call = .ok next) :
      next.callGraph.counters = draft.callGraph.counters.count call.target := by
    have kept := foldlM_view (fun draft => draft.callGraph.counters) (fun counters _ => counters)
      target added
    rw [kept, List.foldl_fixed]
    rfl
  have counted := foldlM_view (fun draft => draft.callGraph.counters)
    (fun counters call => counters.count call.target) call added
  rw [counted, List.foldl_map]
  exact congrArg (fun start => block.calls.foldl _ start) (counters_intern draft block.caller)

end Draft

theorem merge_counters {options : BuildOptions} {blocks : List BlockCalls} {callGraph : CallGraph}
    (merged : merge options blocks = .ok callGraph) :
    callGraph.counters =
      (blocks.flatMap fun block => block.calls.map ResolvedCall.target).foldl
        Counters.count .zero := by
  obtain ⟨draft, folded, same⟩ := bind_eq_ok.mp merged
  cases same
  have counted := foldlM_view (fun draft => draft.callGraph.counters)
    (fun counters block => (block.calls.map ResolvedCall.target).foldl Counters.count counters)
    (fun _ _ _ => Draft.counters_addBlock) folded
  rw [counted, List.foldl_flatMap]
  rfl

namespace Records

variable {seen : List MethodId} {placed : List Resolution} {callGraph : CallGraph}

theorem allSites_eq (records : callGraph.Records seen placed) :
    callGraph.allSites = (placed.map Resolution.link).eraseDups.flatMap (sitesOn placed) := by
  have mapped := congrArg (List.flatMap fun described => described.2.2) records.edges
  rw [List.flatMap_map, List.flatMap_map] at mapped
  exact mapped

theorem edgeCount_eq (records : callGraph.Records seen placed) :
    callGraph.edgeCount = (placed.map Resolution.link).eraseDups.length := by
  have lengths := congrArg List.length records.edges
  simp only [List.length_map, Array.length_toList] at lengths
  exact lengths

theorem edgesWhere_eq_nil (records : callGraph.Records seen placed) {method : MethodId}
    {node : NodeId} (found : callGraph.nodeOf? method = some node)
    {near : Edge (List CallSite) → NodeId} {own : MethodId × MethodId → MethodId}
    (reads : ∀ edge link, callGraph.nodeOf? link.1 = some edge.source →
      callGraph.nodeOf? link.2 = some edge.target →
      callGraph.nodeOf? (own link) = some (near edge)) :
    callGraph.graph.edgesWhere (fun edge => near edge == node) = [] ↔
      ∀ link ∈ placed.map Resolution.link, own link ≠ method := by
  rw [List.eq_nil_iff_forall_not_mem]
  constructor
  · rintro none link member rfl
    obtain ⟨source, target, id, sourceFound, targetFound, listed⟩ := records.exists_edge member
    have here := reads ⟨source, target, sitesOn placed link⟩ link sourceFound targetFound
    have same := Option.some.inj (here.symm.trans found)
    exact none id (Digraph.mem_edgesWhere.mpr ⟨_, listed, by simp [same]⟩)
  · intro apart id member
    obtain ⟨edge, listed, here⟩ := Digraph.mem_edgesWhere.mp member
    obtain ⟨link, linked, sourceFound, targetFound, _⟩ := records.mem_links listed
    have read := reads edge link sourceFound targetFound
    rw [beq_iff_eq.mp here] at read
    exact apart link linked (records.nodeOf?_injective read found)

theorem methodsAt_filter (records : callGraph.Records seen placed) {test : NodeId → Bool}
    {judge : MethodId → Bool}
    (agree : ∀ method node, callGraph.nodeOf? method = some node → test node = judge method) :
    callGraph.methodsAt (callGraph.graph.nodeIds.filter test) = callGraph.methods.filter judge := by
  have listed : callGraph.methods = callGraph.graph.nodeIds.filterMap callGraph.graph.node? :=
    (Handle.filterMap_upTo callGraph.graph.nodes).symm
  rw [listed, methodsAt, List.filterMap_filter, List.filter_filterMap]
  refine List.filterMap_congr fun node _ => ?_
  cases found : callGraph.graph.node? node with
  | none => simp
  | some method =>
      have same := agree method node ((records.nodeOf method node).mpr found)
      simp [same, Option.filter]

theorem entryPoints_eq (records : callGraph.Records seen placed) :
    callGraph.entryPoints = callGraph.methods.filter fun method =>
      decide (∀ link ∈ placed.map Resolution.link, link.2 ≠ method) := by
  refine records.methodsAt_filter fun method node found => ?_
  have none := records.edgesWhere_eq_nil found fun _ _ _ target => target
  rw [records.consistent.incomingIds, Bool.eq_iff_iff, List.isEmpty_iff, none, decide_eq_true_eq]

theorem leafMethods_eq (records : callGraph.Records seen placed) :
    callGraph.leafMethods = callGraph.methods.filter fun method =>
      decide (∀ link ∈ placed.map Resolution.link, link.1 ≠ method) := by
  refine records.methodsAt_filter fun method node found => ?_
  have none := records.edgesWhere_eq_nil found fun _ _ source _ => source
  rw [records.consistent.outgoingIds, Bool.eq_iff_iff, List.isEmpty_iff, none, decide_eq_true_eq]

variable {otherSeen : List MethodId} {otherPlaced : List Resolution} {other : CallGraph}

theorem methods_perm (records : callGraph.Records seen placed)
    (otherRecords : other.Records otherSeen otherPlaced)
    (same : ∀ method, method ∈ seen ↔ method ∈ otherSeen) :
    callGraph.methods.Perm other.methods := by
  rw [records.methods, otherRecords.methods]
  exact eraseDups_perm same

theorem mem_links_iff (sites : ∀ link, sitesOn placed link = sitesOn otherPlaced link)
    (link : MethodId × MethodId) :
    link ∈ placed.map Resolution.link ↔ link ∈ otherPlaced.map Resolution.link := by
  rw [← not_iff_not, ← sitesOn_eq_nil, ← sitesOn_eq_nil, sites]

theorem allSites_perm (records : callGraph.Records seen placed) :
    callGraph.allSites.Perm (placed.map Prod.fst) := by
  have grouped : callGraph.allSites = ((placed.map Resolution.link).eraseDups.flatMap fun link =>
      placed.filter fun resolution => resolution.link == link).map Prod.fst := by
    rw [records.allSites_eq, List.map_flatMap]
    rfl
  rw [grouped]
  refine (perm_groups (nodup_eraseDups _) fun resolution member => ?_).map _
  exact List.mem_eraseDups.mpr (List.mem_map_of_mem member)

theorem stats_ofRecords (records : callGraph.Records seen placed) :
    callGraph.stats = .ofRecords seen (placed.map Resolution.link)
      (placed.map fun resolution => resolution.1.invocation.kind) callGraph.counters := by
  have methodCount : callGraph.methodCount = seen.eraseDups.length := by
    rw [← records.methods, CallGraph.methods, CallGraph.methodCount, Digraph.nodeCount,
      Array.length_toList]
  have kinds : (callGraph.allSites.map fun site => site.invocation.kind).Perm
      (placed.map fun resolution => resolution.1.invocation.kind) := by
    have mapped := records.allSites_perm.map fun site => site.invocation.kind
    rwa [List.map_map] at mapped
  have byKind (kind : InvocationKind) :
      callGraph.allSites.countP (fun site => site.invocation.kind == kind) =
        (placed.map fun resolution => resolution.1.invocation.kind).count kind := by
    rw [← kinds.count_eq, List.count, List.countP_map]
    rfl
  have apart (near : MethodId × MethodId → MethodId) (method : MethodId) :
      (∀ link ∈ placed.map Resolution.link, near link ≠ method) ↔
        method ∉ (placed.map Resolution.link).map near := by
    rw [List.mem_map]
    push Not
    rfl
  simp only [stats, Stats.ofRecords, methodCount, records.edgeCount_eq, byKind,
    records.entryPoints_eq, records.leafMethods_eq, records.methods, ← kinds.length_eq,
    List.length_map, apart]

theorem stats_eq (records : callGraph.Records seen placed)
    (otherRecords : other.Records otherSeen otherPlaced)
    (same : ∀ method, method ∈ seen ↔ method ∈ otherSeen)
    (sites : ∀ link, sitesOn placed link = sitesOn otherPlaced link)
    (counters : callGraph.counters = other.counters) : callGraph.stats = other.stats := by
  have linked := mem_links_iff sites
  have allSites : callGraph.allSites.Perm other.allSites := by
    rw [records.allSites_eq, otherRecords.allSites_eq, funext sites]
    exact (eraseDups_perm linked).flatMap_right _
  have shuffled : (placed.map Prod.fst).Perm (otherPlaced.map Prod.fst) :=
    records.allSites_perm.symm.trans (allSites.trans otherRecords.allSites_perm)
  have kinds := shuffled.map fun site => site.invocation.kind
  rw [List.map_map, List.map_map] at kinds
  rw [records.stats_ofRecords, otherRecords.stats_ofRecords, counters]
  exact Stats.ofRecords_congr same linked kinds other.counters

end Records

end CallGraph

end CallResolution

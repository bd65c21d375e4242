import CallResolution.Proofs.Merging

/-!
What the questions to a call graph answer once it is known what the graph records.
-/

namespace CallResolution.CallGraph.Records

open Resolution

variable {seen : List MethodId} {placed : List Resolution} {callGraph : CallGraph}

theorem contains_iff (records : callGraph.Records seen placed) (method : MethodId) :
    callGraph.contains method = true ↔ method ∈ seen := by
  rw [contains, Option.isSome_iff_exists]
  exact ⟨fun ⟨_, found⟩ => records.mem_seen found, records.exists_node⟩

/-- The site list of a link is found although the search for its edge does not use the index
that merging used. -/
theorem callSites_eq (records : callGraph.Records seen placed) (caller callee : MethodId) :
    callGraph.callSites caller callee = sitesOn placed (caller, callee) := by
  have joined {source target : NodeId} {id : EdgeId}
      (sourceFound : callGraph.nodeOf? caller = some source)
      (targetFound : callGraph.nodeOf? callee = some target)
      (joins : callGraph.graph.Joins source target id) :
      (caller, callee) ∈ placed.map Resolution.link ∧ ∃ edge,
        callGraph.graph.edge? id = some edge ∧ edge.data = sitesOn placed (caller, callee) := by
    obtain ⟨data, listed⟩ := joins
    obtain ⟨link, member, linkSource, linkTarget, sites⟩ := records.mem_links listed
    obtain rfl : link = (caller, callee) := (records.link_eq_iff ⟨linkSource, linkTarget⟩
      ⟨sourceFound, targetFound⟩).mpr ⟨rfl, rfl⟩
    exact ⟨member, _, listed, sites⟩
  by_cases member : (caller, callee) ∈ placed.map Resolution.link
  · obtain ⟨source, target, id, sourceFound, targetFound, listed⟩ := records.exists_edge member
    have any := records.consistent.findEdge?_isSome ⟨_, listed⟩
    obtain ⟨first, found⟩ := Option.isSome_iff_exists.mp any
    obtain ⟨_, edge, edgeFound, sites⟩ := joined sourceFound targetFound
      (records.consistent.joins_of_findEdge? found)
    simp [callSites, sourceFound, targetFound, found, edgeFound, sites]
  · rw [sitesOn_eq_nil.mpr member, callSites]
    split
    · rename_i source target sourceFound targetFound
      cases found : callGraph.graph.findEdge? source target with
      | none => rfl
      | some id =>
          have joins := records.consistent.joins_of_findEdge? found
          exact absurd (joined sourceFound targetFound joins).1 member
    · rfl

theorem links_eq (records : callGraph.Records seen placed) :
    callGraph.graph.edges.toList.map (fun edge =>
      (callGraph.graph.node? edge.source, callGraph.graph.node? edge.target)) =
      (placed.map Resolution.link).eraseDups.map fun link => (some link.1, some link.2) := by
  have mapped := congrArg (List.map fun described => (described.1, described.2.1)) records.edges
  rw [List.map_map, List.map_map] at mapped
  exact mapped

theorem exists_edge_iff (records : callGraph.Records seen placed) {caller callee : MethodId} :
    (∃ edge ∈ callGraph.graph.edges, callGraph.graph.node? edge.source = some caller ∧
      callGraph.graph.node? edge.target = some callee) ↔
      (caller, callee) ∈ placed.map Resolution.link := by
  have described : (some caller, some callee) ∈ callGraph.graph.edges.toList.map (fun edge =>
      (callGraph.graph.node? edge.source, callGraph.graph.node? edge.target)) ↔
      (some caller, some callee) ∈ (placed.map Resolution.link).eraseDups.map fun link =>
        (some link.1, some link.2) := by
    rw [records.links_eq]
  simpa using described

/-- The methods across the edges at a node. What is the near end and what the far end of an
edge is left open, so that the lemma serves both directions. -/
theorem methodsAt_across (records : callGraph.Records seen placed) {method : MethodId}
    {node : NodeId} (found : callGraph.nodeOf? method = some node)
    {near far : Edge (List CallSite) → NodeId} {own other : MethodId × MethodId → MethodId}
    (reads : ∀ edge link, callGraph.graph.node? edge.source = some link.1 →
      callGraph.graph.node? edge.target = some link.2 →
      callGraph.graph.node? (near edge) = some (own link) ∧
        callGraph.graph.node? (far edge) = some (other link)) :
    callGraph.methodsAt
        ((callGraph.graph.edges.toList.filter fun edge => near edge == node).map far) =
      ((placed.map Resolution.link).eraseDups.filter fun link => own link == method).map other := by
  have same := records.links_eq
  generalize callGraph.graph.edges.toList = edges at same
  generalize (placed.map Resolution.link).eraseDups = links at same
  induction edges generalizing links with
  | nil =>
      cases links with
      | nil => rfl
      | cons link links => cases same
  | cons edge edges ih =>
      cases links with
      | nil => cases same
      | cons link links =>
          obtain ⟨head, tail⟩ := List.cons.inj same
          obtain ⟨nearRead, farRead⟩ := reads edge link (congrArg Prod.fst head)
            (congrArg Prod.snd head)
          have here : near edge = node ↔ own link = method := by
            rw [← records.nodeOf] at nearRead
            constructor
            · rintro rfl
              exact records.nodeOf?_injective nearRead found
            · rintro rfl
              exact Option.some.inj (nearRead.symm.trans found)
          have rest := ih links tail
          unfold methodsAt at rest ⊢
          by_cases chosen : own link = method
          · simp [here.mpr chosen, chosen, farRead, rest]
          · have passed : near edge ≠ node := fun equal => chosen (here.mp equal)
            simp [passed, chosen, rest]

theorem ends_ne_of_absent (records : callGraph.Records seen placed) {method : MethodId}
    (absent : callGraph.nodeOf? method = none) {link : MethodId × MethodId}
    (member : link ∈ (placed.map Resolution.link).eraseDups) :
    link.1 ≠ method ∧ link.2 ≠ method := by
  obtain ⟨_, _, _, sourceFound, targetFound, _⟩ :=
    records.exists_edge (List.mem_eraseDups.mp member)
  constructor
  · rintro rfl
    cases absent.symm.trans sourceFound
  · rintro rfl
    cases absent.symm.trans targetFound

theorem callees_eq (records : callGraph.Records seen placed) (method : MethodId) :
    callGraph.callees method = ((placed.map Resolution.link).eraseDups.filter fun link =>
      link.1 == method).map Prod.snd := by
  unfold callees
  cases found : callGraph.nodeOf? method with
  | none =>
      rw [List.filter_eq_nil_iff.mpr]
      · rfl
      · intro link member
        simpa using (records.ends_ne_of_absent found member).1
  | some node =>
      change callGraph.methodsAt (callGraph.graph.successors node) = _
      rw [records.consistent.successors_eq]
      exact records.methodsAt_across found fun _ _ source target => ⟨source, target⟩

theorem callers_eq (records : callGraph.Records seen placed) (method : MethodId) :
    callGraph.callers method = ((placed.map Resolution.link).eraseDups.filter fun link =>
      link.2 == method).map Prod.fst := by
  unfold callers
  cases found : callGraph.nodeOf? method with
  | none =>
      rw [List.filter_eq_nil_iff.mpr]
      · rfl
      · intro link member
        simpa using (records.ends_ne_of_absent found member).2
  | some node =>
      change callGraph.methodsAt (callGraph.graph.predecessors node) = _
      rw [records.consistent.predecessors_eq]
      exact records.methodsAt_across found fun _ _ source target => ⟨target, source⟩

theorem mem_callees (records : callGraph.Records seen placed) {caller callee : MethodId} :
    callee ∈ callGraph.callees caller ↔ (caller, callee) ∈ placed.map Resolution.link := by
  rw [records.callees_eq]
  simp

theorem mem_callers (records : callGraph.Records seen placed) {caller callee : MethodId} :
    caller ∈ callGraph.callers callee ↔ (caller, callee) ∈ placed.map Resolution.link := by
  rw [records.callers_eq]
  simp

theorem nodup_across {links : List (MethodId × MethodId)} (unique : links.Nodup)
    {own other : MethodId × MethodId → MethodId} (method : MethodId)
    (determined : ∀ left right, own left = own right → other left = other right → left = right) :
    ((links.filter fun link => own link == method).map other).Nodup := by
  refine List.Nodup.map_on ?_ (unique.filter _)
  intro left leftMember right rightMember same
  have leftOwn := (List.mem_filter.mp leftMember).2
  have rightOwn := (List.mem_filter.mp rightMember).2
  rw [beq_iff_eq] at leftOwn rightOwn
  exact determined left right (leftOwn.trans rightOwn.symm) same

theorem nodup_callees (records : callGraph.Records seen placed) (method : MethodId) :
    (callGraph.callees method).Nodup := by
  rw [records.callees_eq]
  exact nodup_across (nodup_eraseDups _) method fun _ _ caller callee => Prod.ext caller callee

theorem nodup_callers (records : callGraph.Records seen placed) (method : MethodId) :
    (callGraph.callers method).Nodup := by
  rw [records.callers_eq]
  exact nodup_across (nodup_eraseDups _) method fun _ _ callee caller => Prod.ext caller callee

end CallResolution.CallGraph.Records

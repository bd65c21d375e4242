import CallResolution.Proofs.Asking
import CallResolution.Proofs.Merging

/-!
The call sites of a program in the order of its text, and the resolution of blocks seen as
the resolution of their sites, one after the other.
-/

namespace CallResolution

namespace CallSite

def Before (left right : CallSite) : Prop :=
  left.block.index < right.block.index ∨
    left.block = right.block ∧ left.statement < right.statement

theorem Before.ne {left right : CallSite} (before : left.Before right) : left ≠ right := by
  rintro rfl
  rcases before with block | ⟨_, statement⟩ <;> omega

end CallSite

namespace Statement

theorem mem_invocations {statements : List Statement} {call : Nat × Invocation} :
    call ∈ invocations statements ↔ (statements[call.1]?).bind invocation? = some call.2 := by
  obtain ⟨position, invocation⟩ := call
  simp only [invocations, List.mem_filterMap, Option.map_eq_some_iff, Prod.mk.injEq]
  constructor
  · rintro ⟨⟨statement, index⟩, numbered, _, carries, rfl, rfl⟩
    rw [List.mem_zipIdx_iff_getElem?] at numbered
    simp [numbered, carries]
  · intro carries
    obtain ⟨statement, found, carried⟩ := Option.bind_eq_some_iff.mp carries
    refine ⟨(statement, position), List.mem_zipIdx_iff_getElem?.mpr found, invocation, carried, ?_⟩
    exact ⟨rfl, rfl⟩

theorem invocations_ordered (statements : List Statement) :
    (invocations statements).Pairwise fun left right => left.1 < right.1 := by
  have numbers : statements.zipIdx.Pairwise fun left right => left.2 < right.2 := by
    rw [← List.pairwise_map, List.zipIdx_map_snd]
    exact List.pairwise_lt_range'
  rw [invocations, List.pairwise_filterMap]
  refine numbers.imp ?_
  intro left right before leftCall leftMade rightCall rightMade
  obtain ⟨_, _, rfl⟩ := Option.map_eq_some_iff.mp leftMade
  obtain ⟨_, _, rfl⟩ := Option.map_eq_some_iff.mp rightMade
  exact before

end Statement

namespace Program

def sitesOf (entry : BlockId × BlockEntry) : List CallSite :=
  (Statement.invocations entry.2.statements).map fun call =>
    ⟨entry.2.method, entry.1, call.1, call.2⟩

def sitesIn (entries : List (BlockId × BlockEntry)) : List CallSite :=
  entries.flatMap sitesOf

def callSites (program : Program) : List CallSite :=
  sitesIn program.blockEntries

variable {program : Program}

theorem mem_blockEntries {entry : BlockId × BlockEntry} :
    entry ∈ program.blockEntries ↔ program.block? entry.1 = some entry.2 := by
  obtain ⟨id, block⟩ := entry
  simp only [blockEntries, List.mem_filterMap, Option.map_eq_some_iff, Prod.mk.injEq]
  constructor
  · rintro ⟨_, _, _, found, rfl, rfl⟩
    exact found
  · intro found
    exact ⟨id, Handle.mem_upTo.mpr (Array.getElem?_eq_some_iff.mp found).1, block, found, rfl, rfl⟩

theorem blockEntries_ordered (program : Program) :
    program.blockEntries.Pairwise fun left right => left.1.index < right.1.index := by
  rw [blockEntries, List.pairwise_filterMap]
  refine (Handle.upTo_increasing program.blocks.size).imp ?_
  intro left right before leftEntry leftMade rightEntry rightMade
  obtain ⟨_, _, rfl⟩ := Option.map_eq_some_iff.mp leftMade
  obtain ⟨_, _, rfl⟩ := Option.map_eq_some_iff.mp rightMade
  exact before

theorem mem_sitesIn {entries : List (BlockId × BlockEntry)} {site : CallSite} :
    site ∈ sitesIn entries ↔ ∃ block, (site.block, block) ∈ entries ∧
      block.method = site.caller ∧
      (block.statements[site.statement]?).bind Statement.invocation? = some site.invocation := by
  simp only [sitesIn, sitesOf, List.mem_flatMap, List.mem_map]
  constructor
  · rintro ⟨⟨id, block⟩, listed, call, carried, rfl⟩
    exact ⟨block, listed, rfl, Statement.mem_invocations.mp carried⟩
  · rintro ⟨block, listed, caller, carried⟩
    refine ⟨(site.block, block), listed, (site.statement, site.invocation), ?_, ?_⟩
    · exact Statement.mem_invocations.mpr carried
    · rw [caller]

theorem callSites_ordered (program : Program) : program.callSites.Pairwise CallSite.Before := by
  rw [callSites, sitesIn, List.pairwise_flatMap]
  constructor
  · intro entry _
    rw [sitesOf, List.pairwise_map]
    refine (Statement.invocations_ordered _).imp fun before => Or.inr ⟨rfl, before⟩
  · refine (blockEntries_ordered program).imp ?_
    intro left right before leftSite leftMember rightSite rightMember
    obtain ⟨_, _, rfl⟩ := List.mem_map.mp leftMember
    obtain ⟨_, _, rfl⟩ := List.mem_map.mp rightMember
    exact Or.inl before

theorem nodup_callSites (program : Program) : program.callSites.Nodup :=
  (callSites_ordered program).imp CallSite.Before.ne

end Program

namespace Query

variable {α β γ δ : Type} {memos later : Memos}

theorem bind_eq_ok {query : Query α} {next : α → Query β} {value : β} :
    (query >>= next) memos = (.ok value, later) ↔ ∃ first middle,
      query memos = (.ok first, middle) ∧ next first middle = (.ok value, later) := by
  rw [bind_apply]
  generalize query memos = result
  obtain ⟨answer, middle⟩ := result
  cases answer with
  | error error =>
      constructor
      · rintro ⟨⟩
      · rintro ⟨_, _, ⟨⟩, _⟩
  | ok first =>
      constructor
      · exact fun rest => ⟨first, middle, rfl, rest⟩
      · rintro ⟨_, _, ⟨⟩, rest⟩
        exact rest

variable {step : α → Query β} {outcome : α → β}

theorem mapM_cons_eq_ok {item : α} {items : List α} :
    (item :: items).mapM step memos = (.ok ((item :: items).map outcome), later) ↔
      ∃ middle, step item memos = (.ok (outcome item), middle) ∧
        items.mapM step middle = (.ok (items.map outcome), later) := by
  simp only [List.mapM_cons, bind_eq_ok]
  constructor
  · rintro ⟨_, middle, first, _, _, rest, ⟨⟩⟩
    exact ⟨middle, first, rest⟩
  · rintro ⟨middle, first, rest⟩
    exact ⟨_, middle, first, _, later, rest, rfl⟩

theorem mapM_append_eq_ok {left right : List α} :
    (left ++ right).mapM step memos = (.ok ((left ++ right).map outcome), later) ↔
      ∃ middle, left.mapM step memos = (.ok (left.map outcome), middle) ∧
        right.mapM step middle = (.ok (right.map outcome), later) := by
  induction left generalizing memos with
  | nil =>
      constructor
      · exact fun rest => ⟨memos, rfl, rest⟩
      · rintro ⟨_, ⟨⟩, rest⟩
        exact rest
  | cons item left ih =>
      simp only [List.cons_append, mapM_cons_eq_ok, ih]
      constructor
      · rintro ⟨first, asked, middle, leftAsked, rightAsked⟩
        exact ⟨middle, ⟨first, asked, leftAsked⟩, rightAsked⟩
      · rintro ⟨middle, ⟨first, asked, leftAsked⟩, rightAsked⟩
        exact ⟨first, asked, middle, leftAsked, rightAsked⟩

theorem mapM_keep_eq_ok {source : γ → α} {items : List γ} (keep : γ → β → δ)
    (asked : (items.map source).mapM step memos = (.ok ((items.map source).map outcome), later)) :
    (items.mapM fun item => (do
      let answer ← step (source item)
      pure (keep item answer) : Query δ)) memos =
      (.ok (items.map fun item => keep item (outcome (source item))), later) := by
  induction items generalizing memos with
  | nil =>
      cases asked
      rfl
  | cons item items ih =>
      rw [List.map_cons, mapM_cons_eq_ok] at asked
      obtain ⟨middle, first, rest⟩ := asked
      rw [mapM_cons_eq_ok]
      exact ⟨middle, bind_eq_ok.mpr ⟨_, middle, first, rfl⟩, ih rest⟩

end Query

namespace BlockCalls

def ofEntry (outcome : CallSite → CallTarget × Option Event) (entry : BlockId × BlockEntry) :
    BlockCalls :=
  ⟨entry.2.method, entry.1, (Statement.invocations entry.2.statements).map fun call =>
    let found := outcome ⟨entry.2.method, entry.1, call.1, call.2⟩
    ⟨call.1, call.2, found.1, found.2⟩⟩

theorem methods_ofEntry (outcome : CallSite → CallTarget × Option Event)
    (entry : BlockId × BlockEntry) :
    (ofEntry outcome entry).methods =
      entry.2.method :: (Program.sitesOf entry).flatMap fun site => (outcome site).1.targets := by
  simp [methods, ofEntry, Program.sitesOf, List.flatMap_map]

theorem resolutions_ofEntry (outcome : CallSite → CallTarget × Option Event)
    (entry : BlockId × BlockEntry) :
    (ofEntry outcome entry).resolutions = (Program.sitesOf entry).flatMap fun site =>
      (outcome site).1.targets.map fun target => (site, target) := by
  simp [resolutions, ofEntry, Program.sitesOf, List.flatMap_map, site]

end BlockCalls

namespace Hierarchy

def resolveSites (hierarchy : Hierarchy) (sites : List CallSite) :
    Query (List (CallTarget × Option Event)) :=
  sites.mapM fun site => hierarchy.resolveCall site.caller site.invocation

theorem resolveBlocks_eq_ok {hierarchy : Hierarchy} {schedule : List (BlockId × BlockEntry)}
    {outcome : CallSite → CallTarget × Option Event} {memos later : Memos}
    (asked : hierarchy.resolveSites (Program.sitesIn schedule) memos =
      (.ok ((Program.sitesIn schedule).map outcome), later)) :
    hierarchy.resolveBlocks schedule memos =
      (.ok (schedule.map (BlockCalls.ofEntry outcome)), later) := by
  induction schedule generalizing memos with
  | nil =>
      cases asked
      rfl
  | cons entry schedule ih =>
      obtain ⟨middle, first, rest⟩ := Query.mapM_append_eq_ok.mp asked
      have kept := Query.mapM_keep_eq_ok (fun call found =>
        (⟨call.1, call.2, found.1, found.2⟩ : ResolvedCall)) first
      refine Query.mapM_cons_eq_ok.mpr ⟨middle, ?_, ih rest⟩
      exact Query.bind_eq_ok.mpr ⟨_, middle, kept, rfl⟩

end Hierarchy

namespace CallGraph

/-- However the blocks were scheduled, their results end up in block order. -/
theorem inBlockOrder_eq {program : Program} {schedule : List (BlockId × BlockEntry)}
    (shuffled : schedule.Perm program.blockEntries)
    (outcome : CallSite → CallTarget × Option Event) :
    inBlockOrder program (schedule.map (BlockCalls.ofEntry outcome)) =
      program.blockEntries.map (BlockCalls.ofEntry outcome) := by
  rw [inBlockOrder, Program.blockEntries, List.map_filterMap]
  refine List.filterMap_congr fun id _ => ?_
  have listed {entry : BlockId × BlockEntry} :
      entry ∈ schedule ↔ program.block? entry.1 = some entry.2 :=
    shuffled.mem_iff.trans Program.mem_blockEntries
  rw [List.find?_map]
  change (schedule.find? fun entry => entry.1 == id).map (BlockCalls.ofEntry outcome) = _
  cases chosen : schedule.find? fun entry => entry.1 == id with
  | none =>
      cases found : program.block? id with
      | none => rfl
      | some block =>
          have absent := List.find?_eq_none.mp chosen (id, block) (listed.mpr found)
          exact absurd (beq_self_eq_true id) absent
  | some entry =>
      have here : entry.1 = id := by simpa using List.find?_some chosen
      have found := listed.mp (List.mem_of_find?_eq_some chosen)
      simp [← here, found]

end CallGraph

end CallResolution

import CallResolution.Proofs.Walk

/-!
Walks that reuse nothing. Without cycles a walk that reuses the answers of such plain walks
lists the same nodes in the same order, and each of them after all that lies below it.
-/

namespace CallResolution.Search

open Relation

variable {α : Type} {children : α → List α}

def Acyclic (children : α → List α) : Prop :=
  ∀ node, ¬ Below children node node

/-- Below `nodes`, whatever is visited has visited children only. -/
def Settled (children : α → List α) (nodes unvisited : List α) : Prop :=
  ∀ node, Reached children nodes node → node ∉ unvisited →
    ∀ child ∈ children node, child ∉ unvisited

theorem sound_none : Sound children fun _ => none := by
  intro node answer recorded
  cases recorded

variable [DecidableEq α] {known? : α → Option (List α)}

abbrev PlainWalk (children : α → List α) : List α → List α → List α → Prop :=
  Walk children fun _ => none

theorem Walk.determined {nodes unvisited left other : List α}
    (walk : Walk children known? nodes unvisited left)
    (again : Walk children known? nodes unvisited other) : left = other := by
  induction walk generalizing other with
  | done =>
      cases again
      rfl
  | passed visited _ ih =>
      cases again with
      | passed _ rest => exact ih rest
      | recalled member => exact absurd member visited
      | explored member => exact absurd member visited
  | recalled member recorded _ ih =>
      cases again with
      | passed visited => exact absurd member visited
      | recalled _ recordedAgain rest =>
          cases recorded.symm.trans recordedAgain
          rw [ih rest]
      | explored _ unrecorded => cases recorded.symm.trans unrecorded
  | explored member unrecorded _ _ ihBelow ihRest =>
      cases again with
      | passed visited => exact absurd member visited
      | recalled _ recorded => cases recorded.symm.trans unrecorded
      | explored _ _ below rest =>
          cases ihBelow below
          rw [ihRest rest]

/-- Nodes that are visited together with all that lies below them drop out of a plain walk
and change nothing else. -/
theorem Walk.avoid {nodes unvisited left gone others : List α}
    (walk : PlainWalk children nodes unvisited left)
    (closed : ∀ node ∈ gone, Reached children nodes node → ∀ child ∈ children node, child ∈ gone)
    (agree : ∀ node, Reached children nodes node →
      (node ∈ others ↔ node ∈ unvisited ∧ node ∉ gone)) :
    PlainWalk children nodes others (without left gone) := by
  induction walk generalizing others with
  | done => exact Walk.done
  | @passed node nodes _ _ visited _ ih =>
      refine Walk.passed ?_ (ih (fun other member reached => closed other member reached.cons)
        fun other reached => agree other reached.cons)
      exact fun member => visited ((agree node (reached_head node nodes)).mp member).1
  | recalled _ recorded => cases recorded
  | @explored node nodes unvisited below left member _ walkBelow _ ihBelow ihRest =>
      have atNode := agree node (reached_head node nodes)
      have reachedBelow (other : α) (reached : Reached children (children node) other) :
          Reached children (node :: nodes) other :=
        (reached_head node nodes).below (below_of_reached reached)
      by_cases missing : node ∈ gone
      · -- all that is found below the node is gone as well
        have belowGone : ∀ other, Below children node other → other ∈ gone := by
          intro other path
          induction path with
          | single edge => exact closed node missing (reached_head node nodes) _ edge
          | tail path edge ih => exact closed _ ih ((reached_head node nodes).below path) _ edge
        have listedGone : ∀ other ∈ below, other ∈ gone := fun other listed =>
          belowGone other (below_of_reached (walkBelow.reached_of_mem sound_none listed))
        have dropped : without (below ++ node :: left) gone = without left gone := by
          simp only [without, List.filter_append, List.filter_cons, missing, not_true_eq_false,
            decide_false, Bool.false_eq_true, if_false]
          rw [List.filter_eq_nil_iff.mpr, List.nil_append]
          intro other listed
          simp [listedGone other listed]
        rw [dropped]
        refine Walk.passed (fun kept => (atNode.mp kept).2 missing) (ihRest
          (fun other member reached => closed other member reached.cons) fun other reached => ?_)
        rw [agree other reached.cons, mem_without, mem_without]
        constructor
        · rintro ⟨kept, present⟩
          have different : other ≠ node := fun same => present (same ▸ missing)
          exact ⟨⟨⟨kept, by simpa using different⟩, fun listed => present (listedGone other listed)⟩,
            present⟩
        · rintro ⟨⟨⟨kept, _⟩, _⟩, present⟩
          exact ⟨kept, present⟩
      · have kept : node ∈ others := atNode.mpr ⟨member, missing⟩
        have split : without (below ++ node :: left) gone =
            without below gone ++ node :: without left gone := by
          simp [without, List.filter_append, missing]
        rw [split]
        refine Walk.explored kept rfl (ihBelow
          (fun other member reached => closed other member (reachedBelow other reached))
          fun other reached => ?_) (ihRest
          (fun other member reached => closed other member reached.cons) fun other reached => ?_)
        · rw [mem_without, mem_without, agree other (reachedBelow other reached)]
          tauto
        · rw [mem_without, mem_without, mem_without, mem_without, mem_without,
            agree other reached.cons]
          tauto

theorem Settled.rest {node : α} {nodes unvisited below : List α} (sound : Sound children known?)
    (settled : Settled children (node :: nodes) unvisited)
    (walk : Walk children known? (children node) (without unvisited [node]) below) :
    Settled children nodes (without (without unvisited [node]) below) := by
  intro other reached visited child edge pending
  obtain ⟨kept, notBelow⟩ := mem_without.mp pending
  by_cases same : other = node
  · exact notBelow (walk.mem_of_unvisited (same ▸ edge) kept)
  · by_cases listed : other ∈ below
    · exact notBelow (walk.child_mem sound listed edge kept)
    · have gone : other ∉ unvisited := by
        intro member
        exact visited (by simp [member, same, listed])
      exact settled other reached.cons gone child edge (mem_without.mp kept).1

theorem Settled.inner {node : α} {nodes unvisited : List α} (acyclic : Acyclic children)
    (settled : Settled children (node :: nodes) unvisited) :
    Settled children (children node) (without unvisited [node]) := by
  intro other reached visited child edge pending
  have path : Below children node other := below_of_reached reached
  have different : other ≠ node := fun same => acyclic node (same ▸ path)
  have gone : other ∉ unvisited := by
    intro member
    exact visited (by simp [member, different])
  exact settled other ((reached_head node nodes).below path) gone child edge
    (mem_without.mp pending).1

theorem fresh_eq_without {node : α} {domain unvisited known : List α}
    (walk : PlainWalk children (children node) (without domain [node]) known) :
    fresh (without unvisited [node]) known = without known (without domain unvisited) := by
  have filtered : known.filter (· ∈ without unvisited [node]) =
      without known (without domain unvisited) := by
    apply List.filter_congr
    intro other listed
    obtain ⟨inside, different⟩ := mem_without.mp (walk.unvisited_of_mem listed)
    simp [inside, different]
  rw [fresh, filtered]
  exact eraseDups_of_nodup (walk.nodup.filter _)

/-- Reusing what plain walks have listed changes neither the nodes nor their order. -/
theorem Walk.plain {domain nodes unvisited left : List α} (acyclic : Acyclic children)
    (inside : ∀ node, ∀ child ∈ children node, child ∈ domain)
    (recalls : ∀ node known, known? node = some known →
      PlainWalk children (children node) (without domain [node]) known)
    (walk : Walk children known? nodes unvisited left)
    (inDomain : ∀ node ∈ unvisited, node ∈ domain)
    (settled : Settled children nodes unvisited) :
    PlainWalk children nodes unvisited left := by
  induction walk with
  | done => exact Walk.done
  | passed visited _ ih =>
      exact Walk.passed visited (ih inDomain fun node reached => settled node reached.cons)
  | @recalled node nodes unvisited known left member recorded _ ih =>
      -- The known list comes from a walk with all of `domain` ahead. What has been visited
      -- since is closed under children, so leaving it out gives the walk from here.
      have knownWalk := recalls node known recorded
      have below : PlainWalk children (children node) (without unvisited [node])
          (fresh (without unvisited [node]) known) := by
        rw [fresh_eq_without knownWalk]
        apply knownWalk.avoid
        · intro other gone reached child edge
          obtain ⟨_, visited⟩ := mem_without.mp gone
          have path := below_of_reached reached
          exact mem_without.mpr ⟨inside other child edge,
            settled other ((reached_head node nodes).below path) visited child edge⟩
        · intro other _
          simp only [mem_without]
          constructor
          · rintro ⟨kept, different⟩
            exact ⟨⟨inDomain other kept, different⟩, fun gone => gone.2 kept⟩
          · rintro ⟨⟨wasInside, different⟩, kept⟩
            exact ⟨by_contra fun gone => kept ⟨wasInside, gone⟩, different⟩
      refine Walk.explored member rfl below (ih ?_ (settled.rest sound_none below))
      intro other kept
      exact inDomain other (mem_without.mp (mem_without.mp kept).1).1
  | @explored node nodes unvisited below left member _ _ _ ihBelow ihRest =>
      have inner := ihBelow (fun other kept => inDomain other (mem_without.mp kept).1)
        (settled.inner acyclic)
      refine Walk.explored member rfl inner (ihRest ?_ (settled.rest sound_none inner))
      intro other kept
      exact inDomain other (mem_without.mp (mem_without.mp kept).1).1

theorem Settled.below_listed {node other : α} {nodes unvisited below : List α}
    (acyclic : Acyclic children) (settled : Settled children (node :: nodes) unvisited)
    (walk : PlainWalk children (children node) (without unvisited [node]) below)
    (path : Below children node other) : other ∈ below ∨ other ∉ unvisited := by
  have pending {found : α} (path : Below children node found) (member : found ∈ unvisited) :
      found ∈ without unvisited [node] := by
    have different : found ≠ node := fun same => acyclic node (same ▸ path)
    simp [member, different]
  induction path with
  | @single child edge =>
      by_cases member : child ∈ unvisited
      · exact .inl (walk.mem_of_unvisited edge (pending (TransGen.single edge) member))
      · exact .inr member
  | @tail middle child path edge ih =>
      by_cases member : child ∈ unvisited
      · rcases ih with listed | visited
        · exact .inl (walk.child_mem sound_none listed edge (pending (path.tail edge) member))
        · exact .inr (settled middle ((reached_head node nodes).below path) visited child edge)
      · exact .inr member

theorem Walk.listed_before {nodes unvisited left : List α} (acyclic : Acyclic children)
    (walk : PlainWalk children nodes unvisited left)
    (settled : Settled children nodes unvisited) {earlier later : List α} {node other : α}
    (split : left = earlier ++ node :: later) (path : Below children node other) :
    other ∈ earlier ∨ other ∉ unvisited := by
  induction walk generalizing earlier later with
  | done => simp at split
  | passed _ _ ih => exact ih (fun node reached => settled node reached.cons) split
  | recalled _ recorded => cases recorded
  | @explored top nodes unvisited below left _ _ walkBelow _ ihBelow ihRest =>
      rcases List.append_eq_append_iff.mp split with ⟨middle, prefixed, rest⟩ | ⟨middle, inBelow, rest⟩
      · cases middle with
        | nil =>
            obtain ⟨same, _⟩ := List.cons.inj rest
            rw [prefixed, List.append_nil]
            exact settled.below_listed acyclic walkBelow (same ▸ path)
        | cons first middle =>
            obtain ⟨same, tail⟩ := List.cons.inj rest
            rcases ihRest (settled.rest sound_none walkBelow) tail with listed | visited
            · exact .inl (by simp [prefixed, listed])
            · simp only [mem_without, List.mem_singleton, not_and, not_not] at visited
              by_cases member : other ∈ unvisited
              · left
                by_cases isTop : other = top
                · simp [prefixed, isTop, same]
                · simp [prefixed, visited ⟨member, isTop⟩]
              · exact .inr member
      · cases middle with
        | nil =>
            obtain ⟨same, _⟩ := List.cons.inj rest
            rw [List.append_nil] at inBelow
            rw [← inBelow]
            exact settled.below_listed acyclic walkBelow (same ▸ path)
        | cons first middle =>
            obtain ⟨same, _⟩ := List.cons.inj rest
            have listed : node ∈ below := by simp [inBelow, same]
            have topAbove := below_of_reached (walkBelow.reached_of_mem sound_none listed)
            rcases ihBelow (settled.inner acyclic) (same ▸ inBelow) with found | visited
            · exact .inl found
            · right
              intro member
              have different : other ≠ top := fun back => acyclic top (topAbove.trans (back ▸ path))
              exact visited (by simp [member, different])

section Closure

variable {domain : List α} (acyclic : Acyclic children)
  (inside : ∀ node, ∀ child ∈ children node, child ∈ domain)

include acyclic inside

theorem settled_at_root (root : α) : Settled children (children root) (without domain [root]) := by
  intro node reached visited child edge pending
  have path : Below children root node := below_of_reached reached
  have different : node ≠ root := fun same => acyclic root (same ▸ path)
  have member : node ∈ domain := by
    obtain ⟨_, _, edge⟩ := TransGen.tail'_iff.mp path
    exact inside _ _ edge
  exact visited (by simp [member, different])

theorem descendants_plain
    (recalls : ∀ node known, known? node = some known →
      known = descendants children (fun _ => none) domain node) (root : α) :
    descendants children known? domain root = descendants children (fun _ => none) domain root := by
  have walk := walk_postorder children known? (children root) (without domain [root])
  have plain := walk_postorder children (fun _ => none) (children root) (without domain [root])
  refine Walk.determined (Walk.plain acyclic inside ?_ walk ?_ ?_) plain
  · intro node known recorded
    rw [recalls node known recorded]
    exact walk_postorder children (fun _ => none) (children node) (without domain [node])
  · exact fun node member => (mem_without.mp member).1
  · exact settled_at_root acyclic inside root

theorem closure_plain {memo : Memo α}
    (recalls : ∀ node known, memo.get? node = some known →
      known = descendants children (fun _ => none) domain node) (root : α) :
    (closure children domain root memo).1 = descendants children (fun _ => none) domain root ∧
      ∀ node known, (closure children domain root memo).2.get? node = some known →
        known = descendants children (fun _ => none) domain node := by
  have plain := descendants_plain acyclic inside recalls root
  unfold closure
  cases recorded : memo.get? root with
  | some known => exact ⟨recalls root known recorded, recalls⟩
  | none =>
      refine ⟨plain, fun node known found => ?_⟩
      simp only [Memo.get?_record] at found
      split at found
      · rename_i same
        rw [same, ← Option.some.inj found, plain]
      · exact recalls node known found

theorem descendants_listed_before {root : α} {earlier later : List α} {node other : α}
    (split : descendants children (fun _ => none) domain root = earlier ++ node :: later)
    (path : Below children node other) : other ∈ earlier := by
  have walk := walk_postorder children (fun _ => none) (children root) (without domain [root])
  have settled := settled_at_root acyclic inside root
  have listed : node ∈ descendants children (fun _ => none) domain root := by simp [split]
  have above : Below children root node := below_of_reached (walk.reached_of_mem sound_none listed)
  have different : other ≠ root := fun same => acyclic root (above.trans (same ▸ path))
  have member : other ∈ domain := by
    obtain ⟨_, _, edge⟩ := TransGen.tail'_iff.mp path
    exact inside _ _ edge
  rcases walk.listed_before acyclic settled split path with earlierListed | visited
  · exact earlierListed
  · exact absurd (by simp [member, different]) visited

end Closure

end CallResolution.Search

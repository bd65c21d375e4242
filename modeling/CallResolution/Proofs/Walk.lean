import CallResolution.Proofs.Distinct
import CallResolution.Search.Closure
import Mathlib.Logic.Relation

/-!
The depth-first walk without its stack. A walk is described by what it does at each node it
comes to, and the stack machine `postorder` is shown to carry out such a walk. All that a
walk lists is then found by induction on the walk.
-/

namespace CallResolution.Search

open Relation

variable {α : Type} {children : α → List α}

def Below (children : α → List α) : α → α → Prop :=
  TransGen fun parent child => child ∈ children parent

def Reached (children : α → List α) (nodes : List α) (node : α) : Prop :=
  ∃ start ∈ nodes, node = start ∨ Below children start node

theorem below_of_reached {root node : α} (reached : Reached children (children root) node) :
    Below children root node := by
  obtain ⟨start, edge, same | path⟩ := reached
  · exact TransGen.single (same ▸ edge)
  · exact TransGen.head edge path

theorem Reached.child {nodes : List α} {node child : α} (reached : Reached children nodes node)
    (edge : child ∈ children node) : Reached children nodes child := by
  obtain ⟨start, member, same | path⟩ := reached
  · exact ⟨start, member, .inr (TransGen.single (same ▸ edge))⟩
  · exact ⟨start, member, .inr (TransGen.tail path edge)⟩

theorem Reached.below {nodes : List α} {node other : α} (reached : Reached children nodes node)
    (path : Below children node other) : Reached children nodes other := by
  induction path with
  | single edge => exact reached.child edge
  | tail _ edge ih => exact ih.child edge

theorem Reached.cons {nodes : List α} {node first : α} (reached : Reached children nodes node) :
    Reached children (first :: nodes) node := by
  obtain ⟨start, member, path⟩ := reached
  exact ⟨start, List.mem_cons_of_mem _ member, path⟩

theorem reached_head (first : α) (nodes : List α) : Reached children (first :: nodes) first :=
  ⟨first, by simp, .inl rfl⟩

variable [DecidableEq α] {known? : α → Option (List α)}

/-- A walk over `nodes` that starts with `unvisited` and ends up with a list of the nodes it
has left. -/
inductive Walk (children : α → List α) (known? : α → Option (List α)) :
    List α → List α → List α → Prop
  | done {unvisited} : Walk children known? [] unvisited []
  | passed {node nodes unvisited left} : node ∉ unvisited →
      Walk children known? nodes unvisited left → Walk children known? (node :: nodes) unvisited left
  | recalled {node nodes unvisited known left} : node ∈ unvisited → known? node = some known →
      Walk children known? nodes
        (without (without unvisited [node]) (fresh (without unvisited [node]) known)) left →
      Walk children known? (node :: nodes) unvisited
        (fresh (without unvisited [node]) known ++ node :: left)
  | explored {node nodes unvisited below left} : node ∈ unvisited → known? node = none →
      Walk children known? (children node) (without unvisited [node]) below →
      Walk children known? nodes (without (without unvisited [node]) below) left →
      Walk children known? (node :: nodes) unvisited (below ++ node :: left)

theorem postorder_passed {node : α} {unvisited : List α} (visited : node ∉ unvisited)
    (pending : List (Visit α)) :
    postorder children known? (.enter node :: pending) unvisited =
      postorder children known? pending unvisited := by
  rw [postorder, if_neg visited]

theorem postorder_recalled {node : α} {unvisited known : List α} (member : node ∈ unvisited)
    (recorded : known? node = some known) (pending : List (Visit α)) :
    postorder children known? (.enter node :: pending) unvisited =
      fresh (without unvisited [node]) known ++ node ::
        postorder children known? pending
          (without (without unvisited [node]) (fresh (without unvisited [node]) known)) := by
  rw [postorder, if_pos member, recorded]

theorem postorder_explored {node : α} {unvisited : List α} (member : node ∈ unvisited)
    (unrecorded : known? node = none) (pending : List (Visit α)) :
    postorder children known? (.enter node :: pending) unvisited =
      postorder children known? ((children node).map .enter ++ .leave node :: pending)
        (without unvisited [node]) := by
  rw [postorder, if_pos member, unrecorded]

theorem mem_postorder_of_leave {node : α} {pending : List (Visit α)} {unvisited : List α}
    (member : Visit.leave node ∈ pending) :
    node ∈ postorder children known? pending unvisited := by
  fun_induction postorder children known? pending unvisited with
  | case1 => simp at member
  | case2 left pending unvisited ih =>
      rcases List.mem_cons.mp member with same | later
      · simp [Visit.leave.inj same]
      · exact List.mem_cons_of_mem _ (ih later)
  | case3 entered pending unvisited fresh known recorded found ih =>
      have later : Visit.leave node ∈ pending := by simpa using member
      exact List.mem_append_right _ (List.mem_cons_of_mem _ (ih later))
  | case4 entered pending unvisited fresh unrecorded ih =>
      have later : Visit.leave node ∈ pending := by simpa using member
      exact ih (by simp [later])
  | case5 entered pending unvisited visited ih =>
      exact ih (by simpa using member)

/-- Pending visits can be carried out in two runs, if the nodes to be left in the first one
are visited already. The second run then finds visited what the first one has listed. -/
theorem postorder_append (first second : List (Visit α)) (unvisited : List α)
    (entered : ∀ node, Visit.leave node ∈ first → node ∉ unvisited) :
    postorder children known? (first ++ second) unvisited =
      postorder children known? first unvisited ++
        postorder children known? second
          (without unvisited (postorder children known? first unvisited)) := by
  fun_induction postorder children known? first unvisited with
  | case1 => simp
  | case2 node pending unvisited ih =>
      have visited : node ∉ unvisited := entered node (by simp)
      have rest := ih fun other member => entered other (by simp [member])
      have same : without unvisited (node :: postorder children known? pending unvisited) =
          without unvisited (postorder children known? pending unvisited) := by
        apply without_congr
        intro other member
        have different : other ≠ node := fun same => visited (same ▸ member)
        simp [different]
      rw [same, List.cons_append, postorder, rest, List.cons_append]
  | case3 node pending unvisited member known recorded found ih =>
      have rest := ih fun other later => by
        have visited := entered other (by simp [later])
        simp [visited]
      have same (listed : List α) :
          without (without (without unvisited [node]) found) listed =
            without unvisited (found ++ node :: listed) := by
        rw [without_without, without_without]
        apply without_congr
        intro other _
        simp only [List.mem_append, List.mem_cons, List.not_mem_nil]
        tauto
      rw [List.cons_append, postorder_recalled member recorded]
      change found ++ node :: postorder children known? (pending ++ second)
        (without (without unvisited [node]) found) = _
      rw [rest, same, List.append_assoc, List.cons_append]
  | case4 node pending unvisited member unrecorded ih =>
      have rest := ih fun other later => by
        by_cases same : other = node
        · simp [same]
        · have visited := entered other (by simpa [same] using later)
          simp [visited]
      rw [List.cons_append, postorder_explored member unrecorded]
      rw [List.append_assoc, List.cons_append] at rest
      rw [rest, without_without]
      congr 2
      apply without_congr
      intro other _
      constructor
      · intro listed
        rcases List.mem_append.mp listed with single | listed
        · rw [List.mem_singleton.mp single]
          exact mem_postorder_of_leave (by simp)
        · exact listed
      · exact List.mem_append_right _
  | case5 node pending unvisited visited ih =>
      rw [List.cons_append, postorder_passed visited]
      exact ih fun other member => entered other (by simp [member])

theorem walk_postorder (children : α → List α) (known? : α → Option (List α)) :
    ∀ nodes unvisited, Walk children known? nodes unvisited
      (postorder children known? (nodes.map .enter) unvisited)
  | [], unvisited => by
      simpa [postorder] using Walk.done
  | node :: nodes, unvisited => by
      rw [List.map_cons]
      by_cases member : node ∈ unvisited
      · cases recorded : known? node with
        | some known =>
            rw [postorder_recalled member recorded]
            exact Walk.recalled member recorded (walk_postorder children known? nodes _)
        | none =>
            rw [postorder_explored member recorded, postorder_append _ _ _ (by simp), postorder]
            exact Walk.explored member recorded (walk_postorder children known? (children node) _)
              (walk_postorder children known? nodes _)
      · rw [postorder_passed member]
        exact Walk.passed member (walk_postorder children known? nodes unvisited)
termination_by nodes unvisited => (unvisited.length, nodes.length)
decreasing_by
  · exact Prod.Lex.left _ _ (length_without_lt member (by simp))
  · exact Prod.Lex.left _ _ (Nat.lt_of_le_of_lt (length_without_le _ _)
      (length_without_lt member (by simp)))
  · exact Prod.Lex.left _ _ (Nat.lt_of_le_of_lt (length_without_le _ _)
      (length_without_lt member (by simp)))
  · exact Prod.Lex.right _ (by simp)

namespace Walk

variable {nodes unvisited left : List α}

theorem unvisited_of_mem (walk : Walk children known? nodes unvisited left) {node : α}
    (listed : node ∈ left) : node ∈ unvisited := by
  induction walk with
  | done => simp at listed
  | passed _ _ ih => exact ih listed
  | recalled member _ _ ih =>
      simp only [List.mem_append, List.mem_cons, mem_fresh, mem_without] at listed
      rcases listed with found | same | later
      · exact found.2.1
      · exact same ▸ member
      · exact (mem_without.mp (mem_without.mp (ih later)).1).1
  | explored member _ _ _ ihBelow ihRest =>
      rcases List.mem_append.mp listed with below | rest
      · exact (mem_without.mp (ihBelow below)).1
      · rcases List.mem_cons.mp rest with same | later
        · exact same ▸ member
        · exact (mem_without.mp (mem_without.mp (ihRest later)).1).1

theorem nodup (walk : Walk children known? nodes unvisited left) : left.Nodup := by
  induction walk with
  | done => exact List.nodup_nil
  | passed _ _ ih => exact ih
  | @recalled node _ unvisited known left _ _ rest ih =>
      have apart : ∀ other ∈ left, other ≠ node ∧ other ∉ fresh (without unvisited [node]) known := by
        intro other listed
        obtain ⟨kept, notFound⟩ := mem_without.mp (rest.unvisited_of_mem listed)
        exact ⟨by simpa using (mem_without.mp kept).2, notFound⟩
      refine List.nodup_append.mpr ⟨nodup_eraseDups _, List.nodup_cons.mpr ⟨?_, ih⟩, ?_⟩
      · exact fun listed => (apart node listed).1 rfl
      · rintro found member other listed rfl
        rcases List.mem_cons.mp listed with same | later
        · simp [same] at member
        · exact (apart found later).2 member
  | @explored node _ unvisited below left _ _ walkBelow rest ihBelow ihRest =>
      have apart : ∀ other ∈ left, other ≠ node ∧ other ∉ below := by
        intro other listed
        obtain ⟨kept, notBelow⟩ := mem_without.mp (rest.unvisited_of_mem listed)
        exact ⟨by simpa using (mem_without.mp kept).2, notBelow⟩
      refine List.nodup_append.mpr ⟨ihBelow, List.nodup_cons.mpr ⟨?_, ihRest⟩, ?_⟩
      · exact fun listed => (apart node listed).1 rfl
      · rintro found member other listed rfl
        rcases List.mem_cons.mp listed with same | later
        · have kept := walkBelow.unvisited_of_mem member
          simp [same] at kept
        · exact (apart found later).2 member

theorem mem_of_unvisited (walk : Walk children known? nodes unvisited left) {node : α}
    (pending : node ∈ nodes) (member : node ∈ unvisited) : node ∈ left := by
  induction walk with
  | done => simp at pending
  | passed visited _ ih =>
      rcases List.mem_cons.mp pending with same | later
      · exact absurd (same ▸ member) visited
      · exact ih later member
  | @recalled entered _ unvisited known _ _ _ _ ih =>
      by_cases same : node = entered
      · simp [same]
      · by_cases found : node ∈ fresh (without unvisited [entered]) known
        · exact List.mem_append_left _ found
        · have later := (List.mem_cons.mp pending).resolve_left same
          have kept := ih later (mem_without.mpr ⟨mem_without.mpr ⟨member, by simpa using same⟩, found⟩)
          simp [kept]
  | @explored entered _ unvisited below _ _ _ _ _ _ ihRest =>
      by_cases same : node = entered
      · simp [same]
      · by_cases found : node ∈ below
        · exact List.mem_append_left _ found
        · have later := (List.mem_cons.mp pending).resolve_left same
          have kept := ihRest later
            (mem_without.mpr ⟨mem_without.mpr ⟨member, by simpa using same⟩, found⟩)
          simp [kept]

end Walk

structure Lists (children : α → List α) (root : α) (answer : List α) : Prop where
  unique : answer.Nodup
  complete : ∀ node, node ∈ answer ↔ node ≠ root ∧ Below children root node

def Sound (children : α → List α) (known? : α → Option (List α)) : Prop :=
  ∀ node answer, known? node = some answer → Lists children node answer

theorem mem_fresh_of_below {root node : α} {unvisited known : List α}
    (lists : Lists children root known) (path : Below children root node)
    (member : node ∈ unvisited) (different : node ≠ root) :
    node ∈ fresh (without unvisited [root]) known :=
  mem_fresh.mpr ⟨(lists.complete node).mpr ⟨different, path⟩, by simp [member, different]⟩

namespace Walk

variable {nodes unvisited left : List α}

theorem child_mem (sound : Sound children known?) (walk : Walk children known? nodes unvisited left)
    {node child : α} (listed : node ∈ left) (edge : child ∈ children node)
    (member : child ∈ unvisited) : child ∈ left := by
  induction walk with
  | done => simp at listed
  | passed _ _ ih => exact ih listed member
  | @recalled entered _ unvisited known left _ recorded _ ih =>
      -- a child below the entered node is in its known list, so only later nodes matter
      have lists := sound entered known recorded
      by_cases same : child = entered
      · simp [same]
      · by_cases found : child ∈ fresh (without unvisited [entered]) known
        · exact List.mem_append_left _ found
        · have later : node ∈ left := by
            rcases List.mem_append.mp listed with old | rest
            · have path := ((lists.complete node).mp (mem_fresh.mp old).1).2
              exact absurd (mem_fresh_of_below lists (path.tail edge) member same) found
            · rcases List.mem_cons.mp rest with top | later
              · have path : Below children entered child := TransGen.single (top ▸ edge)
                exact absurd (mem_fresh_of_below lists path member same) found
              · exact later
          have kept := ih later
            (mem_without.mpr ⟨mem_without.mpr ⟨member, by simpa using same⟩, found⟩)
          simp [kept]
  | @explored entered _ unvisited below _ _ _ walkBelow _ ihBelow ihRest =>
      by_cases same : child = entered
      · simp [same]
      · have kept : child ∈ without unvisited [entered] :=
          mem_without.mpr ⟨member, by simpa using same⟩
        rcases List.mem_append.mp listed with old | rest
        · exact List.mem_append_left _ (ihBelow old kept)
        · rcases List.mem_cons.mp rest with top | later
          · exact List.mem_append_left _ (walkBelow.mem_of_unvisited (top ▸ edge) kept)
          · by_cases found : child ∈ below
            · exact List.mem_append_left _ found
            · have listedLater := ihRest later (mem_without.mpr ⟨kept, found⟩)
              simp [listedLater]

theorem reached_of_mem (sound : Sound children known?)
    (walk : Walk children known? nodes unvisited left) {node : α} (listed : node ∈ left) :
    Reached children nodes node := by
  induction walk with
  | done => simp at listed
  | passed _ _ ih => exact (ih listed).cons
  | @recalled entered nodes _ known _ _ recorded _ ih =>
      rcases List.mem_append.mp listed with old | rest
      · have path := ((sound entered known recorded).complete node).mp (mem_fresh.mp old).1
        exact (reached_head entered nodes).below path.2
      · rcases List.mem_cons.mp rest with top | later
        · rw [top]
          exact reached_head entered nodes
        · exact (ih later).cons
  | @explored entered nodes _ _ _ _ _ _ _ ihBelow ihRest =>
      rcases List.mem_append.mp listed with old | rest
      · exact (reached_head entered nodes).below (below_of_reached (ihBelow old))
      · rcases List.mem_cons.mp rest with top | later
        · rw [top]
          exact reached_head entered nodes
        · exact (ihRest later).cons

end Walk

/-- Whatever sound answers the walk may reuse, it lists exactly what lies below its root. -/
theorem descendants_lists {domain : List α} (sound : Sound children known?)
    (inside : ∀ node, ∀ child ∈ children node, child ∈ domain) (root : α) :
    Lists children root (descendants children known? domain root) := by
  have walk := walk_postorder children known? (children root) (without domain [root])
  refine ⟨walk.nodup, fun node => ⟨fun listed => ?_, ?_⟩⟩
  · have kept := walk.unvisited_of_mem listed
    exact ⟨by simpa using (mem_without.mp kept).2,
      below_of_reached (walk.reached_of_mem sound listed)⟩
  · -- every node of the path is listed, since its predecessor is the root or listed
    rintro ⟨different, path⟩
    induction path with
    | single edge =>
        exact walk.mem_of_unvisited edge (by simp [inside _ _ edge, different])
    | @tail middle node _ edge ih =>
        have kept : node ∈ without domain [root] := by simp [inside _ _ edge, different]
        by_cases back : middle = root
        · exact walk.mem_of_unvisited (back ▸ edge) kept
        · exact walk.child_mem sound (ih back) edge kept

theorem closure_lists {domain : List α} {memo : Memo α} (sound : Sound children memo.get?)
    (inside : ∀ node, ∀ child ∈ children node, child ∈ domain) (root : α) :
    Lists children root (closure children domain root memo).1 ∧
      Sound children (closure children domain root memo).2.get? := by
  have lists := descendants_lists sound inside root
  unfold closure
  cases recorded : memo.get? root with
  | some known => exact ⟨sound root known recorded, sound⟩
  | none =>
      refine ⟨lists, fun node answer found => ?_⟩
      simp only [Memo.get?_record] at found
      split at found
      · rename_i same
        rw [same, ← Option.some.inj found]
        exact lists
      · exact sound node answer found

end CallResolution.Search

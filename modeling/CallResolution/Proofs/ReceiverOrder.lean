import CallResolution.Proofs.Resolved

/-!
The order of receivers. Closures list every class after all that extends it, and so do unions of
closures, whatever they repeat. Such a list is closed under sub-classing already: closing it once
more changes nothing, not even the order.
-/

namespace CallResolution

namespace Search

variable {α : Type} {children : α → List α} {left right items : List α} {node : α}

def BelowFirst (children : α → List α) (items : List α) : Prop :=
  ∀ earlier node, earlier ++ [node] <+: items → ∀ other, Below children node other →
    other ∈ earlier

theorem belowFirst_nil : BelowFirst children [] := by
  intro earlier node begins
  simp at begins

theorem belowFirst_concat : BelowFirst children (items ++ [node]) ↔
    BelowFirst children items ∧ ∀ other, Below children node other → other ∈ items := by
  constructor
  · intro first
    constructor
    · intro earlier listed begins
      exact first earlier listed (begins.trans (List.prefix_append _ _))
    · exact first items node List.prefix_rfl
  · rintro ⟨first, last⟩ earlier listed begins
    rcases List.prefix_concat_iff.mp begins with whole | inside
    · obtain ⟨rfl, same⟩ := List.append_inj' whole rfl
      cases same
      exact last
    · exact first earlier listed inside

theorem BelowFirst.append (leftFirst : BelowFirst children left)
    (rightFirst : BelowFirst children right) : BelowFirst children (left ++ right) := by
  induction right using List.reverseRecOn with
  | nil => simpa using leftFirst
  | append_singleton right node ih =>
      obtain ⟨first, last⟩ := belowFirst_concat.mp rightFirst
      rw [← List.append_assoc, belowFirst_concat]
      refine ⟨ih first, ?_⟩
      intro other path
      exact List.mem_append_right _ (last other path)

theorem BelowFirst.flatten {groups : List (List α)}
    (each : ∀ group ∈ groups, BelowFirst children group) : BelowFirst children groups.flatten := by
  induction groups with
  | nil => exact belowFirst_nil
  | cons group groups ih =>
      rw [List.flatten_cons]
      exact (each group (by simp)).append (ih fun other member => each other (by simp [member]))

variable [DecidableEq α]

theorem BelowFirst.eraseDups (first : BelowFirst children items) :
    BelowFirst children items.eraseDups := by
  induction items using List.reverseRecOn with
  | nil => exact first
  | append_singleton items node ih =>
      obtain ⟨rest, last⟩ := belowFirst_concat.mp first
      by_cases member : node ∈ items
      · rw [eraseDups_append_of_mem member]
        exact ih rest
      · rw [eraseDups_append_of_not_mem member, belowFirst_concat]
        refine ⟨ih rest, ?_⟩
        intro other path
        exact List.mem_eraseDups.mpr (last other path)

/-- Closing such a list once more gives the same list. -/
theorem BelowFirst.closed (first : BelowFirst children items) (unique : items.Nodup)
    {closure : α → List α} (sound : ∀ node, ∀ other ∈ closure node, Below children node other) :
    (items.flatMap fun node => closure node ++ [node]).eraseDups = items := by
  induction items using List.reverseRecOn with
  | nil => rfl
  | append_singleton items node ih =>
      obtain ⟨rest, last⟩ := belowFirst_concat.mp first
      obtain ⟨restUnique, _, apart⟩ := List.nodup_append.mp unique
      have same := ih rest restUnique
      have members : ∀ other, other ∈ items.flatMap (fun node => closure node ++ [node]) ↔
          other ∈ items := by
        intro other
        rw [← List.mem_eraseDups, same]
      have known : closure node ⊆ items.flatMap fun node => closure node ++ [node] := by
        intro other listed
        exact (members other).mpr (last other (sound node other listed))
      have fresh : node ∉ (items.flatMap fun node => closure node ++ [node]) ++ closure node := by
        intro listed
        have collected := (List.mem_append.mp listed).elim id fun below => known below
        exact apart node ((members node).mp collected) node (by simp) rfl
      rw [List.flatMap_append, List.flatMap_singleton, ← List.append_assoc,
        eraseDups_append_of_not_mem fresh, eraseDups_append_of_subset known, same]

theorem belowFirst_descendants (acyclic : Acyclic children) {domain : List α}
    (inside : ∀ node, ∀ child ∈ children node, child ∈ domain) (root : α) :
    BelowFirst children (descendants children (fun _ => none) domain root ++ [root]) := by
  have lists := descendants_lists sound_none inside root
  rw [belowFirst_concat]
  constructor
  · intro earlier node begins other path
    obtain ⟨later, split⟩ := begins
    exact descendants_listed_before acyclic inside (by simpa using split.symm) path
  · intro other path
    refine (lists.complete other).mpr ⟨?_, path⟩
    intro same
    exact acyclic root (same ▸ path)

end Search

namespace Hierarchy

variable {program : Program} {policy : Policy}

def receiverClasses (hierarchy : Hierarchy) (id : ClassId) : Query (List ClassId) :=
  if hierarchy.program.isInterface id then hierarchy.implementers id
  else hierarchy.subClassesIncluding id

theorem receiverClasses_of_interface (policy : Policy) {id : ClassId}
    (isInterface : program.isInterface id = true) :
    (ofProgram program policy).1.receiverClasses id =
      (ofProgram program policy).1.implementers id :=
  if_pos isInterface

theorem receiverClasses_of_class (policy : Policy) {id : ClassId}
    (notInterface : program.isInterface id = false) :
    (ofProgram program policy).1.receiverClasses id =
      (ofProgram program policy).1.subClassesIncluding id :=
  if_neg (Bool.eq_false_iff.mp notInterface)

theorem receiverClasses_exact {bad : QueryError → Prop} {id : ClassId}
    (bound : id.index < program.classes.size) :
    Query.Meets (tables program policy).Exact ((ofProgram program policy).1.receiverClasses id)
      (fun answer => ∀ other, other ∈ answer ↔ program.Receives policy id other) bad := by
  cases kind : program.isInterface id with
  | true =>
      rw [receiverClasses_of_interface policy kind]
      refine (implementers_exact kind).mono ?_
      intro answer exact other
      rw [exact, Program.receives_iff_of_interface kind]
  | false =>
      have isClass : program.isClass id = true := Program.isClass_iff.mpr ⟨bound, kind⟩
      rw [receiverClasses_of_class policy kind]
      refine (subClassesIncluding_exact isClass).mono ?_
      intro answer exact other
      rw [exact, Program.receives_iff_of_class isClass]

section Acyclic

variable (acyclic : program.Acyclic policy)

include acyclic

theorem belowFirst_implementerTable (id : ClassId) :
    Search.BelowFirst (tableRow (tables program policy).subClassTable)
      (tableRow (ofProgram program policy).1.implementerTable id) := by
  have closed := implementerTable_closed (subClassClosure_plain acyclic) (plain_empty _)
  unfold tableRow
  cases found : (ofProgram program policy).1.implementerTable[id.index]? with
  | none => exact Search.belowFirst_nil
  | some row =>
      have listed : row ∈ (ofProgram program policy).1.implementerTable.toList :=
        Array.mem_toList_iff.mpr (Array.mem_of_getElem? found)
      obtain ⟨_, _, groups, grouped, rfl⟩ := mem_of_forall₂ closed listed
      refine (Search.BelowFirst.flatten fun group member => ?_).eraseDups
      obtain ⟨root, _, below, rfl, rfl⟩ := mem_of_forall₂ grouped member
      exact Search.belowFirst_descendants (subClassTable_acyclic acyclic)
        (subClassTable_inside program policy) root

theorem implementers_belowFirst (id : ClassId) :
    Query.Meets (tables program policy).Plain ((ofProgram program policy).1.implementers id)
      (fun answer => answer.Nodup ∧
        Search.BelowFirst (tableRow (tables program policy).subClassTable) answer)
      fun _ => True := by
  have interfaces := (ofProgram_maintains (maintains_plain acyclic)).keeps_subInterfacesIncluding id
  refine interfaces.bind fun found _ => .pure ⟨nodup_eraseDups _, ?_⟩
  refine (Search.BelowFirst.flatten ?_).eraseDups
  intro row listed
  obtain ⟨interface, _, rfl⟩ := List.mem_map.mp listed
  exact belowFirst_implementerTable acyclic interface

theorem subClassesIncluding_plain (id : ClassId) :
    Query.Meets (tables program policy).Plain
      ((ofProgram program policy).1.subClassesIncluding id)
      (· = Search.descendants (tableRow (tables program policy).subClassTable) (fun _ => none)
        program.classIds id ++ [id]) fun _ => True := by
  refine Query.Meets.bind ((keeps_ofExcept _).bind fun _ _ =>
    .ofClosure (subClassClosure_plain acyclic id)) fun below same => .pure ?_
  rw [same]

theorem receivers_plain (id : ClassId) :
    Query.Meets (tables program policy).Plain ((ofProgram program policy).1.receivers id)
      (fun answer => ∀ memos, (tables program policy).Plain memos →
        ((ofProgram program policy).1.receiverClasses id memos).1 = .ok answer) fun _ => True := by
  have entries : Outcome (fun entry => program.isInterface id = entry.isInterface)
      (fun _ => True) (program.requireEntry id) := by
    unfold Program.requireEntry Program.isInterface
    cases program.class? id <;> trivial
  refine Query.Meets.bind (.ofExcept entries) fun entry kind => ?_
  split
  · rename_i isInterface
    rw [receiverClasses_of_interface policy (kind.trans isInterface)]
    have implementers := (implementers_belowFirst acyclic id).and
      (settles_implementers acyclic id).meets
    simp only [and_self] at implementers
    refine implementers.bind ?_
    rintro classes ⟨⟨unique, first⟩, asked⟩
    refine (Query.Meets.mapM fun other _ => subClassesIncluding_plain acyclic other).bind ?_
    intro groups grouped
    refine .pure ?_
    have collected := List.forall₂_map_left_iff.mpr (grouped.imp fun _ _ same => same.symm)
    rw [List.forall₂_eq_eq_eq] at collected
    have sound := fun node other listed => ((Search.descendants_lists Search.sound_none
      (subClassTable_inside program policy) node).complete other).mp listed |>.2
    rw [← collected, ← List.flatMap_def, first.closed unique sound]
    exact asked
  · rename_i notInterface
    rw [receiverClasses_of_class policy (kind.trans (Bool.eq_false_iff.mpr notInterface))]
    exact (settles_subClassesIncluding acyclic id).meets

end Acyclic

end Hierarchy

end CallResolution

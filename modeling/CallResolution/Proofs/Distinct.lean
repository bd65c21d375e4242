import Mathlib.Data.List.Induction
import Mathlib.Data.List.Nodup

/-!
Keeping first occurrences only: what `List.eraseDups` leaves and how it grows with the list.
-/

namespace CallResolution

variable {α : Type} [BEq α] [LawfulBEq α]

theorem nodup_eraseDups (items : List α) : items.eraseDups.Nodup := by
  induction length : items.length using Nat.strongRecOn generalizing items with
  | ind size ih =>
      cases items with
      | nil => simp
      | cons first rest =>
          rw [List.eraseDups_cons, List.nodup_cons]
          have shorter : (rest.filter fun other => !other == first).length < size := by
            have bound := List.length_filter_le (fun other => !other == first) rest
            simp only [List.length_cons] at length
            omega
          exact ⟨by simp, ih _ shorter _ rfl⟩

theorem eraseDups_of_nodup {items : List α} (unique : items.Nodup) : items.eraseDups = items := by
  induction items with
  | nil => rfl
  | cons first rest ih =>
      obtain ⟨apart, restUnique⟩ := List.nodup_cons.mp unique
      have kept : rest.filter (fun other => !other == first) = rest := by
        rw [List.filter_eq_self]
        intro other member
        have different : other ≠ first := fun same => apart (same ▸ member)
        simp [different]
      rw [List.eraseDups_cons, kept, ih restUnique]

theorem eraseDups_append_of_mem {items : List α} {item : α} (member : item ∈ items) :
    (items ++ [item]).eraseDups = items.eraseDups := by
  rw [List.eraseDups_append]
  simp [List.removeAll, member]

theorem eraseDups_append_of_not_mem {items : List α} {item : α} (apart : item ∉ items) :
    (items ++ [item]).eraseDups = items.eraseDups ++ [item] := by
  rw [List.eraseDups_append]
  simp [List.removeAll, apart, List.eraseDups_cons]

theorem eraseDups_append_of_subset {left right : List α} (listed : right ⊆ left) :
    (left ++ right).eraseDups = left.eraseDups := by
  have nothing : right.removeAll left = [] := by
    simpa [List.removeAll] using fun item member => listed member
  rw [List.eraseDups_append, nothing, List.eraseDups_nil, List.append_nil]

theorem eraseDups_map {β : Type} [BEq β] [LawfulBEq β] {view : α → β} {items : List α}
    (injective : ∀ item ∈ items, ∀ other ∈ items, view item = view other → item = other) :
    (items.map view).eraseDups = items.eraseDups.map view := by
  induction items using List.reverseRecOn with
  | nil => rfl
  | append_singleton items item ih =>
      have kept := ih fun first member second secondMember =>
        injective first (List.mem_append_left _ member) second
          (List.mem_append_left _ secondMember)
      rw [List.map_append, List.map_singleton]
      by_cases member : item ∈ items
      · rw [eraseDups_append_of_mem member, eraseDups_append_of_mem (List.mem_map_of_mem member),
          kept]
      · have apart : view item ∉ items.map view := by
          intro listed
          obtain ⟨other, otherMember, same⟩ := List.mem_map.mp listed
          have equal := injective other (List.mem_append_left _ otherMember) item (by simp) same
          exact member (equal ▸ otherMember)
        rw [eraseDups_append_of_not_mem member, eraseDups_append_of_not_mem apart, kept,
          List.map_append, List.map_singleton]

theorem perm_groups {β : Type} {key : β → α} {groups : List α} (unique : groups.Nodup)
    {items : List β} (covered : ∀ item ∈ items, key item ∈ groups) :
    (groups.flatMap fun group => items.filter fun item => key item == group).Perm items := by
  induction groups generalizing items with
  | nil =>
      have none : items = [] := List.eq_nil_iff_forall_not_mem.mpr fun item member => by
        simpa using covered item member
      rw [none]
      exact .nil
  | cons group groups ih =>
      obtain ⟨apart, restUnique⟩ := List.nodup_cons.mp unique
      have outside : (groups.flatMap fun other => items.filter fun item => key item == other) =
          groups.flatMap fun other => (items.filter fun item => !(key item == group)).filter
            fun item => key item == other := by
        refine List.flatMap_congr fun other member => ?_
        rw [List.filter_filter]
        refine List.filter_congr fun item _ => ?_
        by_cases here : key item = other
        · have different : other ≠ group := fun same => apart (same ▸ member)
          simp [here, different]
        · simp [here]
      have rest : ∀ item ∈ items.filter fun item => !(key item == group), key item ∈ groups := by
        intro item member
        obtain ⟨listed, different⟩ := List.mem_filter.mp member
        have here : key item ≠ group := by simpa using different
        exact (List.mem_cons.mp (covered item listed)).resolve_left here
      rw [List.flatMap_cons, outside]
      exact ((ih restUnique rest).append_left _).trans (List.filter_append_perm _ _)

theorem eraseDups_ordered (items : List α) :
    items.eraseDups.Pairwise fun left right => items.idxOf left < items.idxOf right := by
  induction items using List.reverseRecOn with
  | nil => simp
  | append_singleton items item ih =>
      have kept : items.eraseDups.Pairwise fun left right =>
          (items ++ [item]).idxOf left < (items ++ [item]).idxOf right := by
        refine ih.imp_of_mem fun leftMember rightMember before => ?_
        rw [List.mem_eraseDups] at leftMember rightMember
        rwa [List.idxOf_append_of_mem leftMember, List.idxOf_append_of_mem rightMember]
      by_cases member : item ∈ items
      · rwa [eraseDups_append_of_mem member]
      · rw [eraseDups_append_of_not_mem member, List.pairwise_append]
        refine ⟨kept, List.pairwise_singleton _ _, fun left leftMember right rightMember => ?_⟩
        rw [List.mem_eraseDups] at leftMember
        rw [List.mem_singleton.mp rightMember, List.idxOf_append_of_mem leftMember,
          List.idxOf_append_of_notMem member]
        have inside := List.idxOf_lt_length_of_mem leftMember
        omega

end CallResolution

import CallResolution.CallGraph.Build
import Mathlib.Data.List.Forall2

/-!
Reasoning about questions. An answer is judged by what it is when there is one and by its
error when there is none. Since questions leave memos behind, it is judged under an
invariant of the memos, which the question has to keep.
-/

namespace CallResolution

variable {α β : Type}

theorem mem_of_forall₂ {relation : α → β → Prop} {items : List α} {values : List β}
    (related : List.Forall₂ relation items values) {value : β} (member : value ∈ values) :
    ∃ item ∈ items, relation item value := by
  induction related with
  | nil => simp at member
  | @cons item first items values head _ ih =>
      rcases List.mem_cons.mp member with same | later
      · exact ⟨item, by simp, same ▸ head⟩
      · obtain ⟨found, listed, holds⟩ := ih later
        exact ⟨found, by simp [listed], holds⟩

theorem exists_map_of_forall₂ [DecidableEq α] {relation : α → β → Prop}
    {items : List α} {values : List β} (fallback : β) (unique : items.Nodup)
    (related : List.Forall₂ relation items values) :
    ∃ choose : α → β, values = items.map choose ∧ ∀ item ∈ items, relation item (choose item) := by
  induction related with
  | nil => exact ⟨fun _ => fallback, rfl, by simp⟩
  | @cons item value items values head _ ih =>
      obtain ⟨apart, restUnique⟩ := List.nodup_cons.mp unique
      obtain ⟨choose, same, holds⟩ := ih restUnique
      have kept : ∀ other ∈ items, Function.update choose item value other = choose other := by
        intro other member
        have different : other ≠ item := fun same => apart (same ▸ member)
        exact Function.update_of_ne different _ _
      refine ⟨Function.update choose item value, ?_, ?_⟩
      · rw [List.map_cons, Function.update_self, List.map_congr_left kept, same]
      · intro other member
        rcases List.mem_cons.mp member with here | later
        · rw [here, Function.update_self]
          exact head
        · rw [kept other later]
          exact holds other later

def Outcome (good : α → Prop) (bad : QueryError → Prop) : Except QueryError α → Prop
  | .ok value => good value
  | .error error => bad error

namespace Outcome

variable {good better : α → Prop} {bad : QueryError → Prop}

theorem mono {answer : Except QueryError α} (outcome : Outcome good bad answer)
    (weaken : ∀ value, good value → better value) : Outcome better bad answer := by
  cases answer with
  | ok value => exact weaken value outcome
  | error error => exact outcome

theorem bind {good : α → Prop} {better : β → Prop} {answer : Except QueryError α}
    {next : α → Except QueryError β} (first : Outcome good bad answer)
    (second : ∀ value, good value → Outcome better bad (next value)) :
    Outcome better bad (answer >>= next) := by
  cases answer with
  | ok value => exact second value first
  | error error => exact first

theorem exists_ok {answer : Except QueryError α} (outcome : Outcome good (fun _ => False) answer) :
    ∃ value, answer = .ok value ∧ good value := by
  cases answer with
  | ok value => exact ⟨value, rfl, outcome⟩
  | error error => exact outcome.elim

theorem mapM {relation : α → β → Prop} {step : α → Except QueryError β} {items : List α}
    (each : ∀ item ∈ items, Outcome (relation item) bad (step item)) :
    Outcome (List.Forall₂ relation items) bad (items.mapM step) := by
  induction items with
  | nil => exact List.Forall₂.nil
  | cons item items ih =>
      rw [List.mapM_cons]
      refine bind (each item (by simp)) fun value related => ?_
      refine bind (ih fun other member => each other (by simp [member])) fun values rest => ?_
      exact List.Forall₂.cons related rest

end Outcome

section State

variable {σ : Type} {inv : σ → Prop}

def Ensures (inv : σ → Prop) (action : StateM σ α) (post : α → Prop) : Prop :=
  ∀ state, inv state → inv (action state).2 ∧ post (action state).1

theorem Ensures.mono {post weaker : α → Prop} {action : StateM σ α}
    (ensures : Ensures inv action post) (weaken : ∀ value, post value → weaker value) :
    Ensures inv action weaker := by
  intro state start
  obtain ⟨kept, holds⟩ := ensures state start
  exact ⟨kept, weaken _ holds⟩

theorem Ensures.pure {post : α → Prop} {value : α} (holds : post value) :
    Ensures inv (Pure.pure value) post :=
  fun _ start => ⟨start, holds⟩

theorem Ensures.bind {middle : α → Prop} {post : β → Prop} {action : StateM σ α}
    {next : α → StateM σ β} (first : Ensures inv action middle)
    (second : ∀ value, middle value → Ensures inv (next value) post) :
    Ensures inv (action >>= next) post := by
  intro state start
  obtain ⟨kept, holds⟩ := first state start
  exact second _ holds _ kept

theorem Ensures.mapM {relation : α → β → Prop} {step : α → StateM σ β} {items : List α}
    (each : ∀ item ∈ items, Ensures inv (step item) (relation item)) :
    Ensures inv (items.mapM step) (List.Forall₂ relation items) := by
  induction items with
  | nil => exact Ensures.pure List.Forall₂.nil
  | cons item items ih =>
      rw [List.mapM_cons]
      refine Ensures.bind (each item (by simp)) fun value related => ?_
      refine Ensures.bind (ih fun other member => each other (by simp [member]))
        fun values rest => ?_
      exact Ensures.pure (List.Forall₂.cons related rest)

end State

namespace Query

variable {inv : Memos → Prop} {good : α → Prop} {bad : QueryError → Prop}

/-- Asked with memos that satisfy `inv`, the question leaves such memos behind, and its
outcome is as stated. -/
def Meets (inv : Memos → Prop) (query : Query α) (good : α → Prop) (bad : QueryError → Prop) :
    Prop :=
  ∀ memos, inv memos → inv (query memos).2 ∧ Outcome good bad (query memos).1

theorem Meets.mono {better : α → Prop} {query : Query α} (meets : Meets inv query good bad)
    (weaken : ∀ value, good value → better value) : Meets inv query better bad := by
  intro memos start
  obtain ⟨kept, outcome⟩ := meets memos start
  exact ⟨kept, outcome.mono weaken⟩

theorem Meets.pure {value : α} (holds : good value) : Meets inv (Pure.pure value) good bad :=
  fun _ start => ⟨start, holds⟩

theorem Meets.ofExcept {answer : Except QueryError α} (outcome : Outcome good bad answer) :
    Meets inv (ofExcept answer) good bad :=
  fun _ start => ⟨start, outcome⟩

theorem Meets.ofClosure {action : StateM Memos α} (ensures : Ensures inv action good) :
    Meets inv (ofClosure action) good bad :=
  fun memos start => ensures memos start

theorem Meets.observe {query : Query α} {worse : QueryError → Prop}
    (meets : Meets inv query good bad) :
    Meets inv query.observe (Outcome good bad) worse :=
  fun memos start => meets memos start

theorem Meets.bind {better : β → Prop} {query : Query α} {next : α → Query β}
    (first : Meets inv query good bad)
    (second : ∀ value, good value → Meets inv (next value) better bad) :
    Meets inv (query >>= next) better bad := by
  intro memos start
  obtain ⟨kept, outcome⟩ := first memos start
  rw [bind_apply]
  generalize query memos = result at kept outcome
  obtain ⟨answer, later⟩ := result
  cases answer with
  | ok value => exact second value outcome later kept
  | error error => exact ⟨kept, outcome⟩

theorem Meets.mapM {relation : α → β → Prop} {step : α → Query β} {items : List α}
    (each : ∀ item ∈ items, Meets inv (step item) (relation item) bad) :
    Meets inv (items.mapM step) (List.Forall₂ relation items) bad := by
  induction items with
  | nil => exact Meets.pure List.Forall₂.nil
  | cons item items ih =>
      rw [List.mapM_cons]
      refine Meets.bind (each item (by simp)) fun value related => ?_
      refine Meets.bind (ih fun other member => each other (by simp [member])) fun values rest => ?_
      exact Meets.pure (List.Forall₂.cons related rest)

theorem Meets.mapM_ok {relation : α → β → Prop} {step : α → Query β} {items : List α}
    {values : α → β} {memos later : Memos}
    (each : ∀ item ∈ items, Meets inv (step item) (relation item) bad) (start : inv memos)
    (asked : items.mapM step memos = (.ok (items.map values), later)) :
    ∀ item ∈ items, relation item (values item) := by
  have outcome := (Meets.mapM each memos start).2
  rw [asked] at outcome
  exact List.forall₂_same.mp (List.forall₂_map_right_iff.mp outcome)

/-- The outcome is the same for all memos that satisfy `inv`. -/
def Settles (inv : Memos → Prop) (query : Query α) : Prop :=
  ∃ answer, ∀ memos, inv memos → inv (query memos).2 ∧ (query memos).1 = answer

theorem Settles.pure (value : α) : Settles inv (Pure.pure value) :=
  ⟨.ok value, fun _ start => ⟨start, rfl⟩⟩

theorem Settles.ofExcept (answer : Except QueryError α) : Settles inv (ofExcept answer) :=
  ⟨answer, fun _ start => ⟨start, rfl⟩⟩

theorem Settles.ofClosure {action : StateM Memos α} {value : α}
    (ensures : Ensures inv action (· = value)) : Settles inv (ofClosure action) := by
  refine ⟨.ok value, fun memos start => ?_⟩
  obtain ⟨kept, same⟩ := ensures memos start
  exact ⟨kept, congrArg Except.ok same⟩

theorem Settles.observe {query : Query α} (settles : Settles inv query) :
    Settles inv query.observe := by
  obtain ⟨answer, asked⟩ := settles
  refine ⟨.ok answer, fun memos start => ?_⟩
  obtain ⟨kept, same⟩ := asked memos start
  exact ⟨kept, congrArg Except.ok same⟩

theorem Settles.meets {query : Query α} (settles : Settles inv query) :
    Meets inv query (fun value => ∀ memos, inv memos → (query memos).1 = .ok value)
      fun _ => True := by
  obtain ⟨answer, asked⟩ := settles
  intro memos start
  refine ⟨(asked memos start).1, ?_⟩
  rw [(asked memos start).2]
  cases answer with
  | ok value => exact fun other held => (asked other held).2
  | error error => trivial

theorem Settles.bind {query : Query α} {next : α → Query β} (first : Settles inv query)
    (second : ∀ value, Settles inv (next value)) : Settles inv (query >>= next) := by
  obtain ⟨answer, asked⟩ := first
  cases answer with
  | error error =>
      refine ⟨.error error, fun memos start => ?_⟩
      obtain ⟨kept, same⟩ := asked memos start
      rw [bind_apply]
      generalize query memos = result at kept same
      obtain ⟨answer, later⟩ := result
      subst same
      exact ⟨kept, rfl⟩
  | ok value =>
      obtain ⟨following, answered⟩ := second value
      refine ⟨following, fun memos start => ?_⟩
      obtain ⟨kept, same⟩ := asked memos start
      rw [bind_apply]
      generalize query memos = result at kept same
      obtain ⟨answer, later⟩ := result
      subst same
      exact answered later kept

theorem Settles.mapM {step : α → Query β} {items : List α}
    (each : ∀ item, Settles inv (step item)) :
    Settles inv (items.mapM step) := by
  induction items with
  | nil => exact Settles.pure []
  | cons item items ih =>
      rw [List.mapM_cons]
      exact (each item).bind fun value => ih.bind fun values => Settles.pure (value :: values)

end Query

end CallResolution

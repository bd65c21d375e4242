import CallResolution.Search.Unvisited

/-!
Descendants of a node in depth-first post-order: every node after the nodes first found
below it. A memo may hold finished answers. The descendants of a node that has one are
taken from there instead of being searched again.
-/

namespace CallResolution.Search

variable {α : Type} [DecidableEq α]

inductive Visit (α : Type) where
  | enter (node : α)
  | leave (node : α)

/-- Carries out the pending visits and lists the nodes in the order they are left. -/
def postorder (children : α → List α) (known? : α → Option (List α)) :
    List (Visit α) → List α → List α
  | [], _ => []
  | .leave node :: pending, unvisited =>
    node :: postorder children known? pending unvisited
  | .enter node :: pending, unvisited =>
    if node ∈ unvisited then
      match known? node with
      | some known =>
        let found := fresh (without unvisited [node]) known
        found ++ node ::
          postorder children known? pending (without (without unvisited [node]) found)
      | none =>
        postorder children known? ((children node).map .enter ++ .leave node :: pending)
          (without unvisited [node])
    else
      postorder children known? pending unvisited
termination_by pending unvisited => (unvisited.length, pending.length)
decreasing_by
  · exact Prod.Lex.right _ (by simp)
  · exact Prod.Lex.left _ _ (Nat.lt_of_le_of_lt (length_without_le _ _)
      (length_without_lt ‹_› (by simp)))
  · exact Prod.Lex.left _ _ (length_without_lt ‹_› (by simp))
  · exact Prod.Lex.right _ (by simp)

def descendants (children : α → List α) (known? : α → Option (List α)) (domain : List α)
    (root : α) : List α :=
  postorder children known? ((children root).map .enter) (without domain [root])

/-- Answers given so far. An answer, once given, stands. -/
structure Memo (α : Type) where
  answers : List (α × List α)

namespace Memo

def empty : Memo α := ⟨[]⟩

def get? (memo : Memo α) (node : α) : Option (List α) :=
  memo.answers.lookup node

def record (memo : Memo α) (node : α) (answer : List α) : Memo α :=
  ⟨(node, answer) :: memo.answers⟩

@[simp] theorem get?_empty (node : α) : (empty : Memo α).get? node = none := rfl

@[simp] theorem get?_record (memo : Memo α) (node other : α) (answer : List α) :
    (memo.record node answer).get? other = if other = node then some answer else memo.get? other := by
  by_cases same : other = node
  · simp [get?, record, same]
  · have apart : (other == node) = false := by simp [same]
    simp [get?, record, same, List.lookup_cons, apart]

end Memo

def closure (children : α → List α) (domain : List α) (root : α) :
    StateM (Memo α) (List α) := fun memo =>
  match memo.get? root with
  | some known => (known, memo)
  | none =>
    let found := descendants children memo.get? domain root
    (found, memo.record root found)

end CallResolution.Search

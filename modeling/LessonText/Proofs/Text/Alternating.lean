import Mathlib.Data.List.SplitBy

/-! # Neighbours of one kind

A list cut between every two neighbours that differ in kind: each part holds members of one kind, and of two neighbouring
parts one is of the kind and the other is not.
-/

namespace LessonText

variable {α : Type}

/-- Parts of which every other one is of the kind; whether the first is. -/
inductive Alternating (f : α → Bool) : Bool → List (List α) → Prop where
  | nil {k} : Alternating f k []
  | cons {k part rest} : part ≠ [] → (∀ a ∈ part, f a = k) → Alternating f (!k) rest → Alternating f k (part :: rest)

namespace Alternating

variable {f : α → Bool} {part : List α}

/-- Members that are each like the next are all of one kind. -/
theorem same_of_chain (full : part ≠ []) (chain : part.IsChain fun a b => (f a == f b) = true) :
    ∃ k, ∀ a ∈ part, f a = k := by
  obtain ⟨a, part, rfl⟩ := List.exists_cons_of_ne_nil full
  refine ⟨f a, List.forall_mem_cons.2 ⟨rfl, fun b hb => ?_⟩⟩
  have trans : Trans (fun a b => f a = f b) (fun a b => f a = f b) (fun a b => f a = f b) := ⟨Eq.trans⟩
  have chain := chain.imp fun _ _ same => beq_iff_eq.1 same
  exact (List.rel_of_pairwise_cons (List.isChain_iff_pairwise.1 chain) hb).symm

theorem splitBy (f : α → Bool) (l : List α) : ∃ k, Alternating f k (l.splitBy fun a b => f a == f b) := by
  have same : ∀ part ∈ l.splitBy fun a b => f a == f b, part ≠ [] ∧ ∃ k, ∀ a ∈ part, f a = k := fun part mem =>
    ⟨List.ne_nil_of_mem_splitBy mem, same_of_chain (List.ne_nil_of_mem_splitBy mem) (List.isChain_of_mem_splitBy mem)⟩
  have apart : (l.splitBy fun a b => f a == f b).IsChain _ := List.isChain_getLast_head_splitBy _ _
  generalize l.splitBy (fun a b => f a == f b) = parts at same apart
  induction parts with
  | nil => exact ⟨true, .nil⟩
  | cons part rest ih =>
      obtain ⟨⟨full, k, alike⟩, others⟩ := List.forall_mem_cons.1 same
      obtain ⟨k', later⟩ := ih others apart.tail
      cases later with
      | nil => exact ⟨k, .cons full alike .nil⟩
      | @cons _ next rest full' alike' later =>
          obtain ⟨⟨some, more, other⟩, -⟩ := List.isChain_cons_cons.1 apart
          rw [alike _ (List.getLast_mem some), alike' _ (List.head_mem more), beq_eq_false_iff_ne] at other
          obtain rfl : k' = !k := Bool.eq_not_of_ne other.symm
          exact ⟨k, .cons full alike (.cons full' alike' later)⟩

end Alternating

end LessonText

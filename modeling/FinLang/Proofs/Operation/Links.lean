import FinLang.Proofs.Heap.Links
import FinLang.Proofs.Operation

namespace FinLang

namespace Operation

open Heap

-- Operators make no links.
variable {I : Heap → Prop} {op : Operator} {a b id : VarId} {symbol : String}

section

variable (hI : Durable I)

include hI

theorem assign_upholds : Upholds I (assign a b) := by
  have hmove : Upholds I (do
      moveOrCopy a b
      return a : HeapM VarId) := hI.moveOrCopy.bind fun _ => .pure _
  refine (Upholds.read _).bind fun left => ?_
  have hguarded : Upholds I (do
      if ← read (·.isWriteProtected a) then
        fail .assignProtected
      moveOrCopy a b
      return a : HeapM VarId) := by
    refine (Upholds.read _).bind fun closed => ?_
    cases closed
    · exact hmove
    · exact (Upholds.fail _).bind fun _ => hmove
  cases left
  · exact (Upholds.fail _).bind fun _ => hguarded
  · exact hguarded

theorem step_upholds {delta : Float} : Upholds I (step symbol delta id) := by
  have hset : Upholds I (do
      let current ← read fun h => do counter symbol (← h.payload id)
      setNumeric id (current + delta)
      return current : HeapM Float) :=
    (Upholds.read _).bind fun current =>
      (hI.setScalar (p := .numeric (current + delta)) nofun).bind fun _ => .pure _
  refine (Upholds.read _).bind fun left => ?_
  have hguarded : Upholds I (do
      if ← read (·.isWriteProtected id) then
        fail (.stepProtected symbol)
      let current ← read fun h => do counter symbol (← h.payload id)
      setNumeric id (current + delta)
      return current : HeapM Float) := by
    refine (Upholds.read _).bind fun closed => ?_
    cases closed
    · exact hset
    · exact (Upholds.fail _).bind fun _ => hset
  cases left
  · exact (Upholds.fail _).bind fun _ => hguarded
  · exact hguarded

theorem access_upholds : Upholds I (access a b) := by
  have htake : Upholds I (do
      let i ← read fun h => do arrayIndex (← h.numeric b)
      let item ← element a i
      if ← read (·.isLeftValue item) then
        return item
      else
        detachElement a i : HeapM VarId) := by
    refine (Upholds.read _).bind fun i => hI.element.bind fun item => (Upholds.read _).bind fun left => ?_
    cases left
    · exact hI.detachElement
    · exact .pure _
  unfold access
  refine (Upholds.read _).bind fun found => ?_
  dsimp only
  split
  · exact (Upholds.fail _).bind fun _ => htake
  · exact htake

-- No sum is a link.
theorem add_upholds : Upholds I (add a b) := by
  intro h hi
  rw [add, Ensures.bind_iff]
  rcases hread : (do sum (← h.payload a) (← h.payload b) : Except Failure Payload) with e | p
  · exact (read_error (f := fun h => do sum (← h.payload a) (← h.payload b)) hread).mpr hi
  refine (read_ok (f := fun h => do sum (← h.payload a) (← h.payload b)) hread).mpr (hI.alloc ?_ h hi)
  rcases hl : h.payload a with _ | l <;> rw [hl] at hread
  · cases hread
  rcases hr : h.payload b with _ | r <;> rw [hr] at hread
  · cases hread
  have hsum : sum l r = .ok p := hread
  obtain ⟨q, hq, -, hno⟩ | ⟨e, he, -⟩ := sum_cases l r
  · cases hq.symm.trans hsum
    exact hno
  · cases he.symm.trans hsum

theorem unary_upholds : Upholds I (unary op a) := by
  unfold unary
  split
  · exact (Upholds.read _).bind fun _ => hI.alloc nofun
  · exact (Upholds.read _).bind fun _ => hI.alloc nofun
  · exact (Upholds.read _).bind fun _ => (Upholds.read _).bind fun _ => hI.alloc nofun
  · exact (Upholds.read _).bind fun _ => hI.alloc nofun
  · exact (Upholds.read _).bind fun _ => hI.alloc nofun
  · exact (step_upholds hI).bind fun _ => .pure _
  · exact (step_upholds hI).bind fun _ => .pure _
  · exact (step_upholds hI).bind fun _ => hI.alloc nofun
  · exact (step_upholds hI).bind fun _ => hI.alloc nofun
  · exact .fail _

theorem binary_upholds : Upholds I (binary op a b) := by
  have hnumbers : ∀ {k : Float → Float → HeapM VarId}, (∀ l r, Upholds I (k l r)) → Upholds I (do
      let l ← number op a
      let r ← number op b
      k l r : HeapM VarId) := fun hk =>
    (Upholds.read _).bind fun l => (Upholds.read _).bind fun r => hk l r
  unfold binary
  cases op with
  | add => exact add_upholds hI
  | sub | mul | div | mod | power =>
    exact hnumbers fun _ _ => (Upholds.read _).bind fun _ => hI.alloc nofun
  | less | greater | lessEqual | greaterEqual => exact hnumbers fun _ _ => hI.alloc nofun
  | logicAnd | logicOr | logicXor =>
    exact (Upholds.read _).bind fun _ => (Upholds.read _).bind fun _ => hI.alloc nofun
  | bitAnd | bitOr | bitXor =>
    exact (Upholds.read _).bind fun _ => (Upholds.read _).bind fun _ => hI.alloc nofun
  | equal | notEqual => exact (Upholds.read _).bind fun _ => hI.alloc nofun
  | assign => exact assign_upholds hI
  | comma => exact .pure _
  | access => exact access_upholds hI
  | _ => exact .fail _

theorem calculate_upholds {operands : List VarId} : Upholds I (calculate op operands) := by
  unfold calculate
  split
  · exact .fail _
  · split
    · exact unary_upholds hI
    · exact binary_upholds hI
    · exact .fail _

end

end Operation

end FinLang

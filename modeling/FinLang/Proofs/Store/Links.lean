import FinLang.Proofs.Heap.Links
import FinLang.Proofs.Store

namespace FinLang

namespace Store

open Heap (Durable)

-- An operation on the store that keeps a condition on the heap, also where it fails.
def Upholds {α : Type} (I : Heap → Prop) (op : StoreM α) : Prop :=
  ∀ st : Store, I st.heap → Ensures op st (fun _ st' => I st'.heap) fun _ st' => I st'.heap

variable {α β : Type} {I : Heap → Prop} {id : ScopeId} {name : String} {var : VarId}

namespace Upholds

theorem bind {op : StoreM α} {k : α → StoreM β} (hop : Upholds I op) (hk : ∀ a, Upholds I (k a)) :
    Upholds I (op >>= k) :=
  fun st hi => (hop st hi).bind fun a st' hi' => hk a st' hi'

theorem fail (c : Cause) : Upholds I (Store.fail c : StoreM α) :=
  fun _ hi => hi

theorem onHeap {op : HeapM α} (hop : Heap.Upholds I op) : Upholds I (Store.onHeap op) :=
  fun st hi => onHeap_iff.mpr (hop st.heap hi)

theorem readHeap (f : Heap → Except Failure α) : Upholds I (Store.readHeap f) := by
  intro st hi
  unfold Ensures Store.readHeap
  rcases hf : f st.heap with e | a <;> simpa [ExceptT.mk, ExceptT.run, StateT.run, hf] using hi

theorem readScopes (f : Scopes → Except Failure α) : Upholds I (Store.readScopes f) := by
  intro st hi
  unfold Ensures Store.readScopes
  rcases hf : f st.scopes with e | a <;> simpa [ExceptT.mk, ExceptT.run, StateT.run, hf] using hi

theorem updateScope {f : Scope → Scope} : Upholds I (Store.updateScope id f) := by
  intro st hi
  rw [Store.updateScope, Ensures.bind_iff, Ensures.get_iff]
  split
  · exact Ensures.modify_iff.mpr hi
  · exact hi

theorem addFunction {f : Function} : Upholds I (Store.addFunction id f) := by
  refine (readScopes _).bind fun sc => ?_
  split
  · exact (fail _).bind fun _ => updateScope
  · exact updateScope

theorem forM {f : α → StoreM Unit} (hf : ∀ a, Upholds I (f a)) (l : List α) : Upholds I (l.forM f) :=
  fun st hi => Ensures.forM (fun _ st => I st.heap) (fun a _ st hi => hf a st hi) l st hi

variable (hI : Durable I)

include hI

theorem addVariable : Upholds I (Store.addVariable id name var) := by
  have hput : Upholds I (do
      Store.updateScope id fun s => { s with vars := s.vars ++ [(name, var)] }
      Store.onHeap (Heap.setOwner var (.scope id)) : StoreM Unit) :=
    .bind updateScope fun _ => onHeap hI.setOwner
  have hbind : Upholds I (do
      let scope ← Store.readScopes (·.lookup id)
      if (scope.varNamed? name).isSome then
        Store.fail (.duplicateVariable name)
      Store.updateScope id fun s => { s with vars := s.vars ++ [(name, var)] }
      Store.onHeap (Heap.setOwner var (.scope id)) : StoreM Unit) := by
    refine (readScopes _).bind fun sc => ?_
    split
    · exact (fail _).bind fun _ => hput
    · exact hput
  have hleft : Upholds I (do
      if !(← Store.readHeap (·.isLeftValue var)) then
        Store.fail (.bindTemporary name)
      let scope ← Store.readScopes (·.lookup id)
      if (scope.varNamed? name).isSome then
        Store.fail (.duplicateVariable name)
      Store.updateScope id fun s => { s with vars := s.vars ++ [(name, var)] }
      Store.onHeap (Heap.setOwner var (.scope id)) : StoreM Unit) := by
    refine (readHeap _).bind fun flag => ?_
    split
    · exact (fail _).bind fun _ => hbind
    · exact hbind
  unfold Store.addVariable
  split
  · exact (fail _).bind fun _ => hleft
  · exact hleft

-- A name makes no link, and neither does what a name is refused to.
theorem declare : Upholds I (Store.declare id name var) := by
  refine (onHeap hI.setLeftValue).bind fun _ st hi => ?_
  rw [Ensures.tryCatch_iff]
  refine (addVariable hI st hi).mono (fun _ _ hi => hi) fun e st' hi => ?_
  exact (onHeap hI.free).bind (k := fun _ => (throw e : StoreM Unit)) (fun _ _ hi => hi) st' hi

end Upholds

end Store

end FinLang

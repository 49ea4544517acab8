import FinLang.Operation
import FinLang.Proofs.Ensures

namespace FinLang

variable {α β σ : Type}

-- A result that, if it is a failure, has not been given a place.
def Bare (x : Except Failure α) : Prop :=
  ∀ e, x = .error e → e.span = none

namespace Bare

theorem ok (a : α) : Bare (.ok a) := by
  rintro e ⟨⟩

theorem error (c : Cause) : Bare (.error (.of c) : Except Failure α) := by
  rintro e ⟨⟩
  rfl

theorem bind {x : Except Failure α} {k : α → Except Failure β} (hx : Bare x) (hk : ∀ a, Bare (k a)) :
    Bare (x >>= k) := by
  cases x with
  | ok a => exact hk a
  | error e =>
    rintro _ ⟨⟩
    exact hx e rfl

theorem ite {x y : Except Failure α} {c : Prop} [Decidable c] (hx : Bare x) (hy : Bare y) :
    Bare (if c then x else y) := by
  by_cases hc : c
  · rwa [if_pos hc]
  · rwa [if_neg hc]

theorem mapM {f : α → Except Failure β} (hf : ∀ a, Bare (f a)) (l : List α) : Bare (l.mapM f) := by
  induction l with
  | nil => exact ok _
  | cons a l ih =>
    rw [List.mapM_cons]
    exact (hf a).bind fun _ => ih.bind fun _ => ok _

end Bare

-- A computation whose failures have not been given a place.
def Placeless (x : ExceptT Failure (StateM σ) α) : Prop :=
  ∀ s, Ensures x s (fun _ _ => True) fun e _ => e.span = none

namespace Placeless

theorem pure (a : α) : Placeless (Pure.pure a : ExceptT Failure (StateM σ) α) :=
  fun _ => trivial

theorem throw (c : Cause) : Placeless (throw (.of c) : ExceptT Failure (StateM σ) α) :=
  fun _ => rfl

theorem bind {x : ExceptT Failure (StateM σ) α} {k : α → ExceptT Failure (StateM σ) β}
    (hx : Placeless x) (hk : ∀ a, Placeless (k a)) : Placeless (x >>= k) :=
  fun s => (hx s).bind fun a s' _ => hk a s'

theorem lift (x : StateM σ α) : Placeless (liftM x : ExceptT Failure (StateM σ) α) :=
  fun _ => Ensures.lift_iff.2 trivial

theorem get : Placeless (MonadState.get : ExceptT Failure (StateM σ) σ) :=
  fun _ => trivial

theorem modify (f : σ → σ) : Placeless (modify f : ExceptT Failure (StateM σ) Unit) :=
  fun _ => trivial

theorem ite {x y : ExceptT Failure (StateM σ) α} {c : Prop} [Decidable c] (hx : Placeless x)
    (hy : Placeless y) : Placeless (if c then x else y) := by
  by_cases hc : c
  · rwa [if_pos hc]
  · rwa [if_neg hc]

theorem forM {f : α → ExceptT Failure (StateM σ) Unit} (hf : ∀ a, Placeless (f a)) (l : List α) :
    Placeless (l.forM f) :=
  fun s => (Ensures.forM (fun _ _ => True) (fun a _ s _ => hf a s) l s trivial)

theorem forM_array {f : α → ExceptT Failure (StateM σ) Unit} (hf : ∀ a, Placeless (f a))
    (l : Array α) : Placeless (l.forM f) :=
  fun s => (Ensures.forM_array (fun _ _ => True) (fun a _ s _ => hf a s) l s trivial)

end Placeless

namespace Heap

variable {h : Heap} {id : VarId} {p : Payload} {flag : Bool}

section Reading

theorem lookup_bare : Bare (h.lookup id) := by
  unfold lookup
  cases h.arena.get? id with
  | some v => exact .ok _
  | none => exact .error _

theorem resolve_bare : Bare (h.resolve id) := by
  refine .bind lookup_bare fun v => ?_
  cases v.payload with
  | link target => exact .ite (.ok _) (.error _)
  | _ => exact .ok _

theorem payload_bare : Bare (h.payload id) :=
  .bind resolve_bare fun _ => .bind lookup_bare fun _ => .ok _

theorem varType_bare : Bare (h.varType id) :=
  .bind payload_bare fun _ => .ok _

theorem isLeftValue_bare : Bare (h.isLeftValue id) :=
  .bind lookup_bare fun _ => .ok _

theorem isWriteProtected_bare : Bare (h.isWriteProtected id) :=
  .bind resolve_bare fun _ => .bind lookup_bare fun _ => .bind lookup_bare fun _ => .ok _

theorem owningScope_bare : Bare (h.owningScope id) := by
  unfold owningScope
  generalize h.walkBudget = n
  induction n generalizing id with
  | zero => exact .error _
  | succ n ih =>
    refine Bare.bind (.bind lookup_bare fun _ => .ok _) fun o => ?_
    cases o with
    | array parent => exact ih
    | _ => exact .ok _

theorem numeric_bare : Bare (h.numeric id) := by
  refine .bind payload_bare fun p => ?_
  cases p <;> first | exact .ok _ | exact .error _

theorem string_bare : Bare (h.string id) := by
  refine .bind payload_bare fun p => ?_
  cases p <;> first | exact .ok _ | exact .error _

theorem toValue_bare : Bare (h.toValue id) := by
  unfold toValue
  generalize h.walkBudget = n
  induction n generalizing id with
  | zero => exact .error _
  | succ n ih =>
    refine .bind payload_bare fun p => ?_
    cases p with
    | array items => exact (Bare.mapM (fun _ => ih) _).bind fun _ => .ok _
    | _ => exact .ok _

theorem equals_bare {a b : VarId} : Bare (h.equals a b) :=
  .bind toValue_bare fun _ => .bind toValue_bare fun _ => .ok _

theorem toBool_bare : Bare (h.toBool id) := by
  refine .bind payload_bare fun p => ?_
  cases p <;> exact .ok _

theorem writable_bare : Bare (h.writable id) :=
  .bind resolve_bare fun _ => .bind lookup_bare fun _ => .ite (.error _) <|
    .bind lookup_bare fun _ => .ite (.error _) (.ok _)

theorem checkTypes_bare {target source : VarId} : Bare (checkTypes target source h) :=
  .bind varType_bare fun _ => .bind varType_bare fun _ => .ite (.error _) (.ok _)

end Reading

section Writing

theorem read_placeless {f : Heap → Except Failure α} (hf : ∀ h, Bare (f h)) : Placeless (read f) := by
  intro h
  unfold Ensures read
  simp only [ExceptT.run, ExceptT.mk, StateT.run]
  cases hr : f h with
  | ok a => trivial
  | error e => exact hf h e hr

theorem fail_placeless (c : Cause) : Placeless (fail c : HeapM α) :=
  .throw c

-- A check that may refuse, and what follows it.
theorem guard_placeless {x : HeapM α} {c : Prop} [Decidable c] {refusal : Cause} (hx : Placeless x) :
    Placeless (do
      if c then
        fail refusal
      x : HeapM α) :=
  .ite ((fail_placeless _).bind fun _ => hx) hx

theorem update_placeless {f : Variable → Variable} : Placeless (update id f) :=
  .bind .get fun _ => .ite (.lift _) (fail_placeless _)

theorem setLeftValue_placeless : Placeless (setLeftValue id flag) := by
  refine .bind .get fun h => ?_
  generalize h.walkBudget = n
  induction n generalizing id with
  | zero => exact fail_placeless _
  | succ n ih =>
    exact .bind update_placeless fun _ => (read_placeless fun _ => lookup_bare).bind fun _ =>
      .forM_array (fun _ => ih) _

theorem setNumeric_placeless {n : Float} : Placeless (setNumeric id n) := by
  refine (read_placeless fun _ => writable_bare).bind ?_
  rintro ⟨target, v⟩
  exact guard_placeless update_placeless

theorem unsetLink_placeless : Placeless (unsetLink id) := by
  refine (read_placeless fun _ => lookup_bare).bind fun v => ?_
  cases v.payload with
  | link target => exact .bind update_placeless fun _ => .lift _
  | _ => exact .pure _

theorem setLink_placeless {target : VarId} : Placeless (setLink id target) := by
  refine (read_placeless fun _ => resolve_bare).bind fun target => ?_
  have hrest : Placeless (do
      unsetLink id
      let found := (← read (·.lookup id)).payload.varType
      if found != .null then
        fail (.linkOver found)
      setPayload id (.link target)
      modifyVariable target fun v => { v with linkedBy := v.linkedBy ++ [id] } : HeapM Unit) :=
    .bind unsetLink_placeless fun _ => (read_placeless fun _ => lookup_bare).bind fun v =>
      guard_placeless (.bind update_placeless fun _ => .lift _)
  exact guard_placeless hrest

theorem allocLink_placeless {target : VarId} : Placeless (allocLink target) :=
  (Placeless.lift _).bind fun _ => .bind setLink_placeless fun _ => .pure _

theorem free_placeless : Placeless (free id) := by
  refine .bind .get fun h => ?_
  generalize h.walkBudget = n
  induction n generalizing id with
  | zero => exact fail_placeless _
  | succ n ih =>
    exact .bind unsetLink_placeless fun _ => (read_placeless fun _ => lookup_bare).bind fun v =>
      (Placeless.forM (fun _ => .lift _) _).bind fun _ => (Placeless.modify _).bind fun _ =>
        .forM_array (fun _ => ih) _

theorem release_placeless : Placeless (release id) := by
  refine .bind .get fun h => ?_
  split
  · split
    · exact free_placeless
    · exact .pure _
  · exact .pure _

theorem releaseAll_placeless {ids : List VarId} : Placeless (releaseAll ids) :=
  .forM (fun _ => release_placeless) _

theorem clear_placeless : Placeless (clear id) := by
  refine (read_placeless fun _ => writable_bare).bind ?_
  rintro ⟨target, v⟩
  exact .bind update_placeless fun _ => (Placeless.forM_array (fun _ => free_placeless) _).bind
    fun _ => .pure _

theorem copy_placeless {target source : VarId} : Placeless (copy target source) := by
  refine (read_placeless fun _ => resolve_bare).bind fun _ =>
    (read_placeless fun _ => resolve_bare).bind fun _ => ?_
  split
  · exact .pure _
  · exact (read_placeless fun _ => checkTypes_bare).bind fun _ =>
      (read_placeless fun _ => toValue_bare).bind fun _ => .bind clear_placeless fun _ =>
        (Placeless.lift _).bind fun _ => update_placeless

theorem moveOrCopy_placeless {target source : VarId} : Placeless (moveOrCopy target source) := by
  refine (read_placeless fun _ => resolve_bare).bind fun given =>
    (read_placeless fun _ => lookup_bare).bind fun v => ?_
  split
  · exact copy_placeless
  · refine (read_placeless fun _ => resolve_bare).bind fun _ => ?_
    refine .ite copy_placeless ((read_placeless fun _ => checkTypes_bare).bind fun _ =>
      .bind clear_placeless ?_)
    rintro ⟨target, leftValue⟩
    exact (read_placeless fun _ => lookup_bare).bind fun w => .bind update_placeless fun _ =>
        (Placeless.forM_array (fun _ => .bind update_placeless fun _ => setLeftValue_placeless) _).bind
          fun _ => update_placeless

theorem duplicate_placeless {source : VarId} : Placeless (duplicate source) :=
  (read_placeless fun _ => toValue_bare).bind fun _ => .lift _

theorem elementCount_bare : Bare (elementCount p) := by
  cases p <;> first | exact .ok _ | exact .error _

private theorem found_placeless {i : Nat} :
    Placeless (do
      match (← read (·.lookup id)).payload.elements[i]? with
      | some element => return element
      | none => fail .arrayVanished : HeapM VarId) := by
  refine (read_placeless fun _ => lookup_bare).bind fun w => ?_
  split
  · exact .pure _
  · exact fail_placeless _

theorem element_placeless {i : Nat} : Placeless (element id i) := by
  refine (read_placeless fun _ => resolve_bare).bind fun target =>
    (read_placeless fun _ => lookup_bare).bind fun v =>
      (read_placeless fun _ => elementCount_bare).bind fun n => ?_
  split
  · split
    · exact (fail_placeless _).bind fun _ => (Placeless.lift _).bind fun _ =>
        .bind update_placeless fun _ => found_placeless
    · exact (Placeless.lift _).bind fun _ => .bind update_placeless fun _ => found_placeless
  · exact found_placeless

theorem pushElement_placeless {array child : VarId} : Placeless (pushElement array child) := by
  refine (read_placeless fun _ => resolve_bare).bind fun target =>
    (read_placeless fun _ => writable_bare).bind ?_
  rintro ⟨reached, v⟩
  dsimp only
  split
  · exact .bind update_placeless fun _ => .bind update_placeless fun _ => setLeftValue_placeless
  · exact .bind update_placeless fun _ => .bind update_placeless fun _ => setLeftValue_placeless
  · exact fail_placeless _

theorem detachElement_placeless {array : VarId} {i : Nat} : Placeless (detachElement array i) := by
  refine (read_placeless fun _ => resolve_bare).bind fun target =>
    (read_placeless fun _ => lookup_bare).bind fun v => ?_
  split
  · exact fail_placeless _
  · exact (Placeless.lift _).bind fun _ => .bind update_placeless fun _ =>
      .bind update_placeless fun _ => .bind setLeftValue_placeless fun _ => .pure _

end Writing

end Heap

namespace Operation

open Heap

variable {op : Operator} {a b id : VarId} {symbol : String} {p q : Payload}

theorem numericOperand_bare : Bare (numericOperand symbol p) := by
  cases p <;> first | exact .ok _ | exact .error _

theorem counter_bare : Bare (counter symbol p) := by
  cases p <;> first | exact .ok _ | exact .error _

theorem sum_bare : Bare (sum p q) := by
  unfold sum
  split <;> first | exact .ok _ | exact .error _

theorem arithmetic_bare {l r : Float} : Bare (arithmetic op l r) := by
  unfold arithmetic
  split
  case h_3 | h_4 =>
    split
    · exact .error _
    · exact .ok _
  all_goals exact .ok _

theorem arrayIndex_bare {x : Float} : Bare (arrayIndex x) := by
  unfold arrayIndex
  split
  · split
    · exact .error _
    · exact .ok _
  · exact .error _

theorem factorial_bare {x : Float} : Bare (Number.factorial x) := by
  unfold Number.factorial
  split
  · split
    · exact .error _
    · exact .ok _
  · exact .error _

theorem toWord_bare {x : Float} : Bare (Number.toWord x) := by
  unfold Number.toWord
  split
  · split
    · exact .ok _
    · exact .error _
  · exact .error _

theorem number_placeless : Placeless (number op id) :=
  read_placeless fun _ => .bind payload_bare fun _ => numericOperand_bare

theorem word_placeless : Placeless (word id) :=
  read_placeless fun _ => .bind numeric_bare fun _ => toWord_bare

theorem assign_placeless : Placeless (assign a b) := by
  have hmove : Placeless (do
      moveOrCopy a b
      return a : HeapM VarId) := .bind moveOrCopy_placeless fun _ => .pure _
  have hprotected : Placeless (do
      if ← read (·.isWriteProtected a) then
        fail .assignProtected
      moveOrCopy a b
      return a : HeapM VarId) :=
    (read_placeless fun _ => isWriteProtected_bare).bind fun _ => guard_placeless hmove
  exact (read_placeless fun _ => isLeftValue_bare).bind fun _ => guard_placeless hprotected

theorem step_placeless {delta : Float} : Placeless (step symbol delta id) := by
  have hset : Placeless (do
      let current ← read fun h => do counter symbol (← h.payload id)
      setNumeric id (current + delta)
      return current : HeapM Float) :=
    (read_placeless fun _ => .bind payload_bare fun _ => counter_bare).bind fun _ =>
      .bind setNumeric_placeless fun _ => .pure _
  have hprotected : Placeless (do
      if ← read (·.isWriteProtected id) then
        fail (.stepProtected symbol)
      let current ← read fun h => do counter symbol (← h.payload id)
      setNumeric id (current + delta)
      return current : HeapM Float) :=
    (read_placeless fun _ => isWriteProtected_bare).bind fun _ => guard_placeless hset
  exact (read_placeless fun _ => isLeftValue_bare).bind fun _ => guard_placeless hprotected

theorem stepBefore_placeless {delta : Float} : Placeless (stepBefore symbol delta id) :=
  .bind step_placeless fun _ => .pure _

theorem stepAfter_placeless {delta : Float} : Placeless (stepAfter symbol delta id) :=
  .bind step_placeless fun _ => .lift _

theorem access_placeless : Placeless (access a b) := by
  have htake : Placeless (do
      let i ← read fun h => do arrayIndex (← h.numeric b)
      let item ← element a i
      if ← read (·.isLeftValue item) then
        return item
      else
        detachElement a i : HeapM VarId) :=
    (read_placeless fun _ => .bind numeric_bare fun _ => arrayIndex_bare).bind fun i =>
      .bind element_placeless fun item => (read_placeless fun _ => isLeftValue_bare).bind fun _ =>
        .ite (.pure _) detachElement_placeless
  exact (read_placeless fun _ => varType_bare).bind fun found => guard_placeless htake

theorem unary_placeless : Placeless (unary op a) := by
  unfold unary
  split
  · exact .bind number_placeless fun _ => .lift _
  · exact .bind number_placeless fun _ => .lift _
  · exact .bind number_placeless fun _ => (read_placeless fun _ => factorial_bare).bind fun _ => .lift _
  · exact (read_placeless fun _ => toBool_bare).bind fun _ => .lift _
  · exact .bind word_placeless fun _ => .lift _
  · exact stepBefore_placeless
  · exact stepBefore_placeless
  · exact stepAfter_placeless
  · exact stepAfter_placeless
  · exact fail_placeless _

theorem binary_placeless : Placeless (binary op a b) := by
  have hnumbers : ∀ {k : Float → Float → HeapM VarId}, (∀ l r, Placeless (k l r)) → Placeless (do
      let l ← number op a
      let r ← number op b
      k l r : HeapM VarId) := fun hk =>
    .bind number_placeless fun l => .bind number_placeless fun r => hk l r
  unfold binary
  cases op with
  | add =>
    refine (read_placeless fun _ => .bind payload_bare fun _ => .bind payload_bare fun _ =>
      sum_bare).bind fun _ => .lift _
  | sub | mul | div | mod | power =>
    exact hnumbers fun _ _ => (read_placeless fun _ => arithmetic_bare).bind fun _ => .lift _
  | less | greater | lessEqual | greaterEqual => exact hnumbers fun _ _ => .lift _
  | logicAnd | logicOr | logicXor =>
    exact (read_placeless fun _ => toBool_bare).bind fun _ =>
      (read_placeless fun _ => toBool_bare).bind fun _ => .lift _
  | bitAnd | bitOr | bitXor =>
    exact .bind word_placeless fun _ => .bind word_placeless fun _ => .lift _
  | equal | notEqual => exact (read_placeless fun _ => equals_bare).bind fun _ => .lift _
  | assign => exact assign_placeless
  | comma => exact .pure _
  | access => exact access_placeless
  | _ => exact fail_placeless _

theorem calculate_placeless {operands : List VarId} : Placeless (calculate op operands) := by
  unfold calculate
  split
  · exact fail_placeless _
  · split
    · exact unary_placeless
    · exact binary_placeless
    · exact fail_placeless _

end Operation

end FinLang

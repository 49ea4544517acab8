import FinLang.Proofs.Mirror.Nesting

namespace FinLang

open Exec
open Run (Steady Twins)

-- An interpreter to which handles are all the same.
structure Interpreter.Blind (ρ : Renaming) (m m' : Machine) (i : Interpreter) : Prop where
  orderly : i.Orderly fun _ _ => true
  eval : ∀ node scope,
    Parallel ρ m m' (Option.map ρ.handle) (i.eval node scope) (i.eval node (ρ scope))
  exec : ∀ node scope, Parallel ρ m m' id (i.exec node scope) (i.exec node (ρ scope))
  call : ∀ {r r' f args caller}, Twins ρ m m' r r' → args.Bound r →
    Agrees ρ m m' id (i.call f args caller) (i.call f (args.rename ρ) (ρ caller)) r r'

variable {α β γ δ : Type} {ρ : Renaming} {m m' : Machine} {r r' : Run} {x : VarId} {scope : ScopeId}
  {self : Interpreter} {node : Node} {nodes : List Node} {i : γ → δ}

namespace Interpreter

theorem option_map_inj {o o' : Option VarId} : o.map ρ.handle = o'.map ρ.handle ↔ o = o' :=
  (Option.map_injective ρ.handle_injective).eq_iff

theorem allocNull_follows : Parallel ρ m m' (Option.map ρ.handle) allocNull allocNull :=
  (alloc_follows (p := .null) rfl nofun).bind fun _ => .pure rfl

theorem evalSingle_follows :
    Parallel ρ m m' ρ.handle (evalSingle node scope) (evalSingle node (ρ scope)) := by
  unfold evalSingle
  split
  · exact fail_follows rfl
  split
  · exact alloc_follows (p := .numeric _) rfl (by simp)
  · exact alloc_follows (p := .string _) rfl (by simp)
  · exact alloc_follows (p := .null) rfl (by simp)
  · refine get_bind_follows fun {r r'} hr => ?_
    rw [Scopes.findVariable_mirrors hr.nested hr.store.scopes]
    cases r.machine.store.scopes.findVariable scope _ with
    | some id => exact Follows.pure rfl r r' hr
    | none => exact located_follows (fail_follows rfl) r r' hr
  · exact located_follows (fail_follows rfl)

theorem evalItems_follows (hself : self.Blind ρ m m') (items : List Node) (last : Option VarId) :
    Parallel ρ m m' (Option.map ρ.handle) (evalItems self scope last items)
      (evalItems self (ρ scope) (last.map ρ.handle) items) := by
  induction items generalizing last with
  | nil =>
    unfold evalItems
    cases last with
    | some id => exact .pure rfl
    | none => exact allocNull_follows
  | cons item rest ih =>
    have hrelease : Parallel ρ m m' id (last.forM release) ((last.map ρ.handle).forM release) :=
      releaseOption_follows last
    unfold evalItems
    refine .bind (onFailure_follows (hself.eval item scope) hrelease) fun value => ?_
    have hsame : (last != value) = true ↔ (last.map ρ.handle != value.map ρ.handle) = true := by
      simp [option_map_inj]
    cases value with
    | some id => exact .ite hsame.symm (fun _ => hrelease.bind fun _ => ih (some id)) fun _ => ih (some id)
    | none => exact .ite hsame.symm (fun _ => hrelease.bind fun _ => .pure rfl) fun _ => .pure rfl

theorem evalOperands_follows (hself : self.Blind ρ m m') (nodes : List Node) (operands : List VarId) :
    Parallel ρ m m' (Option.map (List.map ρ.handle)) (evalOperands self scope operands nodes)
      (evalOperands self (ρ scope) (operands.map ρ.handle) nodes) := by
  induction nodes generalizing operands with
  | nil => exact .pure rfl
  | cons node rest ih =>
    have hrelease : Parallel ρ m m' id (onHeap (Heap.releaseAll operands.reverse))
        (onHeap (Heap.releaseAll (operands.reverse.map ρ.handle))) :=
      releaseAll_follows operands.reverse
    rw [List.map_reverse] at hrelease
    unfold evalOperands
    refine .bind (onFailure_follows (hself.eval node scope) hrelease) fun value => ?_
    cases value with
    | some value =>
      refine flow_follows.bind fun fl => .bind (g := id) (ofExcept_follows ?_) fun _ => ih (value :: operands)
      exact .refl fl.insideExpression
    | none => exact hrelease.bind fun _ => .pure rfl

theorem calculate_follows {op : Operator} (operands : List VarId) :
    Parallel ρ m m' ρ.handle (onHeap (Operation.calculate op operands))
      (onHeap (Operation.calculate op (operands.map ρ.handle))) := by
  have hsteady : ∀ {s : Run} {ids : List VarId}, s.Fine →
      Ensures (onHeap (Operation.calculate op ids)) s (fun _ s' => Steady s s') (Halted Steady s) := by
    intro s ids hf
    refine (calculate_still hf).mono (fun _ _ h => h.1.steady) ?_
    rintro _ _ ⟨⟨f, rfl⟩, rfl⟩
    exact (Calm.refl hf).steady
  exact fun r r' hr => onHeap_agrees hr (Operation.calculate_agrees operands hr.fine.sound.heap
    hr.fine'.sound.heap hr.store.heap) (hsteady hr.fine) (hsteady hr.fine')

theorem releaseOperands_follows (keep : Option VarId) (operands : List VarId) :
    Parallel ρ m m' id
      (operands.forM fun id => if some id = keep then pure () else release id)
      ((operands.map ρ.handle).forM fun id =>
        if some id = keep.map ρ.handle then pure () else release id) := by
  refine .forM (fun x => ?_) operands
  exact .ite (option_map_inj (o := some x)) (fun _ => .pure rfl) fun _ => release_follows

theorem evalOperator_follows (hself : self.Blind ρ m m') {op : Operator} :
    Parallel ρ m m' (Option.map ρ.handle) (evalOperator self op nodes scope)
      (evalOperator self op nodes (ρ scope)) := by
  refine .bind (evalOperands_follows hself nodes []) fun operands => ?_
  cases operands with
  | none => exact .pure rfl
  | some reversed =>
    simp only [Option.map_some, ← List.map_reverse]
    refine attempt_bind_follows (calculate_follows reversed.reverse) (fun x => ?_) fun f f' hf => ?_
    · exact (releaseOperands_follows (some x) reversed.reverse).bind fun _ => .pure rfl
    · exact (releaseOperands_follows none reversed.reverse).bind fun _ =>
        .bind (g := ρ.handle) (throw_follows hf) fun _ => .pure rfl

-- Both arrays can be filled all along.
theorem pushItems_agrees (hself : self.Blind ρ m m') (items : List Node) {array : VarId}
    (hr : r.Twins ρ m m' r') (hopen : r.heap.Open array) (hopen' : r'.heap.Open (ρ array)) :
    Agrees ρ m m' (Option.map ρ.handle) (pushItems self scope array items)
      (pushItems self (ρ scope) (ρ array) items) r r' := by
  induction items generalizing r r' with
  | nil => exact ⟨rfl, hr⟩
  | cons item rest ih =>
    have hvalue : ∀ {s : Run} {sc : ScopeId} {cleanup : Exec Unit}, s.Fine →
        Ensures (onFailure (self.eval item sc) cleanup) s (Evaluated s) fun _ _ => True := by
      intro s sc cleanup hf
      refine onFailure_iff.mpr ((hself.orderly.eval hf).mono (fun _ _ h => h) fun e s' _ => ?_)
      cases e with
      | failure f => exact .trivially
      | outOfFuel => trivial
    unfold pushItems
    refine Agree.bind ((onFailure_follows (hself.eval item scope) release_follows r r' hr).given
      (hvalue hr.fine) (hvalue hr.fine')) ?_
    rintro (_ | value) _ s s' ⟨⟨rfl, hs⟩, hv, hv'⟩
    · refine Follows.bind release_follows (fun _ => ?_) s s' hs
      exact .pure rfl
    refine Agree.bind ((own_follows s s' hs).given (own_beside hr.fine hv.1 hv.2 hopen)
      (own_beside hr.fine' hv'.1 hv'.2 hopen')) ?_
    rintro y _ t t' ⟨⟨rfl, ht⟩, ⟨-, hd, ho, hne⟩, -, hd', ho', hne'⟩
    have hpush := pushElement_still ht.fine ho hd hne
    have hpush' := pushElement_still ht.fine' ho' hd' hne'
    have hready : ∀ {s : Run} {a y : VarId}, Ensures (onHeap (Heap.pushElement a y)) s
        (fun _ s' => Still (fun K => ¬K a ∧ ¬K y) s s' ∧ s'.heap.Open a) (fun _ _ => False) →
        Heap.Succeeds (Heap.pushElement a y) s.heap := fun h =>
      (onHeap_iff.mp h).mono (fun _ _ _ => trivial) fun _ _ he => he
    have hagree := onHeap_agrees ht
      (Heap.pushElement_agrees ht.store.heap (hready hpush) (hready hpush'))
      (hpush.mono (fun _ _ h => h.1.steady) fun _ _ => False.elim)
      (hpush'.mono (fun _ _ h => h.1.steady) fun _ _ => False.elim)
    refine Agree.bind (hagree.given hpush hpush') ?_
    rintro _ _ u u' ⟨⟨-, hu⟩, ⟨-, ho⟩, -, ho'⟩
    exact ih hu ho ho'

theorem buildArray_follows (hself : self.Blind ρ m m') :
    Parallel ρ m m' (Option.map ρ.handle) (buildArray self nodes scope)
      (buildArray self nodes (ρ scope)) := by
  intro r r' hr
  refine Agree.bind ((alloc_follows (p := .array #[]) rfl nofun r r' hr).given (alloc_open hr.fine)
    (alloc_open hr.fine')) ?_
  rintro x _ s s' ⟨⟨rfl, hs⟩, ⟨-, -, ho⟩, -, -, ho'⟩
  exact pushItems_agrees hself nodes hs ho ho'

theorem freshCall_agrees {f : Function} {args : Arguments} (hself : self.Blind ρ m m')
    (hr : r.Twins ρ m m' r') (hargs : args.Bound r) :
    Agrees ρ m m' (Flow.rename ρ) (withFreshFlow (self.call f args scope))
      (withFreshFlow (self.call f (args.rename ρ) (ρ scope))) r r' :=
  withFreshFlow_agree hr (hself.call (hr.withFlow rfl) hargs)

theorem evalCall_follows (hself : self.Blind ρ m m') :
    Parallel ρ m m' (Option.map ρ.handle) (evalCall self node scope)
      (evalCall self node (ρ scope)) := by
  unfold evalCall
  split
  swap
  · exact fail_follows rfl
  split
  · exact fail_follows rfl
  refine get_bind_follows fun {r r'} hr => ?_
  rw [Scopes.findFunction_mirrors hr.nested hr.store.scopes]
  rcases r.machine.store.scopes.findFunction scope _ with _ | f
  · exact fail_follows rfl r r' hr
  refine Agree.next (freshCall_agrees hself hr (show (Arguments.nodes _).Bound r from trivial))
    fun ended => .ite .rfl (fun _ => ?_) fun _ => ?_
  · refine (setKind_follows .exiting).bind fun _ => ?_
    exact (setResults_follows ended.result).bind fun _ => .pure rfl
  · simp only [Flow.rename]
    cases ended.result with
    | some x => exact .pure rfl
    | none => exact allocNull_follows

theorem evalNode_follows (hself : self.Blind ρ m m') :
    Parallel ρ m m' (Option.map ρ.handle) (evalNode self node scope)
      (evalNode self node (ρ scope)) := by
  unfold evalNode
  split
  · exact .bind evalSingle_follows fun _ => .pure rfl
  · unfold evalExpression
    split
    · exact (alloc_follows (p := .numeric 1.0) rfl (by simp)).bind fun _ => .pure rfl
    split
    · exact fail_follows rfl
    refine located_follows ?_
    split
    · exact evalItems_follows hself _ none
    · exact buildArray_follows hself
    · exact evalCall_follows hself
    · exact evalOperator_follows hself
  · exact fail_follows rfl

end Interpreter

end FinLang

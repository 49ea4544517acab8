import FinLang.Proofs.Machine.Constants

namespace FinLang

-- An interpreter whose constructs leave the constants alone.
structure Interpreter.Guarding (o : Outset) (i : Interpreter) : Prop where
  eval : ∀ node scope, Keeping o (i.eval node scope)
  exec : ∀ node scope, Keeping o (i.exec node scope)
  call : ∀ {r f args caller}, r.Secure o → args.Bound r → args.Spares o →
    Ensures (i.call f args caller) r (fun _ r' => r'.Secure o) fun _ r' => r'.Secure o

variable {α : Type} {o : Outset} {ok : Point → Run → Bool} {n scope caller : ScopeId} {r r' : Run}
  {x : VarId} {self : Interpreter} {node : Node} {list : List Node}

namespace Interpreter

open Exec

section Expressions

theorem allocNull_keeping : Keeping o allocNull :=
  (Keeping.alloc (p := .null) rfl nofun).bind fun _ => .pure

theorem evalSingle_keeping : Keeping o (evalSingle node scope) := by
  unfold evalSingle
  split
  · exact .fail
  split
  · exact .alloc rfl nofun
  · exact .alloc rfl nofun
  · exact .alloc rfl nofun
  · refine .bind Keeping.get fun _ => ?_
    split
    · exact .pure
    · exact .located .fail
  · exact .located .fail

theorem evalItems_keeping (hself : self.Guarding o) (items : List Node) {last : Option VarId} :
    Keeping o (evalItems self scope last items) := by
  have hrelease : ∀ last : Option VarId, Keeping o (last.forM release) := fun _ =>
    .forM_option fun _ => .release
  induction items generalizing last with
  | nil =>
    unfold evalItems
    cases last with
    | some x => exact .pure
    | none => exact allocNull_keeping
  | cons item rest ih =>
    unfold evalItems
    refine ((hself.eval item scope).onFailure (hrelease last)).bind fun value => ?_
    cases value with
    | some x =>
      dsimp only
      split
      · exact (hrelease last).bind fun _ => ih
      · exact ih
    | none =>
      dsimp only
      split
      · exact (hrelease last).bind fun _ => .pure
      · exact .pure

theorem evalOperands_keeping (hself : self.Guarding o) (nodes : List Node) {operands : List VarId} :
    Keeping o (evalOperands self scope operands nodes) := by
  induction nodes generalizing operands with
  | nil => exact .pure
  | cons node rest ih =>
    unfold evalOperands
    refine ((hself.eval node scope).onFailure .releaseAll).bind fun value => ?_
    cases value with
    | some x => exact .bind Keeping.flow fun _ => .bind Keeping.ofExcept fun _ => ih
    | none => exact .bind Keeping.releaseAll fun _ => .pure

theorem evalOperator_keeping (hself : self.Guarding o) {op : Operator} :
    Keeping o (evalOperator self op list scope) := by
  refine (evalOperands_keeping hself list).bind fun operands => ?_
  cases operands with
  | none => exact .pure
  | some reversed =>
    refine .bind (.attempt Keeping.calculate) fun result => ?_
    refine Keeping.bind (.forM (fun id => ?_) _) fun _ => .bind Keeping.ofExcept fun _ => .pure
    split
    · exact .pure
    · exact .release

-- The array that is being filled stays a temporary of its own.
theorem pushItems_keeping (hself : self.Guarding o) (horder : self.Orderly ok) (items : List Node)
    {array : VarId} (hr : r.Secure o) (hopen : r.heap.Open array) :
    Ensures (pushItems self scope array items) r (fun _ r' => r'.Secure o)
      fun _ r' => r'.Secure o := by
  induction items generalizing r with
  | nil => exact hr
  | cons item rest ih =>
    unfold pushItems
    rw [Ensures.bind_iff, onFailure_iff]
    refine ((hself.eval item scope r hr).and (horder.eval hr.fine)).mono ?_ ?_
    · rintro (_ | value) r₁ ⟨hr₁, hv⟩
      · exact Keeping.bind .release (fun _ => .pure) r₁ hr₁
      obtain ⟨hq₁, hvalue⟩ := hv
      rw [Ensures.bind_iff]
      refine ((Keeping.own r₁ hr₁).and (own_beside hr.fine hq₁ hvalue hopen)).mono ?_
        fun _ _ he => he.1
      rintro y r₂ ⟨hr₂, -, hd, hopen₂, hne⟩
      have hopen₂' : r₂.heap.Open array := hopen₂
      obtain ⟨v, hv, ho, -⟩ := hopen₂
      rw [Ensures.bind_iff, onHeap_iff]
      refine (Heap.pushElement_ensures hr₂.fine.sound.heap hr₂.closed hopen₂'
        (hr₂.not_fixed ⟨v, hv, ho⟩) hd (hr₂.not_fixed hd) hne).mono ?_ fun _ _ he => he
      rintro _ h ⟨hstep, hopen₃, -⟩
      exact ih (hr₂.of_step hstep) hopen₃
    · rintro (f | _) r' ⟨hr', -⟩
      · exact Keeping.release r' hr'
      · exact hr'

theorem buildArray_keeping (hself : self.Guarding o) (horder : self.Orderly ok) :
    Keeping o (buildArray self list scope) := by
  intro r hr
  rw [buildArray, Ensures.bind_iff]
  have halloc : Keeping o (onHeap (Heap.alloc (.array #[]))) := .alloc rfl (by simp)
  refine ((halloc r hr).and (alloc_open hr.fine)).mono ?_ fun _ _ he => he.1
  rintro array r₁ ⟨hr₁, -, -, hopen⟩
  exact pushItems_keeping hself horder list hr₁ hopen

-- A call with a flow of its own.
theorem freshCall_secure {f : Function} {args : Arguments} (hself : self.Guarding o)
    (hr : r.Secure o) (hargs : args.Bound r) (hspares : args.Spares o) :
    Ensures (withFreshFlow (self.call f args scope)) r (fun _ r' => r'.Secure o)
      fun _ r' => r'.Secure o := by
  have hstart : Run.Secure o { r with flow := .start } := ⟨⟨hr.fine.sound, hr.fine.depth⟩, hr.lasts⟩
  have hback : ∀ {r' : Run}, r'.Secure o → Run.Secure o { r' with flow := r.flow } := fun hr' =>
    ⟨⟨hr'.fine.sound, hr'.fine.depth⟩, hr'.lasts⟩
  refine withFreshFlow_ensures ((hself.call hstart hargs hspares).mono (fun _ _ hr' => hback hr') ?_)
  rintro (f | _) r' hr'
  · exact hback hr'
  · exact hr'

theorem evalCall_keeping (hself : self.Guarding o) : Keeping o (evalCall self node scope) := by
  unfold evalCall
  split
  swap
  · exact .fail
  split
  · exact .fail
  refine .bind Keeping.get fun _ => ?_
  split
  · exact .fail
  rename_i f _
  have hcall : ∀ nodes, Keeping o (withFreshFlow (self.call f (.nodes nodes) scope)) :=
    fun _ _ hr => freshCall_secure hself hr trivial trivial
  refine (hcall _).bind fun ended => ?_
  split
  · exact Keeping.setKind.bind fun _ => (Keeping.forM_option fun _ => .setResult).bind fun _ => .pure
  · cases ended.result with
    | some x => exact .pure
    | none => exact allocNull_keeping

theorem evalNode_keeping (hself : self.Guarding o) (horder : self.Orderly ok) :
    Keeping o (evalNode self node scope) := by
  unfold evalNode
  split
  · exact .bind evalSingle_keeping fun _ => .pure
  · unfold evalExpression
    split
    · exact (Keeping.alloc (p := .numeric 1.0) rfl nofun).bind fun _ => .pure
    split
    · exact .fail
    refine Keeping.located ?_
    split
    · exact evalItems_keeping hself _
    · exact buildArray_keeping hself horder
    · exact evalCall_keeping hself
    · exact evalOperator_keeping hself
  · exact .fail

end Expressions

section Statements

theorem runStraight_keeping {statement : Node → Exec Unit} (hs : ∀ node, Keeping o (statement node)) :
    Keeping o (runStraight statement list) := by
  induction list with
  | nil => exact .pure
  | cons node rest ih =>
    unfold runStraight
    refine (hs node).bind fun _ => Keeping.isNext.bind fun next => ?_
    split
    · exact ih
    · exact .pure

theorem runFrom_keeping {statement : Node → Exec Unit} (hs : ∀ node, Keeping o (statement node))
    (fuel : Nat) {rest : List Node} : Keeping o (runFrom statement list fuel rest) := by
  induction fuel generalizing rest with
  | zero => exact .outOfFuel
  | succ fuel ih =>
    unfold runFrom
    refine (runStraight_keeping hs).bind fun left => ?_
    split
    · refine .bind Keeping.flow fun f => ?_
      split
      · split
        · exact Keeping.setKind.bind fun _ => ih
        · exact Keeping.setKind.bind fun _ => .fail
      · exact .pure
    · exact .pure

theorem runList_keeping (hself : self.Guarding o) (fuel : Nat) :
    Keeping o (runList self fuel list scope) :=
  runFrom_keeping (fun node => hself.exec node scope) fuel

theorem discardAll_keeping (hself : self.Guarding o) : Keeping o (discardAll self scope list) := by
  induction list with
  | nil => exact .pure
  | cons node rest ih =>
    unfold discardAll
    refine (hself.eval node scope).bind fun value => ?_
    cases value with
    | none => exact .pure
    | some x => exact .bind Keeping.release fun _ => ih

theorem execStatement_keeping (hself : self.Guarding o) (fuel : Nat) :
    Keeping o (execStatement self fuel node scope) := by
  unfold execStatement
  split
  · exact withScope_keeping fun _ _ => runList_keeping hself fuel
  split
  · exact discardAll_keeping hself
  · exact runList_keeping hself fuel

theorem execProgram_keeping (hself : self.Guarding o) (fuel : Nat) :
    Keeping o (execProgram self fuel node scope) :=
  withScope_keeping fun _ _ => (runList_keeping hself fuel).bind fun _ => .leaveBody

theorem declareAll_keeping (hself : self.Guarding o) : Keeping o (declareAll self scope list) := by
  induction list with
  | nil => exact .pure
  | cons node rest ih =>
    unfold declareAll
    refine .bind Keeping.ofExcept fun declared => ?_
    obtain ⟨name, init⟩ := declared
    cases init with
    | none => exact null_declare_keeping ih
    | some e =>
      refine (hself.eval e scope).bind fun value => ?_
      cases value with
      | none => exact .pure
      | some x => exact own_declare_keeping ih

theorem defineFunction_keeping : Keeping o (defineFunction node scope) :=
  .bind Keeping.ofExcept fun _ => addFunction_keeping

theorem evalCondition_keeping (hself : self.Guarding o) : Keeping o (evalCondition self node scope) := by
  refine (hself.eval node scope).bind fun value => ?_
  cases value with
  | none => exact .pure
  | some x =>
    exact .bind Keeping.get fun _ => .bind Keeping.release fun _ => .bind Keeping.ofExcept fun _ => .pure

theorem execBranches_keeping (hself : self.Guarding o) : Keeping o (execBranches self scope list) := by
  induction list using execBranches.induct with
  | case1 => exact .pure
  | case2 => exact .fail
  | case3 condition body rest ih =>
    unfold execBranches
    refine (evalCondition_keeping hself).bind fun holds => ?_
    rcases holds with _ | _ | _
    · exact .pure
    · exact ih
    · exact hself.exec body scope

theorem continues_keeping (hself : self.Guarding o) : Keeping o (continues self node scope) := by
  unfold continues
  split
  · exact .pure
  · exact evalCondition_keeping hself

theorem execBody_keeping (hself : self.Guarding o) : Keeping o (execBody self node scope) := by
  refine (hself.exec node scope).bind fun _ => .bind Keeping.flow fun f => ?_
  split
  · exact .pure
  · exact Keeping.setKind.bind fun _ => .pure
  · exact Keeping.setKind.bind fun _ => .pure
  · exact .pure

theorem iterate_keeping {condition body : Node} {step : Option Node} (hself : self.Guarding o)
    (fuel : Nat) : Keeping o (iterate self condition body step scope fuel) := by
  induction fuel with
  | zero => exact .outOfFuel
  | succ fuel ih =>
    unfold iterate
    refine (continues_keeping hself).bind fun more => ?_
    split
    · refine (execBody_keeping hself).bind fun again => ?_
      split
      · cases step with
        | none => exact ih
        | some node =>
          refine (hself.exec node scope).bind fun _ => Keeping.isNext.bind fun next => ?_
          split
          · exact ih
          · exact .pure
      · exact .pure
    · exact .pure

theorem execLoop_keeping (hself : self.Guarding o) (fuel : Nat) :
    Keeping o (execLoop self fuel node scope) := by
  unfold execLoop
  split
  · refine withScope_keeping fun inner _ => .bind Keeping.ofExcept fun parts => ?_
    cases parts.start with
    | none => exact iterate_keeping hself fuel
    | some start =>
      refine (hself.exec start inner).bind fun _ => Keeping.isNext.bind fun next => ?_
      split
      · exact iterate_keeping hself fuel
      · exact .pure
  · exact .fail

theorem execLeave_keeping {kind : FlowKind} (hself : self.Guarding o) :
    Keeping o (execLeave self node kind scope) := by
  unfold execLeave
  split
  · exact .setKind
  · refine (hself.eval _ scope).bind fun value => ?_
    cases value with
    | none => exact .pure
    | some x => exact Keeping.setResult.bind fun _ => .setKind

theorem execJump_keeping (hself : self.Guarding o) : Keeping o (execJump self node scope) := by
  unfold execJump
  split
  · split
    · exact .setKind
    · exact .fail
  · exact execLeave_keeping hself
  · exact execLeave_keeping hself
  · exact .setKind
  · exact .setKind
  · exact .fail

theorem execBare_keeping (hself : self.Guarding o) : Keeping o (execBare self node scope) := by
  refine (hself.eval node scope).bind fun value => ?_
  cases value with
  | none => exact .pure
  | some x => exact Keeping.release.located

theorem execNode_keeping (hself : self.Guarding o) (fuel : Nat) :
    Keeping o (execNode self fuel node scope) := by
  unfold execNode
  split
  · exact (execStatement_keeping hself fuel).located
  · exact (declareAll_keeping hself).located
  · exact .located defineFunction_keeping
  · exact (execBranches_keeping hself).located
  · exact (execLoop_keeping hself fuel).located
  · exact .pure
  · exact (execJump_keeping hself).located
  · exact (execProgram_keeping hself fuel).located
  · exact execBare_keeping hself
  · exact execBare_keeping hself

end Statements

end Interpreter

end FinLang

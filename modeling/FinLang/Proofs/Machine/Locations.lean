import FinLang.Proofs.Machine.Located

namespace FinLang

namespace Node.Inside

variable {size : Nat}

mutual

theorem span? : ∀ {n : Node}, n.Inside size → ∀ s ∈ n.span?, s.Inside size
  | ⟨_, some t, _⟩, h, s, hs => by
    rw [Node.span?] at hs
    cases hs
    exact h.span rfl
  | ⟨_, none, children⟩, h, s, hs => by
    rw [Node.span?] at hs
    exact firstSpan? (fun c hc => h.child hc) s hs

theorem firstSpan? : ∀ {ns : List Node}, (∀ n ∈ ns, n.Inside size) →
    ∀ s ∈ Node.firstSpan? ns, s.Inside size
  | [], _, _, hs => nomatch hs
  | n :: ns, h, s, hs => by
    rw [Node.firstSpan?] at hs
    rcases hn : n.span? with _ | t
    · rw [hn] at hs
      exact firstSpan? (fun c hc => h c (.tail _ hc)) s hs
    · rw [hn] at hs
      cases hs
      exact span? (h n (.head _)) _ hn

end

end Node.Inside

def Arguments.Inside (size : Nat) : Arguments → Prop
  | .nodes ns => ∀ n ∈ ns, n.Inside size
  | .values _ => True

structure Interpreter.Mindful (size : Nat) (i : Interpreter) : Prop where
  eval : ∀ {n : Node} {scope}, n.Inside size → FinLang.Mindful size (i.eval n scope)
  exec : ∀ {n : Node} {scope}, n.Inside size → FinLang.Mindful size (i.exec n scope)
  call : ∀ {f : Function} {args : Arguments} {scope}, f.Inside size → args.Inside size →
    FinLang.Mindful size (i.call f args scope)

namespace Interpreter

open Careful

variable {size : Nat} {self : Interpreter} {node : Node} {scope : ScopeId} {nodes : List Node}

section Expressions

theorem allocNull_mindful : FinLang.Mindful size allocNull :=
  (onHeap (.lift _)).bind fun _ _ => pure trivial

theorem evalSingle_mindful (hn : node.Inside size) : FinLang.Mindful size (evalSingle node scope) := by
  unfold evalSingle
  split
  · exact fail _
  · rename_i token htoken
    have hspan : ∀ s ∈ some token.span, s.Inside size := fun s hs => by
      cases hs
      exact hn.span htoken
    split
    · exact onHeap (.lift _)
    · exact onHeap (.lift _)
    · exact onHeap (.lift _)
    · refine .bind Careful.get fun r _ => ?_
      split
      · exact pure trivial
      · exact located hspan (fail _)
    · exact located hspan (fail _)

theorem evalItems_mindful (hself : self.Mindful size) (hn : ∀ n ∈ nodes, n.Inside size)
    (last : Option VarId) : FinLang.Mindful size (evalItems self scope last nodes) := by
  induction nodes generalizing last with
  | nil =>
    unfold evalItems
    cases last with
    | none => exact allocNull_mindful
    | some id => exact pure trivial
  | cons n rest ih =>
    have hlast : FinLang.Mindful size (last.forM Exec.release) := optionForM (fun _ => release) _
    refine (onFailure (hself.eval (hn n (.head _))) hlast).bind fun value _ => ?_
    rcases value with _ | id
    · simp only
      split
      · exact hlast.bind fun _ _ => pure trivial
      · exact pure trivial
    · have hrest := ih (fun c hc => hn c (.tail _ hc)) (some id)
      simp only
      split
      · exact hlast.bind fun _ _ => hrest
      · exact hrest

theorem pushItems_mindful (hself : self.Mindful size) (hn : ∀ n ∈ nodes, n.Inside size) (array : VarId) :
    FinLang.Mindful size (pushItems self scope array nodes) := by
  induction nodes with
  | nil => exact pure trivial
  | cons n rest ih =>
    refine (onFailure (hself.eval (hn n (.head _))) release).bind fun value _ => ?_
    cases value with
    | none => exact release.bind fun _ _ => pure trivial
    | some value =>
      exact own.bind fun _ _ => (onHeap Heap.pushElement_placeless).bind fun _ _ =>
        ih fun c hc => hn c (.tail _ hc)

theorem buildArray_mindful (hself : self.Mindful size) (hn : ∀ n ∈ nodes, n.Inside size) :
    FinLang.Mindful size (buildArray self nodes scope) :=
  (onHeap (.lift _)).bind fun array _ => pushItems_mindful hself hn array

theorem insideExpression_bare {f : Flow} : Bare f.insideExpression := by
  unfold Flow.insideExpression
  split <;> first | exact .ok _ | exact .error _

theorem evalOperands_mindful (hself : self.Mindful size) (hn : ∀ n ∈ nodes, n.Inside size)
    (operands : List VarId) : FinLang.Mindful size (evalOperands self scope operands nodes) := by
  induction nodes generalizing operands with
  | nil => exact pure trivial
  | cons n rest ih =>
    have hrelease : FinLang.Mindful size (Exec.onHeap (Heap.releaseAll operands.reverse)) :=
      onHeap Heap.releaseAll_placeless
    refine (onFailure (hself.eval (hn n (.head _))) hrelease).bind fun value _ => ?_
    cases value with
    | none => exact hrelease.bind fun _ _ => pure trivial
    | some value =>
      exact flow.bind fun _ _ => (ofBare insideExpression_bare fun _ _ => trivial).bind
        fun _ (_ : True) => ih (fun c hc => hn c (.tail _ hc)) _

theorem evalOperator_mindful (hself : self.Mindful size) (hn : ∀ n ∈ nodes, n.Inside size)
    {op : Operator} : FinLang.Mindful size (evalOperator self op nodes scope) := by
  refine (evalOperands_mindful hself hn []).bind fun operands _ => ?_
  cases operands with
  | none => exact pure trivial
  | some operands =>
    refine (onHeap Operation.calculate_placeless).attempt.bind fun result hresult =>
      (forM (fun id => ?_) _).bind fun _ _ =>
        (ofExcept hresult.2 fun _ _ => trivial).bind fun _ (_ : True) => pure trivial
    split
    · exact pure trivial
    · exact release

theorem evalCall_mindful (hself : self.Mindful size) (hn : node.Inside size) :
    FinLang.Mindful size (evalCall self node scope) := by
  unfold evalCall
  split
  · rename_i callee args hchildren
    have hargs : args.Inside size := hn.child (by simp [hchildren])
    split
    · exact fail _
    · refine .bind Careful.get fun r hr => ?_
      split
      · exact fail _
      · rename_i f hf
        have hnodes : (Arguments.nodes args.children).Inside size := fun _ hc => hargs.child hc
        refine (withFreshFlow (hself.call (hr.find hf) hnodes)).bind fun ended _ => ?_
        split
        · exact setKind.bind fun _ _ => (optionForM (fun _ => setResult) _).bind fun _ _ =>
            pure trivial
        · split
          · exact pure trivial
          · exact allocNull_mindful
  · exact fail _

theorem evalNode_mindful (hself : self.Mindful size) (hn : node.Inside size) :
    FinLang.Mindful size (evalNode self node scope) := by
  have hchildren : ∀ c ∈ node.children, c.Inside size := fun c hc => hn.child hc
  unfold evalNode
  split
  · exact (evalSingle_mindful hn).bind fun _ _ => pure trivial
  · unfold evalExpression
    split
    · exact (onHeap (.lift _)).bind fun _ _ => pure trivial
    · rename_i token htoken
      split
      · exact fail _
      · refine located (fun s hs => by cases hs; exact hn.span htoken) ?_
        split
        · exact evalItems_mindful hself hchildren none
        · exact buildArray_mindful hself hchildren
        · exact evalCall_mindful hself hn
        · exact evalOperator_mindful hself hchildren
  · exact fail _

end Expressions

section Statements

variable {statement : Node → Exec Unit} {list : List Node}

theorem runStraight_mindful (hs : ∀ n ∈ nodes, FinLang.Mindful size (statement n)) :
    FinLang.Mindful size (runStraight statement nodes) := by
  induction nodes with
  | nil => exact pure trivial
  | cons n rest ih =>
    refine (hs n (.head _)).bind fun _ _ => .bind Careful.isNext fun next _ => ?_
    split
    · exact ih fun c hc => hs c (.tail _ hc)
    · exact pure trivial

theorem runFrom_mindful (hs : ∀ n ∈ list, FinLang.Mindful size (statement n)) (fuel : Nat)
    (hnodes : ∀ n ∈ nodes, n ∈ list) : FinLang.Mindful size (runFrom statement list fuel nodes) := by
  induction fuel generalizing nodes with
  | zero => exact outOfFuel
  | succ fuel ih =>
    refine (runStraight_mindful fun n hn => hs n (hnodes n hn)).bind fun left _ => ?_
    split
    · refine flow.bind fun fl _ => ?_
      split
      · split
        · rename_i htarget
          exact setKind.bind fun _ _ => ih (mem_of_afterLabel? htarget)
        · exact setKind.bind fun _ _ => fail _
      · exact pure trivial
    · exact pure trivial

theorem runList_mindful (hself : self.Mindful size) (fuel : Nat) (hn : ∀ n ∈ nodes, n.Inside size) :
    FinLang.Mindful size (runList self fuel nodes scope) :=
  runFrom_mindful (fun n h => hself.exec (hn n h)) fuel fun _ h => h

theorem discardAll_mindful (hself : self.Mindful size) (hn : ∀ n ∈ nodes, n.Inside size) :
    FinLang.Mindful size (discardAll self scope nodes) := by
  induction nodes with
  | nil => exact pure trivial
  | cons n rest ih =>
    refine (hself.eval (hn n (.head _))).bind fun value _ => ?_
    cases value with
    | none => exact pure trivial
    | some id => exact release.bind fun _ _ => ih fun c hc => hn c (.tail _ hc)

theorem execStatement_mindful (hself : self.Mindful size) (fuel : Nat)
    (hn : ∀ n ∈ node.children, n.Inside size) :
    FinLang.Mindful size (execStatement self fuel node scope) := by
  unfold execStatement
  split
  · exact withScope fun _ => runList_mindful hself fuel hn
  · split
    · exact discardAll_mindful hself hn
    · exact runList_mindful hself fuel hn

theorem execProgram_mindful (hself : self.Mindful size) (fuel : Nat)
    (hn : ∀ n ∈ node.children, n.Inside size) :
    FinLang.Mindful size (execProgram self fuel node scope) :=
  withScope fun _ => (runList_mindful hself fuel hn).bind fun _ _ => leaveBody

theorem declarator_bare : Bare (declarator node) := by
  unfold declarator
  split
  · exact .ok _
  · split
    · split
      · split
        · exact .ok _
        · exact .error _
      · exact .error _
    · exact .error _

theorem declarator_inside (hn : node.Inside size) {name : String} {e : Node}
    (h : declarator node = .ok (name, some e)) : e.Inside size := by
  unfold declarator at h
  split at h
  · cases h
  · split at h
    · rename_i target init hchildren
      split at h
      · split at h
        · cases h
          exact hn.child (by simp [hchildren])
        · cases h
      · cases h
    · cases h

theorem declareAll_mindful (hself : self.Mindful size) (hn : ∀ n ∈ nodes, n.Inside size) :
    FinLang.Mindful size (declareAll self scope nodes) := by
  induction nodes with
  | nil => exact pure trivial
  | cons n rest ih =>
    have hrest := ih fun c hc => hn c (.tail _ hc)
    refine (ofBare (Q := fun a => declarator n = .ok a) declarator_bare fun _ h => h).bind ?_
    rintro ⟨name, _ | e⟩ hdecl
    · exact (onHeap (.lift _)).bind fun _ _ => (onStore Store.Careful.declare).bind fun _ _ => hrest
    · refine (hself.eval (declarator_inside (hn n (.head _)) hdecl)).bind fun value _ => ?_
      cases value with
      | none => exact pure trivial
      | some value => exact own.bind fun _ _ => (onStore Store.Careful.declare).bind fun _ _ => hrest

theorem parameterNames_bare : Bare (parameterNames nodes) := by
  refine Bare.mapM (fun n => ?_) nodes
  split
  · exact .ok _
  · exact .error _

theorem definition_bare : Bare (definition node) := by
  unfold definition
  split
  · split
    · exact .error _
    · exact .bind parameterNames_bare fun _ => .ok _
  · exact .error _

theorem definition_inside (hn : node.Inside size) {f : Function} (h : definition node = .ok f) :
    f.Inside size := by
  unfold definition at h
  split at h
  · rename_i name params body hchildren
    split at h
    · cases h
    · rcases hparams : parameterNames params.children with e | names
      · rw [hparams] at h
        cases h
      · rw [hparams] at h
        cases h
        intro block hblock
        cases hblock
        exact hn.child (by simp [hchildren])
  · cases h

theorem defineFunction_mindful (hn : node.Inside size) :
    FinLang.Mindful size (defineFunction node scope) :=
  (ofBare (Q := fun f => definition node = .ok f) definition_bare fun _ h => h).bind fun _ hf =>
    onStore (Store.Careful.addFunction (definition_inside hn hf))

theorem evalCondition_mindful (hself : self.Mindful size) (hn : node.Inside size) :
    FinLang.Mindful size (evalCondition self node scope) := by
  refine (hself.eval hn).bind fun value _ => ?_
  cases value with
  | none => exact pure trivial
  | some id =>
    exact .bind Careful.get fun _ _ => release.bind fun _ _ =>
      (ofBare Heap.toBool_bare fun _ _ => trivial).bind fun _ (_ : True) => pure trivial

theorem execBranches_mindful (hself : self.Mindful size) (hn : ∀ n ∈ nodes, n.Inside size) :
    FinLang.Mindful size (execBranches self scope nodes) := by
  fun_induction execBranches self scope nodes with
  | case1 => exact pure trivial
  | case2 => exact fail _
  | case3 condition body rest ih =>
    refine (evalCondition_mindful hself (hn condition (by simp))).bind fun value _ => ?_
    split
    · exact hself.exec (hn body (by simp))
    · exact ih fun c hc => hn c (by simp [hc])
    · exact pure trivial

theorem continues_mindful (hself : self.Mindful size) (hn : node.Inside size) :
    FinLang.Mindful size (continues self node scope) := by
  unfold continues
  split
  · exact pure trivial
  · exact evalCondition_mindful hself hn

theorem execBody_mindful (hself : self.Mindful size) (hn : node.Inside size) :
    FinLang.Mindful size (execBody self node scope) := by
  refine (hself.exec hn).bind fun _ _ => flow.bind fun fl _ => ?_
  split
  · exact pure trivial
  · exact setKind.bind fun _ _ => pure trivial
  · exact setKind.bind fun _ _ => pure trivial
  · exact pure trivial

theorem iterate_mindful (hself : self.Mindful size) {condition body : Node} {step : Option Node}
    (hcondition : condition.Inside size) (hbody : body.Inside size) (hstep : ∀ n ∈ step, n.Inside size)
    (fuel : Nat) : FinLang.Mindful size (iterate self condition body step scope fuel) := by
  induction fuel with
  | zero => exact outOfFuel
  | succ fuel ih =>
    refine (continues_mindful hself hcondition).bind fun _ _ => ?_
    split
    · refine (execBody_mindful hself hbody).bind fun _ _ => ?_
      split
      · cases step with
        | none => exact ih
        | some n =>
          refine (hself.exec (hstep n rfl)).bind fun _ _ => .bind Careful.isNext fun _ _ => ?_
          split
          · exact ih
          · exact pure trivial
      · exact pure trivial
    · exact pure trivial

-- The parts of a loop's head are parts of the loop.
structure LoopHead.Inside (size : Nat) (head : LoopHead) : Prop where
  start : ∀ n ∈ head.start, n.Inside size
  condition : head.condition.Inside size
  step : ∀ n ∈ head.step, n.Inside size

theorem loopHead_bare {word : Option Keyword} : Bare (loopHead word node) := by
  unfold loopHead
  split
  · split
    · exact .ok _
    · exact .error _
  · exact .ok _
  · exact .error _

theorem loopHead_inside {word : Option Keyword} {parts : LoopHead} (hn : node.Inside size)
    (h : loopHead word node = .ok parts) : parts.Inside size := by
  unfold loopHead at h
  split at h
  · split at h
    · rename_i start condition step hchildren
      cases h
      refine ⟨fun n hs => ?_, hn.child (by simp [hchildren]), fun n hs => ?_⟩
      · cases hs
        exact hn.child (by simp [hchildren])
      · cases hs
        exact hn.child (by simp [hchildren])
    · cases h
  · cases h
    exact ⟨nofun, hn, nofun⟩
  · cases h

theorem execLoop_mindful (hself : self.Mindful size) (fuel : Nat)
    (hn : ∀ n ∈ node.children, n.Inside size) :
    FinLang.Mindful size (execLoop self fuel node scope) := by
  unfold execLoop
  split
  · rename_i head body hchildren
    have hhead : head.Inside size := hn head (by simp [hchildren])
    have hbody : body.Inside size := hn body (by simp [hchildren])
    refine withScope fun inner => ?_
    refine (ofBare (Q := fun parts => loopHead node.keyword? head = .ok parts) loopHead_bare
      fun _ h => h).bind fun parts hparts => ?_
    obtain ⟨hstart, hcondition, hstep⟩ := loopHead_inside hhead hparts
    split
    · exact iterate_mindful hself hcondition hbody hstep fuel
    · rename_i start heq
      refine (hself.exec (hstart start heq)).bind fun _ _ => .bind Careful.isNext fun _ _ => ?_
      split
      · exact iterate_mindful hself hcondition hbody hstep fuel
      · exact pure trivial
  · exact fail _

theorem execLeave_mindful (hself : self.Mindful size) (hn : ∀ n ∈ node.children, n.Inside size)
    {kind : FlowKind} : FinLang.Mindful size (execLeave self node kind scope) := by
  unfold execLeave
  split
  · exact setKind
  · rename_i operand rest hchildren
    refine (hself.eval (hn operand (by simp [hchildren]))).bind fun value _ => ?_
    cases value with
    | none => exact pure trivial
    | some id => exact setResult.bind fun _ _ => setKind

theorem execJump_mindful (hself : self.Mindful size) (hn : ∀ n ∈ node.children, n.Inside size) :
    FinLang.Mindful size (execJump self node scope) := by
  unfold execJump
  split
  · split
    · exact setKind
    · exact fail _
  · exact execLeave_mindful hself hn
  · exact execLeave_mindful hself hn
  · exact setKind
  · exact setKind
  · exact fail _

-- What a node of the given kind does, apart from placing its failures.
theorem execNode_mindful (hself : self.Mindful size) (fuel : Nat) (hn : node.Inside size) :
    FinLang.Mindful size (execNode self fuel node scope) := by
  have hchildren : ∀ c ∈ node.children, c.Inside size := fun c hc => hn.child hc
  have hspan := hn.span?
  have hbare : FinLang.Mindful size (execBare self node scope) := by
    refine (hself.eval hn).bind fun value _ => ?_
    cases value with
    | none => exact pure trivial
    | some id => exact located hspan release
  unfold execNode
  split
  · exact located hspan (execStatement_mindful hself fuel hchildren)
  · exact located hspan (declareAll_mindful hself hchildren)
  · exact located hspan (defineFunction_mindful hn)
  · exact located hspan (execBranches_mindful hself hchildren)
  · exact located hspan (execLoop_mindful hself fuel hchildren)
  · exact pure trivial
  · exact located hspan (execJump_mindful hself hchildren)
  · exact located hspan (execProgram_mindful hself fuel hchildren)
  · exact hbare
  · exact hbare

end Statements

end Interpreter

namespace Library

open Careful

variable {size : Nat} {self : Interpreter} {scope : ScopeId} {name : String}

theorem argument_mindful : Mindful size (argument scope name) := by
  refine readScope.bind fun sc _ => ?_
  split
  · exact pure trivial
  · exact fail _

theorem finish_mindful {result : Option VarId} : Mindful size (finish result) :=
  setKind.bind fun _ _ => optionForM (fun _ => setResult) _

theorem finishWith_mindful {p : Payload} : Mindful size (finishWith p) :=
  (onHeap (.lift _)).bind fun _ _ => finish_mindful

theorem callingScope_mindful : Mindful size (callingScope scope) :=
  readScope.bind fun _ _ => .bind Careful.get fun _ _ => pure trivial

theorem print_mindful : Mindful size (print scope) := by
  refine readScope.bind fun _ _ => (mapM (fun _ => readHeap fun _ => Heap.toValue_bare) _).bind
    fun _ _ => (modifyMachine fun m => ?_).bind fun _ _ => finish_mindful
  unfold Machine.emit
  split <;> rfl

theorem lengthOf_bare {p : Payload} : Bare (lengthOf p) := by
  cases p <;> first | exact .ok _ | exact .error _

theorem extArgCount_mindful : Mindful size (extArgCount scope) := by
  refine .bind callingScope_mindful fun outer _ => ?_
  cases outer with
  | none => exact (pure (Q := fun _ => True) trivial).bind fun _ _ => finishWith_mindful
  | some outer =>
    exact readScope.bind fun _ _ => (pure (Q := fun _ => True) trivial).bind fun _ _ =>
      finishWith_mindful

theorem extArg_mindful : Mindful size (extArg scope) := by
  refine .bind argument_mindful fun _ _ => (readHeap fun _ => Heap.numeric_bare).bind fun x _ => ?_
  split
  · exact fail _
  · refine .bind callingScope_mindful fun outer _ => ?_
    cases outer with
    | none => exact fail _
    | some outer =>
      refine readScope.bind fun sc _ => ?_
      split
      · exact finish_mindful
      · exact fail _

theorem call_mindful (hself : self.Mindful size) : Mindful size (call self scope) := by
  refine .bind argument_mindful fun _ _ => (readHeap fun _ => Heap.string_bare).bind fun name _ =>
    .bind Careful.get fun r hr => ?_
  split
  · exact fail _
  · rename_i f hf
    refine readScope.bind fun sc _ => ?_
    have hargs : (Arguments.values (extArgs sc)).Inside size := trivial
    refine (withFreshFlow (hself.call (hr.find hf) hargs)).bind fun ended _ => ?_
    split
    · exact (optionForM (fun _ => setResult) _).bind fun _ _ => setKind
    · exact finish_mindful

theorem imageSide_mindful : Mindful size (imageSide scope name) := by
  refine .bind argument_mindful fun _ _ => (readHeap fun _ => Heap.numeric_bare).bind fun x _ => ?_
  split
  · split
    · exact fail _
    · exact pure trivial
  · exact fail _

theorem image_mindful : Mindful size (image scope) := by
  refine .bind imageSide_mindful fun width _ => .bind imageSide_mindful fun height _ => ?_
  split
  · exact (fail _).bind fun _ (_ : True) => finishWith_mindful
  · exact finishWith_mindful

theorem apply_bare {f : MathFunction} {x : Float} : Bare (f.apply x) := by
  unfold MathFunction.apply
  split
  case h_1 | h_2 =>
    split
    · exact .error _
    · exact .ok _
  all_goals exact .ok _

theorem run_mindful (hself : self.Mindful size) (n : Native) : Mindful size (run self scope n) := by
  cases n with
  | print => exact print_mindful
  | len =>
    exact .bind argument_mindful fun _ _ => (readHeap fun _ => Heap.payload_bare.bind fun _ =>
      lengthOf_bare).bind fun _ _ => finishWith_mindful
  | typeOf =>
    exact .bind argument_mindful fun _ _ => (readHeap fun _ => Heap.varType_bare).bind fun _ _ =>
      finishWith_mindful
  | extArgCount => exact extArgCount_mindful
  | extArg => exact extArg_mindful
  | call => exact call_mindful hself
  | callDepth => exact .bind Careful.get fun _ _ => finishWith_mindful
  | image => exact image_mindful
  | math f =>
    exact .bind argument_mindful fun _ _ => (readHeap fun _ => Heap.numeric_bare).bind fun _ _ =>
      (ofBare apply_bare fun _ _ => trivial).bind fun _ (_ : True) => finishWith_mindful
  | signal kind => exact setKind

end Library

namespace Interpreter

open Careful

variable {size : Nat} {self : Interpreter} {scope caller : ScopeId} {nodes : List Node}
  {params : List String} {f : Function} {args : Arguments}

theorem declareIn_mindful {name : String} {id : VarId} : FinLang.Mindful size (declareIn scope name id) :=
  onStore Store.Careful.declare

theorem bindNodes_mindful (hself : self.Mindful size) (hn : ∀ n ∈ nodes, n.Inside size) (index : Nat) :
    FinLang.Mindful size (bindNodes self params caller scope index nodes) := by
  induction nodes generalizing index with
  | nil => exact pure trivial
  | cons n rest ih =>
    refine (hself.eval (hn n (.head _))).bind fun value _ => ?_
    cases value with
    | none => exact pure trivial
    | some value =>
      exact own.bind fun _ _ => .bind declareIn_mindful fun _ _ => ih (fun c hc => hn c (.tail _ hc)) _

theorem bindValues_mindful (ids : List VarId) (index : Nat) :
    FinLang.Mindful size (bindValues params scope index ids) := by
  induction ids generalizing index with
  | nil => exact pure trivial
  | cons id rest ih =>
    exact (onHeap Heap.allocLink_placeless).bind fun _ _ => .bind declareIn_mindful fun _ _ => ih _

theorem bindMissing_mindful {names : List String} : FinLang.Mindful size (bindMissing scope names) :=
  forM (fun _ => (onHeap (.lift _)).bind fun _ _ => declareIn_mindful) names

theorem bindArguments_mindful (hself : self.Mindful size) (hargs : args.Inside size) :
    FinLang.Mindful size (bindArguments self params args caller scope) := by
  cases args with
  | nodes nodes =>
    refine (bindNodes_mindful hself hargs 0).bind fun bound _ => ?_
    split
    · exact .bind bindMissing_mindful fun _ _ => pure trivial
    · exact pure trivial
  | values ids =>
    exact (bindValues_mindful ids 0).bind fun _ _ => .bind bindMissing_mindful fun _ _ => pure trivial

theorem invoke_mindful (hself : self.Mindful size) (fuel : Nat) (hf : f.Inside size)
    (hargs : args.Inside size) : FinLang.Mindful size (invoke self fuel f args caller scope) := by
  refine (bindArguments_mindful hself hargs).bind fun bound _ => ?_
  split
  · rcases hbody : f.body with block | n
    · exact (runList_mindful hself fuel fun _ hc => (hf block hbody).child hc).bind fun _ _ => leaveBody
    · exact (Library.run_mindful hself n).bind fun _ _ => leaveBody
  · exact pure trivial

theorem callFunction_mindful (hself : self.Mindful size) (fuel : Nat) (hf : f.Inside size)
    (hargs : args.Inside size) : FinLang.Mindful size (callFunction self fuel f args caller) := by
  have hopen : Store.Careful (Function.Inside size) (do
      let scope ← Store.createChild caller f.name
      Store.setBelongsTo scope f
      return scope) :=
    Store.Careful.createChild.bind fun _ => Store.Careful.setBelongsTo.bind fun _ => .pure _
  have henter : FinLang.Mindful size (do
      let scope ← Exec.onStore do
        let scope ← Store.createChild caller f.name
        Store.setBelongsTo scope f
        return scope
      Exec.modifyMachine fun m => { m with depth := m.depth + 1 }
      let ended ← Exec.attempt (invoke self fuel f args caller scope)
      Exec.modifyMachine fun m => { m with depth := m.depth - 1 }
      Exec.leaveScope scope ended) :=
    (onStore hopen).bind fun scope _ =>
      (modifyMachine (f := fun m => { m with depth := m.depth + 1 }) fun _ => rfl).bind fun _ _ =>
        (invoke_mindful hself fuel hf hargs).attempt.bind fun ended hended =>
          (modifyMachine (f := fun m => { m with depth := m.depth - 1 }) fun _ => rfl).bind
            fun _ _ => leaveScope hended.2
  refine .bind Careful.get fun r _ => ?_
  simp only
  split
  · exact (fail _).bind fun _ (_ : True) => henter
  · exact henter

theorem ofFuel_mindful (fuel : Nat) : (ofFuel fuel).Mindful size := by
  induction fuel with
  | zero => exact ⟨fun _ => outOfFuel, fun _ => outOfFuel, fun _ _ => outOfFuel⟩
  | succ fuel ih =>
    exact ⟨evalNode_mindful ih, execNode_mindful ih fuel, callFunction_mindful ih fuel⟩

end Interpreter

end FinLang

import FinLang.Machine.Interpreter
import FinLang.Proofs.Operation

namespace FinLang

-- What a node that is evaluated asks of its parts, and which failures its own
-- shape may bring about.
def Node.EvalRule (admits : Cause → Prop) (evaluable : Node → Prop) (n : Node) : Prop :=
  match n.kind with
  | .single =>
    match n.token with
    | none => admits .expressionWithoutToken
    | some t => t.isValue = true ∨ admits (.unexpectedInExpression t.text)
  | .expression =>
    match n.token with
    | none => True
    | some t =>
      match t.operator? with
      | none => admits (.notOperator t.text)
      | some .leftParen | some .leftBracket => ∀ c ∈ n.children, evaluable c
      | some .call =>
        match n.children with
        | [_, args] => ∀ c ∈ args.children, evaluable c
        | _ => admits .malformedCall
      | some op =>
        (∀ c ∈ n.children, evaluable c) ∧
          ∀ wanted, op.arity? = some wanted → wanted ≠ n.children.length →
            admits (.operandCount op wanted n.children.length)
  | other => admits (.notExpression other.name)

def Node.DeclareRule (admits : Cause → Prop) (evaluable : Node → Prop) (n : Node) : Prop :=
  match Interpreter.declarator n with
  | .error e => admits e.cause
  | .ok (_, init) => ∀ e ∈ init, evaluable e

def Node.BranchRule (admits : Cause → Prop) (evaluable executable : Node → Prop) :
    List Node → Prop
  | [] => True
  | [_] => admits .branchWithoutBody
  | condition :: body :: rest =>
    evaluable condition ∧ executable body ∧ BranchRule admits evaluable executable rest

def Node.LoopRule (admits : Cause → Prop) (evaluable executable : Node → Prop) (n : Node) : Prop :=
  match n.children with
  | [head, body] =>
    executable body ∧
      match Interpreter.loopHead n.keyword? head with
      | .error e => admits e.cause
      | .ok parts => evaluable parts.condition ∧ (∀ s ∈ parts.start, executable s) ∧
          ∀ s ∈ parts.step, executable s
  | _ => admits .malformedLoop

def Node.JumpRule (admits : Cause → Prop) (evaluable : Node → Prop) (n : Node) : Prop :=
  match n.keyword? with
  | some .gotoWord => (n.children.head?.bind Node.name?).isSome ∨ admits .gotoWithoutLabel
  | some .returnWord | some .exitWord => ∀ c ∈ n.children, evaluable c
  | some .breakWord | some .continueWord => True
  | _ => admits .malformedJump

def Node.FunctionRule (admits : Cause → Prop) (executable : Node → Prop) (n : Node) : Prop :=
  match Interpreter.definition n with
  | .error e => admits e.cause
  | .ok f => ∀ block, f.body = .script block → ∀ c ∈ block.children, executable c

-- Likewise for a node that is executed.
def Node.ExecRule (admits : Cause → Prop) (evaluable executable : Node → Prop) (n : Node) : Prop :=
  match n.kind with
  | .statement =>
    if n.isScopedBlock then ∀ c ∈ n.children, executable c
    else if n.operator? == some .semicolon then ∀ c ∈ n.children, evaluable c
    else ∀ c ∈ n.children, executable c
  | .declare => ∀ c ∈ n.children, c.DeclareRule admits evaluable
  | .function => n.FunctionRule admits executable
  | .branch => Node.BranchRule admits evaluable executable n.children
  | .loop => n.LoopRule admits evaluable executable
  | .label => True
  | .jump => n.JumpRule admits evaluable
  | .program => False
  | .single | .expression => evaluable n

-- Which failures are admitted, and trees whose shape brings about no others.
structure Discipline where
  admits : Cause → Prop
  evaluable : Node → Prop
  executable : Node → Prop
  ordinary : ∀ {c : Cause}, c.Ordinary → admits c
  outsideLoop : ∀ text, admits (.outsideLoop text)
  evalRule : ∀ {n}, evaluable n → n.EvalRule admits evaluable
  execRule : ∀ {n}, executable n → n.ExecRule admits evaluable executable

namespace Discipline

-- Whether a handle may turn out to be stale.
def Loose (D : Discipline) : Prop :=
  ∀ id, D.admits (.staleVariable id)

end Discipline

namespace Native

-- The arguments that a native function looks up by name.
def arguments : Native → List String
  | .len | .typeOf | .math _ => ["x"]
  | .extArg => ["index"]
  | .call => ["name"]
  | .image => ["width", "height"]
  | .print | .extArgCount | .callDepth | .signal _ => []

end Native

-- A function that can be called: its body has been checked, or is one of the
-- library's with the parameters it needs.
def Function.Fit (D : Discipline) (f : Function) : Prop :=
  match f.body with
  | .script block => ∀ c ∈ block.children, D.executable c
  | .native n => (∀ kind, n ≠ .signal kind) ∧ ∀ a ∈ n.arguments, a ∈ f.params

-- How values are handled that wait for the rest of their expression: applying
-- an operator to them, and giving them up when `exit` interrupts.
structure Handling where
  apply : Operator → List VarId → HeapM VarId
  giveUp : List VarId → Exec Unit

namespace Interpreter

open Exec

section

variable (p : Handling) (self : Interpreter)

def itemsBy (scope : ScopeId) (last : Option VarId) : List Node → Exec (Option VarId)
  | [] =>
    match last with
    | some id => return some id
    | none => allocNull
  | item :: rest => do
    let value ← onFailure (self.eval item scope) (last.forM release)
    match value with
    | some id =>
      if last != some id then
        last.forM release
      itemsBy scope (some id) rest
    | none =>
      p.giveUp last.toList
      return none

def operandsBy (scope : ScopeId) (operands : List VarId) : List Node → Exec (Option (List VarId))
  | [] => return some operands
  | node :: rest => do
    match ← onFailure (self.eval node scope) (onHeap (Heap.releaseAll operands.reverse)) with
    | some value =>
      ofExcept (← flow).insideExpression
      operandsBy scope (value :: operands) rest
    | none =>
      p.giveUp operands.reverse
      return none

def operatorBy (op : Operator) (children : List Node) (scope : ScopeId) :
    Exec (Option VarId) := do
  match ← operandsBy p self scope [] children with
  | none => return none
  | some reversed =>
    let operands := reversed.reverse
    let result ← attempt (onHeap (p.apply op operands))
    let keep := result.toOption
    operands.forM fun id => if some id = keep then pure () else release id
    return some (← ofExcept result)

def expressionBy (node : Node) (scope : ScopeId) : Exec (Option VarId) :=
  match node.token with
  | none => return some (← onHeap (Heap.allocNumeric 1.0))
  | some token =>
    match token.operator? with
    | none => fail (.notOperator token.text)
    | some op =>
      located (some token.span)
        (match op with
        | .leftParen => itemsBy p self scope none node.children
        | .leftBracket => buildArray self node.children scope
        | .call => evalCall self node scope
        | _ => operatorBy p self op node.children scope)

def nodeBy (node : Node) (scope : ScopeId) : Exec (Option VarId) :=
  match node.kind with
  | .single => return some (← evalSingle node scope)
  | .expression => expressionBy p self node scope
  | other => fail (.notExpression other.name)

end

-- The interpreter with another way to handle waiting values.
def ofFuelBy (p : Handling) : Nat → Interpreter
  | 0 => ⟨fun _ _ => outOfFuel, fun _ _ => outOfFuel, fun _ _ _ => outOfFuel⟩
  | n + 1 =>
    { eval := fun node scope => nodeBy p (ofFuelBy p n) node scope
      exec := fun node scope => execNode (ofFuelBy p n) n node scope
      call := fun f args caller => callFunction (ofFuelBy p n) n f args caller }

end Interpreter

namespace Handling

-- Operators are applied as they come, and all that waits is released.
def plain : Handling where
  apply := Operation.calculate
  giveUp ids := Exec.onHeap (Heap.releaseAll ids)

theorem giveUp_plain (last : Option VarId) :
    plain.giveUp last.toList = last.forM Exec.release := by
  cases last with
  | none => rfl
  | some id =>
    have : Heap.releaseAll [id] = Heap.release id := by simp [Heap.releaseAll]
    simp [plain, this, Exec.release, Option.forM]

end Handling

namespace Interpreter

variable (self : Interpreter) (scope : ScopeId)

theorem itemsBy_plain (last : Option VarId) (items : List Node) :
    itemsBy .plain self scope last items = evalItems self scope last items := by
  induction items generalizing last with
  | nil => rfl
  | cons item rest ih =>
    unfold itemsBy evalItems
    refine bind_congr fun value => ?_
    cases value with
    | some id => simp [ih]
    | none =>
      simp only [Handling.giveUp_plain]
      cases last <;> rfl

theorem operandsBy_plain (operands : List VarId) (nodes : List Node) :
    operandsBy .plain self scope operands nodes = evalOperands self scope operands nodes := by
  induction nodes generalizing operands with
  | nil => rfl
  | cons node rest ih =>
    unfold operandsBy evalOperands
    refine bind_congr fun value => ?_
    cases value with
    | some id => simp [ih]
    | none => rfl

theorem nodeBy_plain (node : Node) : nodeBy .plain self node scope = evalNode self node scope := by
  have hexpr : expressionBy .plain self node scope = evalExpression self node scope := by
    unfold expressionBy evalExpression operatorBy evalOperator evalGroup
    simp only [itemsBy_plain, operandsBy_plain]
    rfl
  cases hkind : node.kind <;> simp only [nodeBy, evalNode, hkind, hexpr]

-- Handled plainly, it is the interpreter itself.
theorem ofFuelBy_plain (n : Nat) : ofFuelBy .plain n = ofFuel n := by
  induction n with
  | zero => rfl
  | succ n ih =>
    unfold ofFuelBy ofFuel
    rw [ih]
    simp only [nodeBy_plain]

end Interpreter

end FinLang

import FinLang.Machine.Run

namespace FinLang

-- Ways to look at the flow while a program runs: around what is evaluated, executed and called
-- and around lists of statements, behind an operand, and at the end of a body.
structure Probe where
  eval : Exec (Option VarId) → Exec (Option VarId)
  exec : Node → Exec Unit → Exec Unit
  list : Exec Unit → Exec Unit
  call : Exec Unit → Exec Unit
  operand : Exec Unit
  leave : Exec Unit

-- How a list of statements may leave the flow.
def FlowKind.endsList : FlowKind → Bool
  | .goto _ | .failed => false
  | _ => true

-- How a node that is executed may leave it. A `goto` leaves no other construct than itself.
def Node.mayEnd (n : Node) : FlowKind → Bool
  | .next | .exiting => true
  | .returning => n.kind == .statement || n.kind == .branch || n.kind == .loop || n.kind == .jump
  | .breaking | .continuing => n.kind == .statement || n.kind == .branch || n.kind == .jump
  | .goto _ => n.kind == .jump && n.keyword? == some .gotoWord
  | .failed => false

namespace Probe

open Exec Interpreter

-- Nothing is looked at.
def off : Probe where
  eval part := part
  exec _ part := part
  list part := part
  call part := part
  operand := do ofExcept (← flow).insideExpression
  leave := leaveBody

section Strict

variable {α : Type} (alarm : Halt)

def demand (fine : FlowKind → Bool) : Exec Unit := do
  if fine (← flow).kind then pure () else throw alarm

-- A part that starts at the next statement.
def around (fine : α → FlowKind → Bool) (part : Exec α) : Exec α := do
  demand alarm (· == .next)
  let a ← part
  demand alarm (fine a)
  return a

-- Raises an alarm where the flow is not as it should be.
def strict : Probe where
  eval := around alarm fun v kind => kind == if v.isSome then .next else .exiting
  exec node := around alarm fun _ kind => node.mayEnd kind
  list := around alarm fun _ kind => kind.endsList
  call := around alarm fun _ kind => kind == .next || kind == .exiting
  operand := do
    match (← flow).insideExpression with
    | .ok () => pure ()
    | .error _ => throw alarm
  leave := do
    match (← flow).kind with
    | .goto _ | .failed => throw alarm
    | _ => leaveBody

end Strict

section

variable (p : Probe) (self : Interpreter)

def evalOperands (scope : ScopeId) (operands : List VarId) :
    List Node → Exec (Option (List VarId))
  | [] => return some operands
  | node :: rest => do
    let releaseOperands := onHeap (Heap.releaseAll operands.reverse)
    match ← onFailure (self.eval node scope) releaseOperands with
    | some value =>
      p.operand
      evalOperands scope (value :: operands) rest
    | none =>
      releaseOperands
      return none

def evalOperator (op : Operator) (children : List Node) (scope : ScopeId) :
    Exec (Option VarId) := do
  match ← p.evalOperands self scope [] children with
  | none => return none
  | some reversed =>
    let operands := reversed.reverse
    let result ← attempt (onHeap (Operation.calculate op operands))
    let keep := result.toOption
    operands.forM fun id => if some id = keep then pure () else release id
    return some (← ofExcept result)

def evalExpression (node : Node) (scope : ScopeId) : Exec (Option VarId) :=
  match node.token with
  | none => return some (← onHeap (Heap.allocNumeric 1.0))
  | some token =>
    match token.operator? with
    | none => fail (.notOperator token.text)
    | some op =>
      located (some token.span)
        (match op with
        | .leftParen => evalGroup self node.children scope
        | .leftBracket => buildArray self node.children scope
        | .call => evalCall self node scope
        | _ => p.evalOperator self op node.children scope)

def evalNode (node : Node) (scope : ScopeId) : Exec (Option VarId) :=
  match node.kind with
  | .single => return some (← evalSingle node scope)
  | .expression => p.evalExpression self node scope
  | other => fail (.notExpression other.name)

def runList (fuel : Nat) (list : List Node) (scope : ScopeId) : Exec Unit :=
  p.list (runFrom (self.exec · scope) list fuel list)

def execStatement (fuel : Nat) (node : Node) (scope : ScopeId) : Exec Unit :=
  if node.isScopedBlock then
    withScope scope "block" (p.runList self fuel node.children)
  else if node.operator? == some .semicolon then
    discardAll self scope node.children
  else
    p.runList self fuel node.children scope

def execProgram (fuel : Nat) (node : Node) (scope : ScopeId) : Exec Unit :=
  withScope scope "program" fun inner => do
    p.runList self fuel node.children inner
    p.leave

def execNode (fuel : Nat) (node : Node) (scope : ScopeId) : Exec Unit :=
  match node.kind with
  | .statement => located node.span? (p.execStatement self fuel node scope)
  | .program => located node.span? (p.execProgram self fuel node scope)
  | _ => Interpreter.execNode self fuel node scope

def invoke (fuel : Nat) (f : Function) (args : Arguments) (caller scope : ScopeId) :
    Exec Unit := do
  if ← bindArguments self f.params args caller scope then
    match f.body with
    | .native n => Library.run self scope n
    | .script block => p.runList self fuel block.children scope
    p.leave

def runProgram (fuel : Nat) (children : List Node) (scope : ScopeId) : Exec Outcome := do
  let outcome ← attempt do
    p.list (runFrom (topStatement self scope) children fuel children)
    p.leave
    readOutcome
  (← takeResult).forM release
  (← get).last.forM release
  ofExcept outcome

def runTree (fuel : Nat) (tree : Tree) (scope : ScopeId) : Exec Outcome :=
  if tree.hasErrors then
    fail (.treeErrors (errorCount tree))
  else if tree.root.kind != .program then
    fail .rootNotProgram
  else if tree.root.children.isEmpty then
    return ⟨.empty, .null⟩
  else
    p.runProgram self fuel tree.root.children scope

end

-- The interpreter, looked at.
def interpreter (p : Probe) : Nat → Interpreter
  | 0 => ofFuel 0
  | n + 1 =>
    { eval := fun node scope => p.eval (p.evalNode (p.interpreter n) node scope)
      exec := fun node scope => p.exec node (p.execNode (p.interpreter n) n node scope)
      call := fun f args caller =>
        p.call (enterCall f caller (p.invoke (p.interpreter n) n f args caller)) }

-- Programs of a machine, looked at.
def runIn (p : Probe) (m : Machine) (fuel : Nat) (tree : Tree) (scope : ScopeId) :
    Except Halt Outcome × Machine :=
  m.start (p.runTree (p.interpreter fuel) fuel tree scope)

def run (p : Probe) (m : Machine) (fuel : Nat) (tree : Tree) : Except Halt Outcome × Machine :=
  m.start do
    let scope ← onStore (Store.createChild m.root "program")
    let outcome ← attempt (p.runTree (p.interpreter fuel) fuel tree scope)
    let destroyed ← attempt (onStore (Store.destroy scope))
    let outcome ← ofExcept outcome
    ofExcept destroyed
    return outcome

section Off

variable (self : Interpreter)

theorem evalOperands_off (scope : ScopeId) (operands : List VarId) (nodes : List Node) :
    off.evalOperands self scope operands nodes =
      Interpreter.evalOperands self scope operands nodes := by
  induction nodes generalizing operands with
  | nil => rfl
  | cons node rest ih =>
    unfold evalOperands Interpreter.evalOperands
    refine bind_congr fun value => ?_
    cases value with
    | none => rfl
    | some x =>
      have hoperand : off.operand = flow >>= fun f => Exec.ofExcept f.insideExpression := rfl
      simp only [hoperand, ih, bind_assoc]

theorem evalOperator_off (op : Operator) (children : List Node) (scope : ScopeId) :
    off.evalOperator self op children scope =
      Interpreter.evalOperator self op children scope :=
  congrArg (· >>= _) (evalOperands_off self scope [] children)

theorem evalNode_off (node : Node) (scope : ScopeId) :
    off.evalNode self node scope = Interpreter.evalNode self node scope := by
  unfold evalNode Interpreter.evalNode
  cases node.kind with
  | expression =>
    unfold evalExpression Interpreter.evalExpression
    rcases node.token with _ | token
    · rfl
    dsimp only
    rcases token.operator? with _ | op
    · rfl
    refine congrArg (located _) ?_
    cases op <;> first | rfl | exact evalOperator_off self _ node.children scope
  | _ => rfl

theorem execNode_off (fuel : Nat) (node : Node) (scope : ScopeId) :
    off.execNode self fuel node scope = Interpreter.execNode self fuel node scope := by
  unfold execNode Interpreter.execNode
  cases node.kind <;> rfl

-- Not looked at, it is the interpreter itself,
theorem interpreter_off (n : Nat) : off.interpreter n = ofFuel n := by
  induction n with
  | zero => rfl
  | succ n ih =>
    unfold interpreter ofFuel
    simp only [evalNode_off, execNode_off, ih]
    rfl

-- and programs run as they are.
theorem runTree_off (fuel : Nat) (tree : Tree) (scope : ScopeId) :
    off.runTree self fuel tree scope = Interpreter.runTree self fuel tree scope :=
  rfl

variable {m : Machine} {fuel : Nat} {tree : Tree}

theorem runIn_off {scope : ScopeId} : off.runIn m fuel tree scope = m.runIn fuel tree scope := by
  rw [runIn, interpreter_off]
  rfl

theorem run_off : off.run m fuel tree = m.run fuel tree := by
  rw [run, interpreter_off]
  rfl

end Off

end Probe

end FinLang

import FinLang.Machine.Basic

namespace FinLang

namespace Interpreter

open Exec

-- Whether the flow is still at the next statement.
def isNext : Exec Bool :=
  return (← flow).isNext

-- Runs statements until one of them changes the flow; says whether one did.
def runStraight (statement : Node → Exec Unit) : List Node → Exec Bool
  | [] => return false
  | node :: rest => do
    statement node
    if ← isNext then runStraight statement rest else return true

-- What follows a label among the statements of a list.
def afterLabel? (label : String) : List Node → Option (List Node)
  | [] => none
  | node :: rest =>
    if node.kind == .label && node.token.any fun t => t.text == label then some rest
    else afterLabel? label rest

-- Runs a list from the given place on. A `goto` finds the labels of this very
-- list and no others; each one takes from the fuel.
def runFrom (statement : Node → Exec Unit) (list : List Node) : Nat → List Node → Exec Unit
  | 0, _ => outOfFuel
  | n + 1, rest => do
    if ← runStraight statement rest then
      match (← flow).kind with
      | .goto label =>
        match afterLabel? label list with
        | some target =>
          setKind .next
          runFrom statement list n target
        | none =>
          setKind .failed
          fail (.labelNotInBlock label)
      | _ => pure ()

def runList (self : Interpreter) (fuel : Nat) (list : List Node) (scope : ScopeId) : Exec Unit :=
  runFrom (self.exec · scope) list fuel list

-- Expressions in statement position, one after the other.
def discardAll (self : Interpreter) (scope : ScopeId) : List Node → Exec Unit
  | [] => pure ()
  | node :: rest => do
    match ← self.eval node scope with
    | some id =>
      release id
      discardAll self scope rest
    | none => pure ()

def execStatement (self : Interpreter) (fuel : Nat) (node : Node) (scope : ScopeId) : Exec Unit :=
  if node.isScopedBlock then
    withScope scope "block" (runList self fuel node.children)
  else if node.operator? == some .semicolon then
    discardAll self scope node.children
  else
    runList self fuel node.children scope

def execProgram (self : Interpreter) (fuel : Nat) (node : Node) (scope : ScopeId) : Exec Unit :=
  withScope scope "program" fun inner => do
    runList self fuel node.children inner
    leaveBody

-- The name that a declaration introduces and the expression it starts with.
def declarator (node : Node) : Except Failure (String × Option Node) :=
  match node.name? with
  | some name => .ok (name, none)
  | none =>
    match node.children with
    | [target, init] =>
      if node.operator? == some .assign then
        match target.name? with
        | some name => .ok (name, some init)
        | none => .error (.of .declarationTarget)
      else
        .error (.of .malformedDeclaration)
    | _ => .error (.of .malformedDeclaration)

def declareAll (self : Interpreter) (scope : ScopeId) : List Node → Exec Unit
  | [] => pure ()
  | node :: rest => do
    let (name, init) ← ofExcept (declarator node)
    match init with
    | none =>
      let id ← onHeap Heap.allocNull
      onStore (Store.declare scope name id)
      declareAll self scope rest
    | some e =>
      match ← self.eval e scope with
      | none => pure ()
      | some value =>
        let id ← own value
        onStore (Store.declare scope name id)
        declareAll self scope rest

def parameterNames (nodes : List Node) : Except Failure (List String) :=
  nodes.mapM fun node =>
    match node.name? with
    | some name => .ok name
    | none => .error (.of .functionParameterNode)

-- The function that a definition describes.
def definition (node : Node) : Except Failure Function :=
  match node.children with
  | [name, params, body] =>
    match name.name? with
    | none => .error (.of .functionNameNode)
    | some name => do return ⟨name, ← parameterNames params.children, .script body⟩
  | _ => .error (.of .malformedFunction)

def defineFunction (node : Node) (scope : ScopeId) : Exec Unit := do
  let f ← ofExcept (definition node)
  onStore (Store.addFunction scope f)

def evalCondition (self : Interpreter) (node : Node) (scope : ScopeId) : Exec (Option Bool) := do
  match ← self.eval node scope with
  | none => return none
  | some id =>
    let truth := (← get).machine.store.heap.toBool id
    release id
    return some (← ofExcept truth)

-- Pairs of condition and body; the first body whose condition holds is run.
def execBranches (self : Interpreter) (scope : ScopeId) : List Node → Exec Unit
  | [] => pure ()
  | [_] => fail .branchWithoutBody
  | condition :: body :: rest => do
    match ← evalCondition self condition scope with
    | some true => self.exec body scope
    | some false => execBranches self scope rest
    | none => pure ()

-- An empty condition in the head of a `for` always holds.
def isEmptySlot (node : Node) : Bool :=
  node.kind == .single &&
    node.token.any fun t =>
      match t.kind with
      | .dummy => true
      | _ => false

-- Whether the body is to be run once more; none if `exit` interrupted.
def continues (self : Interpreter) (condition : Node) (scope : ScopeId) : Exec (Option Bool) :=
  if isEmptySlot condition then return some true else evalCondition self condition scope

-- Runs the body and tells whether the loop goes on.
def execBody (self : Interpreter) (body : Node) (scope : ScopeId) : Exec Bool := do
  self.exec body scope
  match (← flow).kind with
  | .next => return true
  | .continuing =>
    setKind .next
    return true
  | .breaking =>
    setKind .next
    return false
  | _ => return false

def iterate (self : Interpreter) (condition body : Node) (step : Option Node) (scope : ScopeId) :
    Nat → Exec Unit
  | 0 => outOfFuel
  | n + 1 => do
    if (← continues self condition scope) == some true then
      if ← execBody self body scope then
        match step with
        | none => iterate self condition body step scope n
        | some node =>
          self.exec node scope
          if ← isNext then
            iterate self condition body step scope n

structure LoopHead where
  start : Option Node
  condition : Node
  step : Option Node

def loopHead (word : Option Keyword) (head : Node) : Except Failure LoopHead :=
  match word with
  | some .forWord =>
    match head.children with
    | [start, condition, step] => .ok ⟨some start, condition, some step⟩
    | _ => .error (.of .forHeadParts)
  | some .whileWord => .ok ⟨none, head, none⟩
  | _ => .error (.of .loopKeyword)

def execLoop (self : Interpreter) (fuel : Nat) (node : Node) (scope : ScopeId) : Exec Unit :=
  match node.children with
  | [head, body] =>
    withScope scope "loop" fun inner => do
      let parts ← ofExcept (loopHead node.keyword? head)
      match parts.start with
      | none => iterate self parts.condition body parts.step inner fuel
      | some start =>
        self.exec start inner
        if ← isNext then
          iterate self parts.condition body parts.step inner fuel
  | _ => fail .malformedLoop

-- A `return` or `exit`, with or without a value.
def execLeave (self : Interpreter) (node : Node) (kind : FlowKind) (scope : ScopeId) :
    Exec Unit := do
  match node.children with
  | [] => setKind kind
  | operand :: _ =>
    match ← self.eval operand scope with
    | none => pure ()
    | some id =>
      setResult id
      setKind kind

def execJump (self : Interpreter) (node : Node) (scope : ScopeId) : Exec Unit :=
  match node.keyword? with
  | some .gotoWord =>
    match node.children.head?.bind Node.name? with
    | some label => setKind (.goto label)
    | none => fail .gotoWithoutLabel
  | some .returnWord => execLeave self node .returning scope
  | some .exitWord => execLeave self node .exiting scope
  | some .breakWord => setKind .breaking
  | some .continueWord => setKind .continuing
  | _ => fail .malformedJump

-- A bare expression locates its failures itself.
def execBare (self : Interpreter) (node : Node) (scope : ScopeId) : Exec Unit := do
  match ← self.eval node scope with
  | some id => located node.span? (release id)
  | none => pure ()

def execNode (self : Interpreter) (fuel : Nat) (node : Node) (scope : ScopeId) : Exec Unit :=
  match node.kind with
  | .statement => located node.span? (execStatement self fuel node scope)
  | .declare => located node.span? (declareAll self scope node.children)
  | .function => located node.span? (defineFunction node scope)
  | .branch => located node.span? (execBranches self scope node.children)
  | .loop => located node.span? (execLoop self fuel node scope)
  | .label => pure ()
  | .jump => located node.span? (execJump self node scope)
  | .program => located node.span? (execProgram self fuel node scope)
  | .single | .expression => execBare self node scope

end Interpreter

end FinLang

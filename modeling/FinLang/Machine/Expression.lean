import FinLang.Machine.Basic

namespace FinLang

namespace Interpreter

open Exec

def allocNull : Exec (Option VarId) := do
  return some (← onHeap Heap.allocNull)

-- A literal, an empty slot or a name.
def evalSingle (node : Node) (scope : ScopeId) : Exec VarId := do
  match node.token with
  | none => fail .expressionWithoutToken
  | some token =>
    match token.kind with
    | .decimal n => onHeap (Heap.allocNumeric n)
    | .string s => onHeap (Heap.allocString s)
    | .dummy => onHeap Heap.allocNull
    | .variable =>
      match (← get).machine.store.scopes.findVariable scope token.text with
      | some id => return id
      | none => located (some token.span) (fail (.undefinedVariable token.text))
    | _ => located (some token.span) (fail (.unexpectedInExpression token.text))

-- The value of a group is that of its last item. Each value but the last is
-- released when the next one is there.
def evalItems (self : Interpreter) (scope : ScopeId) (last : Option VarId) :
    List Node → Exec (Option VarId)
  | [] =>
    match last with
    | some id => return some id
    | none => allocNull
  | item :: rest => do
    let value ← onFailure (self.eval item scope) (last.forM release)
    if last != value then
      last.forM release
    match value with
    | some id => evalItems self scope (some id) rest
    | none => return none

def evalGroup (self : Interpreter) (items : List Node) (scope : ScopeId) : Exec (Option VarId) :=
  evalItems self scope none items

def pushItems (self : Interpreter) (scope : ScopeId) (array : VarId) :
    List Node → Exec (Option VarId)
  | [] => return some array
  | item :: rest => do
    match ← onFailure (self.eval item scope) (release array) with
    | some value =>
      let item ← own value
      onHeap (Heap.pushElement array item)
      pushItems self scope array rest
    | none =>
      release array
      return none

def buildArray (self : Interpreter) (items : List Node) (scope : ScopeId) :
    Exec (Option VarId) := do
  let array ← onHeap (Heap.alloc (.array #[]))
  pushItems self scope array items

-- The operands from left to right, the latest first.
def evalOperands (self : Interpreter) (scope : ScopeId) (operands : List VarId) :
    List Node → Exec (Option (List VarId))
  | [] => return some operands
  | node :: rest => do
    let releaseOperands := onHeap (Heap.releaseAll operands.reverse)
    match ← onFailure (self.eval node scope) releaseOperands with
    | some value =>
      ofExcept (← flow).insideExpression
      evalOperands self scope (value :: operands) rest
    | none =>
      releaseOperands
      return none

-- The operands are released, the result excepted.
def evalOperator (self : Interpreter) (op : Operator) (children : List Node) (scope : ScopeId) :
    Exec (Option VarId) := do
  match ← evalOperands self scope [] children with
  | none => return none
  | some reversed =>
    let operands := reversed.reverse
    let result ← attempt (onHeap (Operation.calculate op operands))
    let keep := result.toOption
    operands.forM fun id => if some id = keep then pure () else release id
    return some (← ofExcept result)

-- A call in an expression. An `exit` in the called function goes on from here.
def evalCall (self : Interpreter) (node : Node) (scope : ScopeId) : Exec (Option VarId) := do
  match node.children with
  | [callee, args] =>
    match callee.name? with
    | none => fail .calleeNotNamed
    | some name =>
      match (← get).machine.store.scopes.findFunction scope name with
      | none => fail (.undefinedFunction name)
      | some f =>
        let ended ← withFreshFlow (self.call f (.nodes args.children) scope)
        if ended.isExit then
          setKind .exiting
          ended.result.forM setResult
          return none
        else
          match ended.result with
          | some id => return some id
          | none => allocNull
  | _ => fail .malformedCall

def evalExpression (self : Interpreter) (node : Node) (scope : ScopeId) : Exec (Option VarId) :=
  match node.token with
  -- The condition of an `else`.
  | none => return some (← onHeap (Heap.allocNumeric 1.0))
  | some token =>
    match token.operator? with
    | none => fail (.notOperator token.text)
    | some op =>
      located (some token.span)
        (match op with
        | .leftParen => evalGroup self node.children scope
        | .leftBracket => buildArray self node.children scope
        | .call => evalCall self node scope
        | _ => evalOperator self op node.children scope)

def evalNode (self : Interpreter) (node : Node) (scope : ScopeId) : Exec (Option VarId) :=
  match node.kind with
  | .single => return some (← evalSingle node scope)
  | .expression => evalExpression self node scope
  | other => fail (.notExpression other.name)

end Interpreter

end FinLang

import FinLang.Machine.Interpreter
import FinLang.Tree.Basic

namespace FinLang

inductive Completion where
  -- Ran to the end or returned.
  | finished
  -- Stopped by `exit`.
  | exited
  -- There was nothing to run.
  | empty
deriving DecidableEq, Inhabited

structure Outcome where
  completion : Completion
  value : Value
deriving Inhabited

namespace Interpreter

open Exec

def isExpressionStatement (node : Node) : Bool :=
  node.kind == .statement && node.operator? == some .semicolon && node.children.length == 1

-- Keeps a value as the last one of the program and releases the one before it.
def keepLast (id : VarId) : Exec Unit := do
  let previous := (← get).last
  modify fun r => { r with last := some id }
  if previous != some id then
    previous.forM release

-- A statement of the program itself. Unlike in blocks, the value of an
-- expression statement is kept until the next one.
def topStatement (self : Interpreter) (scope : ScopeId) (node : Node) : Exec Unit := do
  match isExpressionStatement node, node.children with
  | true, operand :: _ =>
    let value ← located node.span? (self.eval operand scope)
    value.forM keepLast
  | _, _ => self.exec node scope

def completionOf (f : Flow) : Completion :=
  if f.isExit then .exited else .finished

-- What a program that has ended well gives back: the value it returned, or
-- else its last value.
def readOutcome : Exec Outcome := do
  let run ← get
  let heap := run.machine.store.heap
  let value ←
    match run.flow.result <|> run.last with
    | some id => if heap.contains id then ofExcept (heap.toValue id) else pure .null
    | none => pure .null
  return ⟨completionOf run.flow, value⟩

def errorCount (tree : Tree) : Nat :=
  tree.errors.countP Diagnostic.isError

def runProgram (self : Interpreter) (fuel : Nat) (children : List Node) (scope : ScopeId) :
    Exec Outcome := do
  let outcome ← attempt do
    runFrom (topStatement self scope) children fuel children
    leaveBody
    readOutcome
  (← takeResult).forM release
  (← get).last.forM release
  ofExcept outcome

-- Runs a tree in a scope; what it declares stays there.
def runTree (self : Interpreter) (fuel : Nat) (tree : Tree) (scope : ScopeId) : Exec Outcome :=
  if tree.hasErrors then
    fail (.treeErrors (errorCount tree))
  else if tree.root.kind != .program then
    fail .rootNotProgram
  else if tree.root.children.isEmpty then
    return ⟨.empty, .null⟩
  else
    runProgram self fuel tree.root.children scope

end Interpreter

namespace Machine

variable {α : Type}

-- Carries out a part with a given flow; gives back its result, the machine and
-- the flow behind it.
def perform (m : Machine) (flow : Flow) (part : Exec α) : Except Halt α × Machine × Flow :=
  let (result, run) := part.run.run ⟨m, flow, none⟩
  (result, run.machine, run.flow)

def start (m : Machine) (part : Exec α) : Except Halt α × Machine :=
  let (result, m, _) := m.perform Flow.start part
  (result, m)

-- Runs a tree in a scope of the machine.
def runIn (m : Machine) (fuel : Nat) (tree : Tree) (scope : ScopeId) :
    Except Halt Outcome × Machine :=
  m.start ((Interpreter.ofFuel fuel).runTree fuel tree scope)

-- Runs a tree in a scope of its own, which is destroyed afterwards.
def run (m : Machine) (fuel : Nat) (tree : Tree) : Except Halt Outcome × Machine :=
  m.start do
    let scope ← Exec.onStore (Store.createChild m.root "program")
    let outcome ← Exec.attempt ((Interpreter.ofFuel fuel).runTree fuel tree scope)
    let destroyed ← Exec.attempt (Exec.onStore (Store.destroy scope))
    let outcome ← Exec.ofExcept outcome
    Exec.ofExcept destroyed
    return outcome

def install (root : ScopeId) : StoreM Unit := do
  Library.constants.forM fun (name, value) => do
    let id ← Store.onHeap (Heap.allocNumeric value)
    Store.declare root name id
    Store.onHeap (Heap.setWriteProtected id true)
  Library.functions.forM (Store.addFunction root)

-- A new machine, whose root scope holds the library.
def ofConfig (config : Config) : Machine :=
  let (root, store) := (Store.createScope "root" none).run Store.empty
  let (_, store) := (install root).run.run store
  ⟨config, store, root, 0, #[], #[]⟩

-- A long-lived scope, for programs that share their declarations.
def openSession (m : Machine) : Except Failure ScopeId × Machine :=
  let (result, store) := (Store.createChild m.root "session").run.run m.store
  (result, { m with store := store })

def closeSession (m : Machine) (session : ScopeId) : Except Failure Unit × Machine :=
  let (result, store) := (Store.destroy session).run.run m.store
  (result, { m with store := store })

-- Destroys every scope; says how many variables are left then.
def shutdown (m : Machine) : Except Failure Nat :=
  let (result, store) := (m.store.scopes.arena.handles.forM Store.destroy).run.run m.store
  result.map fun _ => store.heap.liveCount

end Machine

end FinLang

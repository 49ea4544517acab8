import FinLang.Operation
import FinLang.Store.Basic

namespace FinLang

structure Config where
  -- Calls that may be nested.
  maxCallDepth : Nat := 256
  -- Whether printed lines go straight to the console instead of being kept.
  echo : Bool := false
deriving DecidableEq, Inhabited

structure Machine where
  config : Config
  store : Store
  root : ScopeId
  depth : Nat
  -- Printed lines that are kept, and those that went to the console.
  output : Array String
  console : Array String
deriving Inhabited

namespace Machine

def emit (m : Machine) (line : String) : Machine :=
  if m.config.echo then { m with console := m.console.push line }
  else { m with output := m.output.push line }

def liveVariables (m : Machine) : Nat :=
  m.store.heap.liveCount

def liveScopes (m : Machine) : Nat :=
  m.store.scopes.liveCount

end Machine

-- Why an execution ends early: the program failed, or the fuel did not last.
inductive Halt where
  | failure (f : Failure)
  | outOfFuel
deriving Inhabited

namespace Halt

def locate (s : Option Span) : Halt → Halt
  | .failure f => .failure (s.elim f f.locate)
  | .outOfFuel => .outOfFuel

end Halt

-- A machine at work, with the flow of the construct it is in and the value of
-- the last expression statement of the program.
structure Run where
  machine : Machine
  flow : Flow
  last : Option VarId
deriving Inhabited

abbrev Exec := ExceptT Halt (StateM Run)

namespace Exec

variable {α : Type}

def outOfFuel : Exec α :=
  throw .outOfFuel

def fail (c : Cause) : Exec α :=
  throw (.failure (.of c))

def ofExcept : Except Failure α → Exec α
  | .ok a => pure a
  | .error f => throw (.failure f)

-- Runs an operation of the store, which is taken out of the machine meanwhile.
def onStore (op : StoreM α) : Exec α :=
  ExceptT.mk fun r =>
    let store := r.machine.store
    let r := { r with machine := { r.machine with store := Store.empty } }
    let (result, store) := op.run.run store
    (result.mapError .failure, { r with machine := { r.machine with store := store } })

def onHeap (op : HeapM α) : Exec α :=
  onStore (Store.onHeap op)

def readHeap (f : Heap → Except Failure α) : Exec α := do
  ofExcept (f (← get).machine.store.heap)

def readScopes (f : Scopes → Except Failure α) : Exec α := do
  ofExcept (f (← get).machine.store.scopes)

def modifyMachine (f : Machine → Machine) : Exec Unit :=
  modify fun r => { r with machine := f r.machine }

def flow : Exec Flow :=
  return (← get).flow

def setFlow (f : Flow) : Exec Unit :=
  modify fun r => { r with flow := f }

def setKind (kind : FlowKind) : Exec Unit :=
  modify fun r => { r with flow := r.flow.withKind kind }

def release (id : VarId) : Exec Unit :=
  onHeap (Heap.release id)

-- Replaces the travelling variable and releases the one before it.
def setResult (id : VarId) : Exec Unit := do
  let old := (← flow).result
  modify fun r => { r with flow := { r.flow with result := some id } }
  old.forM release

def takeResult : Exec (Option VarId) := do
  let result := (← flow).result
  modify fun r => { r with flow := { r.flow with result := none } }
  return result

-- Failures of the part become values; running out of fuel does not.
def attempt (part : Exec α) : Exec (Except Failure α) :=
  tryCatch (return .ok (← part)) fun
    | .failure f => return .error f
    | .outOfFuel => outOfFuel

-- Cleans up when the part fails.
def onFailure (part : Exec α) (cleanup : Exec Unit) : Exec α := do
  match ← attempt part with
  | .ok a => return a
  | .error f =>
    cleanup
    throw (.failure f)

-- Gives failures of the part a place, if they have none yet.
def located (s : Option Span) (part : Exec α) : Exec α :=
  ExceptT.adapt (Halt.locate s) part

def leaveBody : Exec Unit := do
  setFlow (← ofExcept (← flow).leaveBody)

-- Runs a part with a flow of its own and gives back how that flow ended.
def withFreshFlow (part : Exec Unit) : Exec Flow := do
  let outer ← flow
  setFlow Flow.start
  match ← attempt part with
  | .ok () =>
    let inner ← flow
    setFlow outer
    return inner
  | .error f =>
    setFlow outer
    throw (.failure f)

-- A temporary is used as it is; anything else is copied.
def own (id : VarId) : Exec VarId := do
  let v ← readHeap (·.lookup id)
  if v.owner = .detached && !v.writeProtected && v.payload.varType != .link then
    return id
  let copy ← onHeap (Heap.duplicate id)
  release id
  return copy

-- A travelling variable that the scope owns is replaced by a write-protected
-- copy, and a link by what it points to.
def rescueResult (doomed : ScopeId) : Exec Unit := do
  match (← flow).result with
  | none => pure ()
  | some id =>
    let target ← readHeap (·.resolve id)
    if (← readHeap (·.owningScope target)) = some doomed then
      let copy ← onHeap (Heap.duplicate target)
      onHeap (Heap.setWriteProtected copy true)
      setResult copy
    else if target ≠ id then
      setResult target

-- Leaves a scope after its body has ended in the given way: the travelling
-- variable is moved out, or released after a failure, and the scope destroyed.
def leaveScope (scope : ScopeId) (ended : Except Failure Unit) : Exec Unit := do
  let ended ←
    match ended with
    | .ok () => attempt (rescueResult scope)
    | .error f => pure (.error f)
  if let .error _ := ended then
    (← takeResult).forM release
  let destroyed ← attempt (onStore (Store.destroy scope))
  ofExcept ended
  ofExcept destroyed

-- Runs a part in a new scope inside the given one.
def withScope (parent : ScopeId) (name : String) (part : ScopeId → Exec Unit) : Exec Unit := do
  let scope ← onStore (Store.createChild parent name)
  leaveScope scope (← attempt (part scope))

end Exec

-- Arguments of a call: expressions, evaluated where the call stands and bound
-- by value, or variables, bound by link.
inductive Arguments where
  | nodes (ns : List Node)
  | values (ids : List VarId)
deriving Inhabited

-- What the constructs need of one another: evaluating an expression, where
-- none means that `exit` interrupted it, executing a statement, and calling a
-- function.
structure Interpreter where
  eval : Node → ScopeId → Exec (Option VarId)
  exec : Node → ScopeId → Exec Unit
  call : Function → Arguments → ScopeId → Exec Unit

end FinLang

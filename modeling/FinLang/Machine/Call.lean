import FinLang.Machine.Library
import FinLang.Machine.Statement

namespace FinLang

namespace Interpreter

open Exec

def declareIn (scope : ScopeId) (name : String) (id : VarId) : Exec Unit :=
  onStore (Store.declare scope name id)

-- Evaluates the arguments in the caller's scope and binds each one right away.
-- False if `exit` interrupted.
def bindNodes (self : Interpreter) (params : List String) (caller scope : ScopeId) (index : Nat) :
    List Node → Exec Bool
  | [] => return true
  | node :: rest => do
    match ← self.eval node caller with
    | none => return false
    | some value =>
      let id ← own value
      declareIn scope (Function.paramName params index) id
      bindNodes self params caller scope (index + 1) rest

def bindValues (params : List String) (scope : ScopeId) (index : Nat) : List VarId → Exec Unit
  | [] => pure ()
  | value :: rest => do
    let link ← onHeap (Heap.allocLink value)
    declareIn scope (Function.paramName params index) link
    bindValues params scope (index + 1) rest

-- Parameters without an argument start out as null.
def bindMissing (scope : ScopeId) (names : List String) : Exec Unit :=
  names.forM fun name => do
    let id ← onHeap Heap.allocNull
    declareIn scope name id

def bindArguments (self : Interpreter) (params : List String) (args : Arguments)
    (caller scope : ScopeId) : Exec Bool := do
  match args with
  | .nodes nodes =>
    if ← bindNodes self params caller scope 0 nodes then
      bindMissing scope (params.drop nodes.length)
      return true
    else
      return false
  | .values ids =>
    bindValues params scope 0 ids
    bindMissing scope (params.drop ids.length)
    return true

def invoke (self : Interpreter) (fuel : Nat) (f : Function) (args : Arguments)
    (caller scope : ScopeId) : Exec Unit := do
  if ← bindArguments self f.params args caller scope then
    match f.body with
    | .native n => Library.run self scope n
    | .script block => runList self fuel block.children scope
    leaveBody

-- Carries out a call from a scope. Its own scope lies inside that one, and the
-- body runs one level deeper.
def enterCall (f : Function) (caller : ScopeId) (body : ScopeId → Exec Unit) : Exec Unit := do
  let machine := (← get).machine
  let limit := machine.config.maxCallDepth
  if limit ≤ machine.depth then
    fail (.callDepth limit)
  let scope ← onStore do
    let scope ← Store.createChild caller f.name
    Store.setBelongsTo scope f
    return scope
  modifyMachine fun m => { m with depth := m.depth + 1 }
  let ended ← attempt (body scope)
  modifyMachine fun m => { m with depth := m.depth - 1 }
  leaveScope scope ended

-- Calls a function; the result is left in the flow.
def callFunction (self : Interpreter) (fuel : Nat) (f : Function) (args : Arguments)
    (caller : ScopeId) : Exec Unit :=
  enterCall f caller (invoke self fuel f args caller)

end Interpreter

end FinLang

import FinLang.Store.Heap.Copy
import FinLang.Store.Heap.Elements
import FinLang.Store.Scope

namespace FinLang

-- The variables and the scopes that bind them.
structure Store where
  heap : Heap
  scopes : Scopes
deriving Inhabited

abbrev StoreM := ExceptT Failure (StateM Store)

namespace Store

def empty : Store :=
  ⟨Heap.empty, Scopes.empty⟩

def fail {α : Type} (c : Cause) : StoreM α :=
  throw (.of c)

-- Runs a heap operation. The heap is taken out of the store meanwhile, so that
-- it is not shared while it changes.
def onHeap {α : Type} (op : HeapM α) : StoreM α :=
  ExceptT.mk fun s =>
    let heap := s.heap
    let s := { s with heap := Heap.empty }
    let (result, heap) := op.run.run heap
    (result, { s with heap := heap })

def readHeap {α : Type} (f : Heap → Except Failure α) : StoreM α :=
  ExceptT.mk fun s => (f s.heap, s)

def readScopes {α : Type} (f : Scopes → Except Failure α) : StoreM α :=
  ExceptT.mk fun s => (f s.scopes, s)

def updateScope (id : ScopeId) (f : Scope → Scope) : StoreM Unit := do
  if (← get).scopes.contains id then
    modify fun s => { s with scopes := s.scopes.modify id f }
  else
    fail (.staleScope id)

def createScope (name : String) (parent : Option ScopeId) : StateM Store ScopeId :=
  modifyGet fun s =>
    let (id, scopes) := s.scopes.create name parent
    (id, { s with scopes := scopes })

-- A scope inside a living one.
def createChild (parent : ScopeId) (name : String) : StoreM ScopeId := do
  let _ ← readScopes (·.lookup parent)
  createScope name (some parent)

-- Removes a scope and frees the variables it binds.
def destroy (id : ScopeId) : StoreM Unit := do
  let scope ← readScopes (·.lookup id)
  modify fun s => { s with scopes := ⟨s.scopes.arena.erase id⟩ }
  scope.vars.forM fun (_, var) => do
    if (← get).heap.contains var then
      onHeap (Heap.free var)

-- Binds a left-value to a name that the scope does not bind yet. The scope
-- becomes its owner.
def addVariable (id : ScopeId) (name : String) (var : VarId) : StoreM Unit := do
  if name.isEmpty then
    fail .emptyName
  if !(← readHeap (·.isLeftValue var)) then
    fail (.bindTemporary name)
  let scope ← readScopes (·.lookup id)
  if (scope.varNamed? name).isSome then
    fail (.duplicateVariable name)
  updateScope id fun s => { s with vars := s.vars ++ [(name, var)] }
  onHeap (Heap.setOwner var (.scope id))

def addFunction (id : ScopeId) (f : Function) : StoreM Unit := do
  let scope ← readScopes (·.lookup id)
  if (scope.funcNamed? f.name).isSome then
    fail (.duplicateFunction f.name)
  updateScope id fun s => { s with funcs := s.funcs ++ [f] }

def setBelongsTo (id : ScopeId) (f : Function) : StoreM Unit :=
  updateScope id fun s => { s with belongsTo := some f }

def setFigure (id : ScopeId) (figure : Option Int) : StoreM Unit :=
  updateScope id fun s => { s with figure := figure }

-- Makes a variable a left-value and binds it. It is freed if that fails.
def declare (id : ScopeId) (name : String) (var : VarId) : StoreM Unit := do
  onHeap (Heap.setLeftValue var true)
  tryCatch (addVariable id name var) fun failure => do
    onHeap (Heap.free var)
    throw failure

end Store

end FinLang

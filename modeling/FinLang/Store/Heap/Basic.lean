import FinLang.Store.Variable

namespace FinLang

-- All variables. An array owns its elements, and a variable knows the links
-- that point to it.
structure Heap where
  arena : Arena .variable Variable
deriving Inhabited

-- An operation on the heap. What was changed before a failure stays changed.
abbrev HeapM := ExceptT Failure (StateM Heap)

namespace Heap

def empty : Heap :=
  ⟨Arena.empty⟩

def liveCount (h : Heap) : Nat :=
  h.arena.live

def contains (h : Heap) (id : VarId) : Bool :=
  h.arena.contains id

def lookup (h : Heap) (id : VarId) : Except Failure Variable :=
  match h.arena.get? id with
  | some v => .ok v
  | none => .error (.of (.staleVariable id))

-- Follows a link. Links do not chain, so one step is enough.
def resolve (h : Heap) (id : VarId) : Except Failure VarId := do
  match (← h.lookup id).payload with
  | .link target =>
    if h.contains target then pure target else throw (.of (.staleVariable target))
  | _ => pure id

def payload (h : Heap) (id : VarId) : Except Failure Payload := do
  return (← h.lookup (← h.resolve id)).payload

def varType (h : Heap) (id : VarId) : Except Failure VarType := do
  return (← h.payload id).varType

def isNull (h : Heap) (id : VarId) : Except Failure Bool := do
  return (← h.varType id) == .null

def isLeftValue (h : Heap) (id : VarId) : Except Failure Bool := do
  return (← h.lookup id).leftValue

def isWriteProtected (h : Heap) (id : VarId) : Except Failure Bool := do
  let target ← h.resolve id
  return (← h.lookup id).writeProtected || (← h.lookup target).writeProtected

def owner (h : Heap) (id : VarId) : Except Failure Owner := do
  return (← h.lookup id).owner

-- More steps than there are slots: a walk along owners or elements that takes
-- as many runs in a circle.
def walkBudget (h : Heap) : Nat :=
  h.arena.slots.size + 1

def owningScopeWithin (h : Heap) : Nat → VarId → Except Failure (Option ScopeId)
  | 0, _ => .error (.of .ownershipCycle)
  | n + 1, id => do
    match ← h.owner id with
    | .detached => pure none
    | .scope s => pure (some s)
    | .array parent => owningScopeWithin h n parent

-- The scope that owns a variable, perhaps through the arrays it lies in.
def owningScope (h : Heap) (id : VarId) : Except Failure (Option ScopeId) :=
  h.owningScopeWithin h.walkBudget id

def numeric (h : Heap) (id : VarId) : Except Failure Float := do
  match ← h.payload id with
  | .numeric n => pure n
  | other => throw (.of (.expected .numeric other.varType))

def string (h : Heap) (id : VarId) : Except Failure String := do
  match ← h.payload id with
  | .string s => pure s
  | other => throw (.of (.expected .string other.varType))

def image (h : Heap) (id : VarId) : Except Failure Image := do
  match ← h.payload id with
  | .image i => pure i
  | other => throw (.of (.expected .image other.varType))

def arrayItems (h : Heap) (id : VarId) : Except Failure (Array VarId) := do
  match ← h.payload id with
  | .array items => pure items
  | other => throw (.of (.expected .array other.varType))

def arrayLength (h : Heap) (id : VarId) : Except Failure Nat := do
  return (← h.arrayItems id).size

-- The variables that link to this one.
def linksTo (h : Heap) (id : VarId) : List VarId :=
  (h.arena.get? id).elim [] Variable.linkedBy

def toValueWithin (h : Heap) : Nat → VarId → Except Failure Value
  | 0, _ => .error (.of .ownershipCycle)
  | n + 1, id => do
    match ← h.payload id with
    | .null | .link _ => pure .null
    | .numeric x => pure (.numeric x)
    | .string s => pure (.string s)
    | .image i => pure (.image i)
    | .array items => return .array (← items.toList.mapM (toValueWithin h n))

-- The value of a variable: links are followed, elements read in depth.
def toValue (h : Heap) (id : VarId) : Except Failure Value :=
  h.toValueWithin h.walkBudget id

-- Arrays are compared element by element; values of different types differ.
def equals (h : Heap) (a b : VarId) : Except Failure Bool := do
  return (← h.toValue a) == (← h.toValue b)

def toBool (h : Heap) (id : VarId) : Except Failure Bool := do
  match ← h.payload id with
  | .null | .link _ => pure false
  | .numeric n => pure (Number.isTruthy n)
  | .string s => pure (isTruthyText s)
  | .image i => pure !i.isEmpty
  | .array items => pure !items.isEmpty

-- The variable that a write reaches, together with its handle.
def writable (h : Heap) (id : VarId) : Except Failure (VarId × Variable) := do
  let target ← h.resolve id
  if (← h.lookup id).writeProtected then throw (.of .writeProtected)
  let v ← h.lookup target
  if v.writeProtected then throw (.of .writeProtected)
  return (target, v)

end Heap

end FinLang

import FinLang.Store.Heap.Basic

namespace FinLang.Heap

def read {α : Type} (f : Heap → Except Failure α) : HeapM α :=
  ExceptT.mk fun h => (f h, h)

def fail {α : Type} (c : Cause) : HeapM α :=
  throw (.of c)

def insert (v : Variable) : StateM Heap VarId :=
  modifyGet fun h =>
    let (id, arena) := h.arena.insert v
    (id, ⟨arena⟩)

-- Changes nothing behind a stale handle.
def modifyVariable (id : VarId) (f : Variable → Variable) : StateM Heap Unit :=
  modify fun h => ⟨h.arena.modify id f⟩

def update (id : VarId) (f : Variable → Variable) : HeapM Unit := do
  if (← get).contains id then modifyVariable id f else fail (.staleVariable id)

def setPayload (id : VarId) (p : Payload) : HeapM Unit :=
  update id fun v => { v with payload := p }

def setOwner (id : VarId) (owner : Owner) : HeapM Unit :=
  update id fun v => { v with owner := owner }

def setWriteProtected (id : VarId) (flag : Bool) : HeapM Unit :=
  update id fun v => { v with writeProtected := flag }

def setLeftValueWithin (flag : Bool) : Nat → VarId → HeapM Unit
  | 0, _ => fail .ownershipCycle
  | n + 1, id => do
    update id fun v => { v with leftValue := flag }
    let items := (← read fun h => h.lookup id).payload.elements
    items.forM (setLeftValueWithin flag n)

-- Marks a variable and everything in it.
def setLeftValue (id : VarId) (flag : Bool) : HeapM Unit := do
  setLeftValueWithin flag (← get).walkBudget id

-- A new temporary. The elements of an array become its own.
def alloc (p : Payload) : StateM Heap VarId := do
  let id ← insert (.temporary p)
  p.elements.forM fun child => modifyVariable child fun v => { v with owner := .array id }
  return id

def allocNull : StateM Heap VarId :=
  alloc .null

def allocNumeric (n : Float) : StateM Heap VarId :=
  alloc (.numeric n)

def allocString (s : String) : StateM Heap VarId :=
  alloc (.string s)

mutual

-- Stores a value. An array comes into being before its elements.
def build (owner : Owner) (leftValue : Bool) : Value → StateM Heap VarId
  | v => do
    let id ← insert (.make .null owner leftValue)
    let p ← buildPayload id leftValue v
    modifyVariable id fun old => { old with payload := p }
    return id

def buildPayload (parent : VarId) (leftValue : Bool) : Value → StateM Heap Payload
  | .null => pure .null
  | .numeric n => pure (.numeric n)
  | .string s => pure (.string s)
  | .image i => pure (.image i)
  | .array items => return .array (← buildItems (.array parent) leftValue items #[])

def buildItems (owner : Owner) (leftValue : Bool) :
    List Value → Array VarId → StateM Heap (Array VarId)
  | [], built => pure built
  | v :: rest, built => do
    let id ← build owner leftValue v
    buildItems owner leftValue rest (built.push id)

end

def allocValue (v : Value) : StateM Heap VarId :=
  build .detached false v

def defaultPayload? : VarType → Option Payload
  | .null => some .null
  | .numeric => some (.numeric 0.0)
  | .string => some (.string "")
  | .image => some (.image (Image.blank 0 0))
  | .array => some (.array #[])
  | .link => none

-- Gives a null variable its type. A type once given stays.
def setType (id : VarId) (tag : VarType) : HeapM Unit := do
  let (target, v) ← read (·.writable id)
  let found := v.payload.varType
  if found == tag then
    return
  if found != .null then
    fail (.retype found tag)
  match defaultPayload? tag with
  | some p => setPayload target p
  | none => fail .linkByType

def setScalar (id : VarId) (p : Payload) : HeapM Unit := do
  let (target, v) ← read (·.writable id)
  let found := v.payload.varType
  if found != .null && found != p.varType then
    fail (.storeMismatch p.varType found)
  setPayload target p

def setNumeric (id : VarId) (n : Float) : HeapM Unit :=
  setScalar id (.numeric n)

def setString (id : VarId) (s : String) : HeapM Unit :=
  setScalar id (.string s)

def setImage (id : VarId) (i : Image) : HeapM Unit :=
  setScalar id (.image i)

-- Drops the link that a variable holds, leaving it null. Other variables stay
-- as they are.
def unsetLink (link : VarId) : HeapM Unit := do
  match (← read (·.lookup link)).payload with
  | .link target =>
    setPayload link .null
    modifyVariable target fun v => { v with linkedBy := v.linkedBy.filter (· != link) }
  | _ => pure ()

-- Points a null variable, or a link, at what the target stands for.
def setLink (link target : VarId) : HeapM Unit := do
  let target ← read (·.resolve target)
  if target = link then
    fail .selfLink
  unsetLink link
  let found := (← read (·.lookup link)).payload.varType
  if found != .null then
    fail (.linkOver found)
  setPayload link (.link target)
  modifyVariable target fun v => { v with linkedBy := v.linkedBy ++ [link] }

def allocLink (target : VarId) : HeapM VarId := do
  let id ← allocNull
  setLink id target
  return id

def freeWithin : Nat → VarId → HeapM Unit
  | 0, id => fail (.staleVariable id)
  | n + 1, id => do
    unsetLink id
    let v ← read (·.lookup id)
    v.linkedBy.forM fun link => modifyVariable link fun l => { l with payload := .null }
    modify fun h => ⟨h.arena.erase id⟩
    v.payload.elements.forM (freeWithin n)

-- Frees a variable, whoever owns it, and then its elements. Links to it become
-- null.
def free (id : VarId) : HeapM Unit := do
  freeWithin (← get).walkBudget id

-- Frees a temporary. What has an owner is left to the owner.
def release (id : VarId) : HeapM Unit := do
  match (← get).arena.get? id with
  | some v => if v.owner = .detached then free id
  | none => pure ()

def releaseAll (ids : List VarId) : HeapM Unit :=
  ids.forM release

end FinLang.Heap

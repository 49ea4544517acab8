import FinLang.Store.Heap.Write

namespace FinLang.Heap

-- Empties a variable and says what its handle and left-value flag are.
def clear (id : VarId) : HeapM (VarId × Bool) := do
  let (target, v) ← read (·.writable id)
  setPayload target .null
  v.payload.elements.forM free
  return (target, v.leftValue)

-- Replaces the contents of a variable. Its flags stay.
def writeValue (target : VarId) (value : Value) : HeapM Unit := do
  let (target, leftValue) ← clear target
  let p ← buildPayload target leftValue value
  setPayload target p

-- A variable that has a type takes values of that type only.
def checkTypes (target source : VarId) (h : Heap) : Except Failure Unit := do
  let found ← h.varType target
  let given ← h.varType source
  if found != .null && found != given then
    throw (.of (.assignMismatch given found))

-- Copies the value of the source in depth.
def copy (target source : VarId) : HeapM Unit := do
  if (← read (·.resolve target)) = (← read (·.resolve source)) then
    return
  read (checkTypes target source)
  let value ← read (·.toValue source)
  writeValue target value

-- The elements of a temporary array may be taken over.
def isSpare (v : Variable) : Bool :=
  !v.leftValue && !v.writeProtected && v.payload.varType == .array

-- Like a copy, but a temporary array hands its elements over.
def moveOrCopy (target source : VarId) : HeapM Unit := do
  let given ← read (·.resolve source)
  if !isSpare (← read (·.lookup given)) then
    copy target source
  else if (← read (·.resolve target)) = given then
    copy target source
  else
    read (checkTypes target source)
    let (target, leftValue) ← clear target
    let items := (← read (·.lookup given)).payload.elements
    setPayload given (.array #[])
    items.forM fun child => do
      setOwner child (.array target)
      setLeftValue child leftValue
    setPayload target (.array items)

-- A new temporary with the value of the source.
def duplicate (source : VarId) : HeapM VarId := do
  let value ← read (·.toValue source)
  allocValue value

end FinLang.Heap

import FinLang.Store.Heap.Write

namespace FinLang.Heap

-- New null elements for an array, put behind those given.
def growth (array : VarId) (leftValue : Bool) : Nat → Array VarId → StateM Heap (Array VarId)
  | 0, items => pure items
  | n + 1, items => do
    let id ← insert (.make .null (.array array) leftValue)
    growth array leftValue n (items.push id)

def appendItems (extra : Array VarId) : Payload → Payload
  | .array items => .array (items ++ extra)
  | _ => .array extra

-- The length of an array, a null counting as an empty one.
def elementCount : Payload → Except Failure Nat
  | .null => .ok 0
  | .array items => .ok items.size
  | other => .error (.of (.indexVariable other.varType))

-- The element at an index. An array that is too short grows, and a null becomes
-- an array.
def element (id : VarId) (index : Nat) : HeapM VarId := do
  let target ← read (·.resolve id)
  let v ← read (·.lookup target)
  let count ← read fun _ => elementCount v.payload
  if count ≤ index then
    if v.writeProtected then
      fail .growProtected
    let extra ← growth target v.leftValue (index + 1 - count) #[]
    update target fun v => { v with payload := appendItems extra v.payload }
  match (← read (·.lookup target)).payload.elements[index]? with
  | some element => return element
  | none => fail .arrayVanished

-- Appends a variable to an array, which becomes its owner.
def pushElement (array child : VarId) : HeapM Unit := do
  let target ← read (·.resolve array)
  let (reached, v) ← read (·.writable target)
  let leftValue := v.leftValue
  match v.payload.varType with
  | .null | .array =>
    update reached fun v => { v with payload := appendItems #[child] v.payload }
    setOwner child (.array target)
    setLeftValue child leftValue
  | other => fail (.appendTo other)

-- Takes an element out of its array as a temporary, leaving a null in its
-- place.
def detachElement (array : VarId) (index : Nat) : HeapM VarId := do
  let target ← read (·.resolve array)
  match (← read (·.lookup target)).payload.elements[index]? with
  | none => fail (.noElement index)
  | some taken =>
    let substitute ← insert (.make .null (.array target) false)
    update target fun v =>
      { v with payload := v.payload.mapElements fun items => items.setIfInBounds index substitute }
    setOwner taken .detached
    setLeftValue taken false
    return taken

end FinLang.Heap

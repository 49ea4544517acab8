import FinLang.Failure
import FinLang.Value.Basic

namespace FinLang

inductive Payload where
  | null
  | numeric (n : Float)
  | string (s : String)
  | image (i : Image)
  | array (items : Array VarId)
  | link (target : VarId)
deriving Inhabited

namespace Payload

def varType : Payload → VarType
  | .null => .null
  | .numeric _ => .numeric
  | .string _ => .string
  | .image _ => .image
  | .array _ => .array
  | .link _ => .link

def elements : Payload → Array VarId
  | .array items => items
  | _ => #[]

def mapElements (f : Array VarId → Array VarId) : Payload → Payload
  | .array items => .array (f items)
  | p => p

end Payload

-- Who frees a variable.
inductive Owner where
  -- A temporary: whoever holds the handle releases it.
  | detached
  | scope (id : ScopeId)
  | array (id : VarId)
deriving DecidableEq, Inhabited

structure Variable where
  payload : Payload
  owner : Owner
  -- Whether the variable may stand on the left of an assignment.
  leftValue : Bool
  writeProtected : Bool
  -- The links that point here, oldest first.
  linkedBy : List VarId
deriving Inhabited

namespace Variable

def make (payload : Payload) (owner : Owner) (leftValue : Bool) : Variable :=
  ⟨payload, owner, leftValue, false, []⟩

def temporary (payload : Payload) : Variable :=
  make payload .detached false

end Variable

end FinLang

import FinLang.Number.Arithmetic
import FinLang.Store.Heap.Copy
import FinLang.Store.Heap.Elements

namespace FinLang

namespace Operator

-- How many values an operator takes, if it takes values at all.
def arity? : Operator → Option Nat
  | .positive | .negative | .factorial | .logicNot | .bitNot | .preIncrement | .preDecrement
  | .postIncrement | .postDecrement => some 1
  | .add | .sub | .mul | .div | .mod | .power | .logicAnd | .logicOr | .logicXor | .bitAnd | .bitOr
  | .bitXor | .equal | .notEqual | .less | .greater | .lessEqual | .greaterEqual | .assign | .comma
  | .access => some 2
  | .colon | .semicolon | .leftParen | .rightParen | .leftBracket | .rightBracket | .leftBrace
  | .rightBrace | .call => none

end Operator

-- Operators on variables. The result is a new temporary, except for assignment,
-- leading steps, comma and array access, which give back an operand or an
-- element of one. The caller releases every other operand.
namespace Operation

open Heap

def numericOperand (symbol : String) : Payload → Except Failure Float
  | .numeric n => .ok n
  | other => .error (.of (.numericOperand symbol other.varType))

def number (op : Operator) (id : VarId) : HeapM Float :=
  read fun h => do numericOperand op.symbol (← h.payload id)

def allocBool (b : Bool) : StateM Heap VarId :=
  allocNumeric (Number.ofBool b)

-- Numbers add up; as soon as a string takes part the texts are joined.
def sum : Payload → Payload → Except Failure Payload
  | .numeric l, .numeric r => .ok (.numeric (l + r))
  | .string l, .string r => .ok (.string (l ++ r))
  | .string l, .numeric r => .ok (.string (l ++ Number.text r))
  | .numeric l, .string r => .ok (.string (Number.text l ++ r))
  | l, r => .error (.of (.cannotAdd l.varType r.varType))

def add (left right : VarId) : HeapM VarId := do
  let p ← read fun h => do
    let l ← h.payload left
    let r ← h.payload right
    sum l r
  alloc p

def arithmetic (op : Operator) (l r : Float) : Except Failure Float :=
  match op with
  | .sub => .ok (l - r)
  | .mul => .ok (l * r)
  | .div => if r == 0.0 then .error (.of .divisionByZero) else .ok (l / r)
  | .mod => if r == 0.0 then .error (.of .divisionByZero) else .ok (Number.remainder l r)
  | _ => .ok (l.pow r)

def compare (op : Operator) (l r : Float) : Bool :=
  match op with
  | .less => l < r
  | .greater => l > r
  | .lessEqual => l ≤ r
  | _ => l ≥ r

def logic (op : Operator) (l r : Bool) : Bool :=
  match op with
  | .logicAnd => l && r
  | .logicOr => l || r
  | _ => l != r

def bitwise (op : Operator) (l r : UInt32) : UInt32 :=
  match op with
  | .bitAnd => l &&& r
  | .bitOr => l ||| r
  | _ => l ^^^ r

def word (id : VarId) : HeapM UInt32 :=
  read fun h => do Number.toWord (← h.numeric id)

def assign (target source : VarId) : HeapM VarId := do
  if !(← read (·.isLeftValue target)) then
    fail .assignTemporary
  if ← read (·.isWriteProtected target) then
    fail .assignProtected
  moveOrCopy target source
  return target

-- A null counts as zero.
def counter (symbol : String) : Payload → Except Failure Float
  | .null => .ok 0.0
  | p => numericOperand symbol p

-- The number before the step.
def step (symbol : String) (delta : Float) (id : VarId) : HeapM Float := do
  if !(← read (·.isLeftValue id)) then
    fail (.stepTemporary symbol)
  if ← read (·.isWriteProtected id) then
    fail (.stepProtected symbol)
  let current ← read fun h => do counter symbol (← h.payload id)
  setNumeric id (current + delta)
  return current

def stepBefore (symbol : String) (delta : Float) (id : VarId) : HeapM VarId := do
  let _ ← step symbol delta id
  return id

def stepAfter (symbol : String) (delta : Float) (id : VarId) : HeapM VarId := do
  let current ← step symbol delta id
  allocNumeric current

-- Largest index that an array may grow to.
def maxArrayIndex : Nat :=
  16777216

def arrayIndex (x : Float) : Except Failure Nat :=
  match Number.index? x with
  | some i => if maxArrayIndex < i then .error (.of (.indexLimit x maxArrayIndex)) else .ok i
  | none => .error (.of (.indexNumber x))

-- An element of a variable is given as it is; an element of a temporary is
-- taken out, so that it outlives the array.
def access (target index : VarId) : HeapM VarId := do
  let found ← read (·.varType target)
  if found != .null && found != .array then
    fail (.indexValue found)
  let i ← read fun h => do arrayIndex (← h.numeric index)
  let item ← element target i
  if ← read (·.isLeftValue item) then
    return item
  else
    detachElement target i

def unary (op : Operator) (a : VarId) : HeapM VarId := do
  match op with
  | .positive => allocNumeric (← number op a)
  | .negative => allocNumeric (-(← number op a))
  | .factorial =>
    let n ← number op a
    allocNumeric (← read fun _ => Number.factorial n)
  | .logicNot => allocBool (!(← read (·.toBool a)))
  | .bitNot => allocNumeric (Number.ofWord (~~~(← word a)))
  | .preIncrement => stepBefore "++" 1.0 a
  | .preDecrement => stepBefore "--" (-1.0) a
  | .postIncrement => stepAfter "++" 1.0 a
  | .postDecrement => stepAfter "--" (-1.0) a
  | _ => fail (.notValueOperator op)

def binary (op : Operator) (a b : VarId) : HeapM VarId := do
  match op with
  | .add => add a b
  | .sub | .mul | .div | .mod | .power =>
    let l ← number op a
    let r ← number op b
    allocNumeric (← read fun _ => arithmetic op l r)
  | .logicAnd | .logicOr | .logicXor =>
    let l ← read (·.toBool a)
    let r ← read (·.toBool b)
    allocBool (logic op l r)
  | .bitAnd | .bitOr | .bitXor =>
    let l ← word a
    let r ← word b
    allocNumeric (Number.ofWord (bitwise op l r))
  | .equal => allocBool (← read (·.equals a b))
  | .notEqual => allocBool (!(← read (·.equals a b)))
  | .less | .greater | .lessEqual | .greaterEqual =>
    let l ← number op a
    let r ← number op b
    allocBool (compare op l r)
  | .assign => assign a b
  | .comma => return b
  | .access => access a b
  | _ => fail (.notValueOperator op)

-- Applies an operator to operands that have been evaluated.
def calculate (op : Operator) (operands : List VarId) : HeapM VarId :=
  match op.arity? with
  | none => fail (.notValueOperator op)
  | some wanted =>
    match wanted, operands with
    | 1, [a] => unary op a
    | 2, [a, b] => binary op a b
    | _, _ => fail (.operandCount op wanted operands.length)

end Operation

end FinLang

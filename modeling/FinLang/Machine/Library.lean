import FinLang.Machine.Basic

namespace FinLang

namespace MathFunction

def name : MathFunction → String
  | .sqrt => "sqrt"
  | .abs => "abs"
  | .floor => "floor"
  | .ceil => "ceil"
  | .sin => "sin"
  | .cos => "cos"
  | .tan => "tan"
  | .exp => "exp"
  | .log => "log"

def all : List MathFunction :=
  [.sqrt, .abs, .floor, .ceil, .sin, .cos, .tan, .exp, .log]

def apply (f : MathFunction) (x : Float) : Except Failure Float :=
  match f with
  | .sqrt => if x < 0.0 then .error (.of .rootOfNegative) else .ok x.sqrt
  | .log => if x ≤ 0.0 then .error (.of .logarithmOf) else .ok x.log
  | .abs => .ok x.abs
  | .floor => .ok x.floor
  | .ceil => .ok x.ceil
  | .sin => .ok x.sin
  | .cos => .ok x.cos
  | .tan => .ok x.tan
  | .exp => .ok x.exp

end MathFunction

-- The functions and constants that every program can use.
namespace Library

open Exec

def constants : List (String × Float) :=
  [("PI", 3.141592653589793), ("E", 2.718281828459045), ("TRUE", 1.0), ("FALSE", 0.0)]

def native (name : String) (params : List String) (n : Native) : Function :=
  ⟨name, params, .native n⟩

def functions : List Function :=
  [native "print" [] .print,
    native "len" ["x"] .len,
    native "typeof" ["x"] .typeOf,
    native "ext_arg_count" [] .extArgCount,
    native "ext_arg" ["index"] .extArg,
    native "call" ["name"] .call,
    native "call_depth" [] .callDepth,
    native "image" ["width", "height"] .image] ++
  MathFunction.all.map fun f => native f.name ["x"] (.math f)

-- An argument, bound in the scope of the call.
def argument (scope : ScopeId) (name : String) : Exec VarId := do
  match (← readScopes (·.lookup scope)).varNamed? name with
  | some id => return id
  | none => fail (.missingArgument name)

def extArgsFrom (scope : Scope) (index : Nat) : Nat → List VarId
  | 0 => []
  | n + 1 =>
    match scope.varNamed? (Function.extArgName index) with
    | some id => id :: extArgsFrom scope (index + 1) n
    | none => []

-- The arguments beyond the parameters, up to the first that is missing.
def extArgs (scope : Scope) : List VarId :=
  extArgsFrom scope 0 scope.vars.length

-- Ends a native function, with a result or without.
def finish (result : Option VarId) : Exec Unit := do
  setKind .next
  result.forM setResult

def finishWith (p : Payload) : Exec Unit := do
  finish (some (← onHeap (Heap.alloc p)))

-- The call scope of the script function that called the native one.
def callingScope (scope : ScopeId) : Exec (Option ScopeId) := do
  let parent := (← readScopes (·.lookup scope)).parent
  return parent.bind (← get).machine.store.scopes.enclosingCall

def print (scope : ScopeId) : Exec Unit := do
  let ids := extArgs (← readScopes (·.lookup scope))
  let values ← ids.mapM fun id => readHeap (·.toValue id)
  modifyMachine (·.emit (" ".intercalate (values.map Value.text)))
  finish none

def lengthOf : Payload → Except Failure Nat
  | .null => .ok 0
  | .string s => .ok s.length
  | .array items => .ok items.size
  | .image i => .ok i.size
  | other => .error (.of (.lengthOf other.varType))

def len (scope : ScopeId) : Exec Unit := do
  let x ← argument scope "x"
  let n ← readHeap fun h => do lengthOf (← h.payload x)
  finishWith (.numeric (Float.ofNat n))

def typeOf (scope : ScopeId) : Exec Unit := do
  let x ← argument scope "x"
  let found ← readHeap (·.varType x)
  finishWith (.string found.name)

def extArgCount (scope : ScopeId) : Exec Unit := do
  let count ←
    match ← callingScope scope with
    | some outer => pure (extArgs (← readScopes (·.lookup outer))).length
    | none => pure 0
  finishWith (.numeric (Float.ofNat count))

def extArg (scope : ScopeId) : Exec Unit := do
  let id ← argument scope "index"
  let x ← readHeap (·.numeric id)
  match Number.index? x with
  | none => fail .extraIndex
  | some index =>
    match ← callingScope scope with
    | none => fail .extraOutsideFunction
    | some outer =>
      match (← readScopes (·.lookup outer)).varNamed? (Function.extArgName index) with
      | some var => finish (some var)
      | none => fail (.noExtra x)

-- Calls a function by name. The remaining arguments are handed on by link.
def call (self : Interpreter) (scope : ScopeId) : Exec Unit := do
  let id ← argument scope "name"
  let name ← readHeap (·.string id)
  match (← get).machine.store.scopes.findFunction scope name with
  | none => fail (.undefinedFunction name)
  | some f =>
    let args := extArgs (← readScopes (·.lookup scope))
    let ended ← withFreshFlow (self.call f (.values args) scope)
    if ended.isExit then
      ended.result.forM setResult
      setKind .exiting
    else
      finish ended.result

-- The frame of this function itself does not count.
def callDepth (scope : ScopeId) : Exec Unit := do
  let depth := ((← get).machine.store.scopes.callStack scope).length - 1
  finishWith (.numeric (Float.ofNat depth))

def maxImageSide : Nat :=
  65536

def maxImagePixels : Nat :=
  16777216

def imageSide (scope : ScopeId) (name : String) : Exec Nat := do
  let id ← argument scope name
  let x ← readHeap (·.numeric id)
  match Number.index? x with
  | some n => if maxImageSide < n then fail (.imageSide name) else return n
  | none => fail (.imageSide name)

def image (scope : ScopeId) : Exec Unit := do
  let width ← imageSide scope "width"
  let height ← imageSide scope "height"
  if maxImagePixels < width * height then
    fail (.imageTooLarge width height maxImagePixels)
  finishWith (.image (Image.blank width height))

def math (f : MathFunction) (scope : ScopeId) : Exec Unit := do
  let id ← argument scope "x"
  let x ← readHeap (·.numeric id)
  let y ← ofExcept (f.apply x)
  finishWith (.numeric y)

-- Runs a native function in the scope of its call.
def run (self : Interpreter) (scope : ScopeId) : Native → Exec Unit
  | .print => print scope
  | .len => len scope
  | .typeOf => typeOf scope
  | .extArgCount => extArgCount scope
  | .extArg => extArg scope
  | .call => call self scope
  | .callDepth => callDepth scope
  | .image => image scope
  | .math f => math f scope
  | .signal kind => setKind kind

end Library

end FinLang

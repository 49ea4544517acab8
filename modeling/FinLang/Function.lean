import FinLang.Flow
import FinLang.Tree.Node

namespace FinLang

inductive MathFunction where
  | sqrt | abs | floor | ceil | sin | cos | tan | exp | log
deriving DecidableEq, Inhabited

-- Functions that the machine carries out itself.
inductive Native where
  | print
  | len
  | typeOf
  | extArgCount
  | extArg
  | call
  | callDepth
  | image
  | math (f : MathFunction)
  -- Added by a host application; it only sets the flow.
  | signal (kind : FlowKind)
deriving DecidableEq, Inhabited

inductive Body where
  | script (block : Node)
  | native (n : Native)
deriving Inhabited

structure Function where
  name : String
  params : List String
  body : Body
deriving Inhabited

namespace Function

-- The name of an argument beyond the parameters.
def extArgName (index : Nat) : String :=
  "__ext_arg_" ++ toString index

-- The name that an argument is bound to.
def paramName (params : List String) (index : Nat) : String :=
  match params[index]? with
  | some name => name
  | none => extArgName (index - params.length)

def text (f : Function) : String :=
  f.name ++ "(" ++ ", ".intercalate f.params ++ ")"

def isSystem (f : Function) : Bool :=
  match f.body with
  | .script _ => false
  | .native _ => true

end Function

end FinLang

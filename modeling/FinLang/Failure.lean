import FinLang.Number.Text
import FinLang.Source.Span
import FinLang.Store.Arena
import FinLang.Store.VarType
import FinLang.Token.Operator

namespace FinLang

inductive FailureKind where
  -- A handle, argument or node that should be there is not.
  | missingValue
  | invalidParameter
  -- The variable's present state forbids the operation.
  | stateError
  | notFound
  | outOfMemory
  | duplicate
  | overflow
  | notImplemented
  -- The tree does not have the expected shape.
  | readError
  -- Calls are nested beyond the limit.
  | stackOverflow
deriving DecidableEq, Inhabited

namespace FailureKind

def text : FailureKind → String
  | .missingValue => "missing value"
  | .invalidParameter => "invalid parameter"
  | .stateError => "state error"
  | .notFound => "not found"
  | .outOfMemory => "out of memory"
  | .duplicate => "duplicate"
  | .overflow => "overflow"
  | .notImplemented => "not implemented"
  | .readError => "read error"
  | .stackOverflow => "stack overflow"

-- Advice shown below a report.
def help? : FailureKind → Option String
  | .notFound => some "Declare variables with 'var' and define functions before calling them."
  | .duplicate => some "A name can be declared once per block; inner blocks may shadow it."
  | .stateError => some "Write-protected values and temporaries cannot be modified."
  | .stackOverflow => some "Check for unbounded recursion or raise --max-depth."
  | _ => none

end FailureKind

-- Everything that can go wrong while a program runs, named by cause.
inductive Cause where
  -- variables
  | staleVariable (id : VarId)
  | writeProtected
  | retype (found wanted : VarType)
  | linkByType
  | expected (wanted found : VarType)
  | storeMismatch (stored found : VarType)
  | indexVariable (found : VarType)
  | growProtected
  | arrayVanished
  | appendTo (found : VarType)
  | noElement (index : Nat)
  | selfLink
  | linkOver (found : VarType)
  | assignMismatch (source target : VarType)
  | ownershipCycle
  -- scopes
  | staleScope (id : ScopeId)
  | emptyName
  | bindTemporary (name : String)
  | duplicateVariable (name : String)
  | duplicateFunction (name : String)
  -- operators
  | notValueOperator (op : Operator)
  | operandCount (op : Operator) (wanted found : Nat)
  | numericOperand (symbol : String) (found : VarType)
  | cannotAdd (left right : VarType)
  | divisionByZero
  | factorialOf (n : Float)
  | factorialOverflow (n : Float)
  | bitwiseInteger (n : Float)
  | bitwiseRange (n : Float)
  | assignTemporary
  | assignProtected
  | stepTemporary (symbol : String)
  | stepProtected (symbol : String)
  | indexValue (found : VarType)
  | indexNumber (n : Float)
  | indexLimit (n : Float) (limit : Nat)
  -- flow
  | flowInExpression (flow : String)
  | labelNotFound (label : String)
  | outsideLoop (flow : String)
  | alreadyFailed
  -- statements
  | treeErrors (count : Nat)
  | rootNotProgram
  | labelNotInBlock (label : String)
  | declarationTarget
  | malformedDeclaration
  | malformedFunction
  | functionNameNode
  | functionParameterNode
  | branchWithoutBody
  | malformedLoop
  | forHeadParts
  | loopKeyword
  | gotoWithoutLabel
  | malformedJump
  -- expressions and calls
  | notExpression (kind : String)
  | expressionWithoutToken
  | undefinedVariable (name : String)
  | unexpectedInExpression (text : String)
  | notOperator (text : String)
  | malformedCall
  | calleeNotNamed
  | undefinedFunction (name : String)
  | callDepth (limit : Nat)
  -- built-in functions
  | missingArgument (name : String)
  | lengthOf (found : VarType)
  | extraIndex
  | extraOutsideFunction
  | noExtra (index : Float)
  | imageSide (name : String)
  | imageTooLarge (width height limit : Nat)
  | rootOfNegative
  | logarithmOf
  -- reported by a host application
  | host (kind : FailureKind) (text : String)
deriving Inhabited

namespace Cause

def kind : Cause → FailureKind
  | .staleVariable _ | .staleScope _ | .expressionWithoutToken | .missingArgument _ => .missingValue
  | .retype .. | .linkByType | .expected .. | .storeMismatch .. | .indexVariable _ | .appendTo _
  | .noElement _ | .selfLink | .linkOver _ | .assignMismatch .. | .emptyName | .bindTemporary _
  | .numericOperand .. | .cannotAdd .. | .divisionByZero | .factorialOf _ | .bitwiseInteger _
  | .indexValue _ | .indexNumber _ | .calleeNotNamed | .lengthOf _ | .extraIndex | .imageSide _
  | .imageTooLarge .. | .rootOfNegative | .logarithmOf => .invalidParameter
  | .writeProtected | .growProtected | .ownershipCycle | .assignTemporary | .assignProtected
  | .stepTemporary _ | .stepProtected _ | .alreadyFailed | .extraOutsideFunction => .stateError
  | .labelNotFound _ | .labelNotInBlock _ | .undefinedVariable _ | .undefinedFunction _
  | .noExtra _ => .notFound
  | .indexLimit .. => .outOfMemory
  | .duplicateVariable _ | .duplicateFunction _ => .duplicate
  | .factorialOverflow _ | .bitwiseRange _ => .overflow
  | .notValueOperator _ => .notImplemented
  | .arrayVanished | .operandCount .. | .flowInExpression _ | .outsideLoop _ | .treeErrors _
  | .rootNotProgram | .declarationTarget | .malformedDeclaration | .malformedFunction
  | .functionNameNode | .functionParameterNode | .branchWithoutBody | .malformedLoop
  | .forHeadParts | .loopKeyword | .gotoWithoutLabel | .malformedJump | .notExpression _
  | .unexpectedInExpression _ | .notOperator _ | .malformedCall => .readError
  | .callDepth _ => .stackOverflow
  | .host k _ => k

def quoted (s : String) : String :=
  "'" ++ s ++ "'"

def text : Cause → String
  | .staleVariable id => "variable " ++ id.text ++ " no longer exists"
  | .writeProtected => "variable is write-protected"
  | .retype found wanted => "cannot change a " ++ found.name ++ " variable into " ++ wanted.name
  | .linkByType => "use set_link to create a link"
  | .expected wanted found => "expected " ++ wanted.name ++ ", found " ++ found.name
  | .storeMismatch stored found =>
    "cannot store " ++ stored.name ++ " into a " ++ found.name ++ " variable"
  | .indexVariable found => "cannot index a " ++ found.name ++ " variable"
  | .growProtected => "cannot grow a write-protected array"
  | .arrayVanished => "array storage vanished"
  | .appendTo found => "cannot append to a " ++ found.name ++ " variable"
  | .noElement index => "no element at index " ++ toString index
  | .selfLink => "a variable cannot link to itself"
  | .linkOver found => "cannot turn a " ++ found.name ++ " variable into a link"
  | .assignMismatch source target =>
    "cannot assign " ++ source.name ++ " to a " ++ target.name ++ " variable"
  | .ownershipCycle => "array ownership runs in a circle"
  | .staleScope id => "environment " ++ id.text ++ " no longer exists"
  | .emptyName => "variable name is empty"
  | .bindTemporary name => quoted name ++ " must be bound to a left-value"
  | .duplicateVariable name => "variable " ++ quoted name ++ " is already declared in this scope"
  | .duplicateFunction name => "function " ++ quoted name ++ " is already defined in this scope"
  | .notValueOperator op => quoted op.symbol ++ " is not a value operator"
  | .operandCount op wanted found =>
    quoted op.symbol ++ " expects " ++ toString wanted ++ " operand(s), found " ++ toString found
  | .numericOperand symbol found =>
    quoted symbol ++ " needs a numeric operand, found " ++ found.name
  | .cannotAdd left right => "Cannot add " ++ left.name ++ " and " ++ right.name
  | .divisionByZero => "Division by zero"
  | .factorialOf n => "factorial needs an integer, found " ++ Number.text n
  | .factorialOverflow n => Number.text n ++ "! does not fit in a number"
  | .bitwiseInteger n => "bitwise operand must be an integer, found " ++ Number.text n
  | .bitwiseRange n => "bitwise operand " ++ Number.text n ++ " is outside the 32-bit range"
  | .assignTemporary => "assignment target is not a left-value"
  | .assignProtected => "assignment target is write-protected"
  | .stepTemporary symbol => quoted symbol ++ " needs a left-value"
  | .stepProtected symbol => quoted symbol ++ " on a write-protected variable"
  | .indexValue found => "cannot index a " ++ found.name ++ " value"
  | .indexNumber n => "array index must be a non-negative integer, found " ++ Number.text n
  | .indexLimit n limit =>
    "array index " ++ Number.text n ++ " exceeds the limit of " ++ toString limit
  | .flowInExpression flow => quoted flow ++ " cannot interrupt an expression"
  | .labelNotFound label => "label " ++ quoted label ++ " not found"
  | .outsideLoop flow => quoted flow ++ " outside of a loop"
  | .alreadyFailed => "execution already failed"
  | .treeErrors count => "cannot run a syntax tree with " ++ toString count ++ " error(s)"
  | .rootNotProgram => "syntax tree root is not a program"
  | .labelNotInBlock label => "label " ++ quoted label ++ " not found in this block"
  | .declarationTarget => "declaration target is not a name"
  | .malformedDeclaration => "malformed declaration"
  | .malformedFunction => "malformed function definition"
  | .functionNameNode => "function name is not an identifier"
  | .functionParameterNode => "function parameter is not an identifier"
  | .branchWithoutBody => "branch without a body"
  | .malformedLoop => "malformed loop"
  | .forHeadParts => "'for' head needs three parts"
  | .loopKeyword => "loop without 'for' or 'while'"
  | .gotoWithoutLabel => "'goto' without a label"
  | .malformedJump => "malformed jump statement"
  | .notExpression kind => "expected an expression, found " ++ kind
  | .expressionWithoutToken => "expression node without a token"
  | .undefinedVariable name => "undefined variable " ++ quoted name
  | .unexpectedInExpression t => "unexpected " ++ quoted t ++ " in expression"
  | .notOperator t => quoted t ++ " is not an operator"
  | .malformedCall => "malformed call"
  | .calleeNotNamed => "only named functions can be called"
  | .undefinedFunction name => "undefined function " ++ quoted name
  | .callDepth limit => "call depth exceeded the limit of " ++ toString limit
  | .missingArgument name => "missing argument " ++ quoted name
  | .lengthOf found => "len() is not defined for " ++ found.name
  | .extraIndex => "ext_arg() needs a non-negative integer index"
  | .extraOutsideFunction => "ext_arg() called outside of a function"
  | .noExtra index => "no extended argument " ++ Number.plainText index
  | .imageSide name => "image " ++ name ++ " must be an integer in 0..=65536"
  | .imageTooLarge width height limit =>
    "image of " ++ toString width ++ "x" ++ toString height ++ " exceeds " ++ toString limit ++
      " pixels"
  | .rootOfNegative => "sqrt() of a negative number"
  | .logarithmOf => "log() of a non-positive number"
  | .host _ t => t

end Cause

-- A cause and, once known, the place in the source.
structure Failure where
  cause : Cause
  span : Option Span
deriving Inhabited

namespace Failure

def of (c : Cause) : Failure :=
  ⟨c, none⟩

-- The first place given is the most precise one, and stays.
def locate (f : Failure) (s : Span) : Failure :=
  { f with span := f.span <|> some s }

def kind (f : Failure) : FailureKind :=
  f.cause.kind

def message (f : Failure) : String :=
  f.cause.text

def text (f : Failure) : String :=
  f.kind.text ++ ": " ++ f.message

end Failure

end FinLang

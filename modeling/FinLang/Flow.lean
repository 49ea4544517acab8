import FinLang.Failure

namespace FinLang

-- What a statement asks of the constructs around it.
inductive FlowKind where
  | next
  | returning
  | continuing
  | breaking
  | goto (label : String)
  | exiting
  | failed
deriving DecidableEq, Inhabited

namespace FlowKind

def text : FlowKind → String
  | .next => "next"
  | .returning => "return"
  | .continuing => "continue"
  | .breaking => "break"
  | .goto label => "goto " ++ label
  | .exiting => "exit"
  | .failed => "error"

end FlowKind

-- The signal and the variable that travels with a `return` or an `exit`.
-- Whoever takes the variable out or replaces it has to release it.
structure Flow where
  kind : FlowKind
  result : Option VarId
deriving DecidableEq, Inhabited

namespace Flow

def start : Flow :=
  ⟨.next, none⟩

def isNext (f : Flow) : Bool :=
  f.kind == .next

def isExit (f : Flow) : Bool :=
  f.kind == .exiting

def withKind (f : Flow) (kind : FlowKind) : Flow :=
  { f with kind := kind }

-- Inside an expression only `exit` may interrupt.
def insideExpression (f : Flow) : Except Failure Unit :=
  match f.kind with
  | .next | .exiting => .ok ()
  | other => .error (.of (.flowInExpression other.text))

-- At the end of a function or program a `return` is done and an `exit` goes
-- on. Anything else has left the construct it belongs to.
def leaveBody (f : Flow) : Except Failure Flow :=
  match f.kind with
  | .next | .exiting => .ok f
  | .returning => .ok (f.withKind .next)
  | .goto label => .error (.of (.labelNotFound label))
  | .breaking | .continuing => .error (.of (.outsideLoop f.kind.text))
  | .failed => .error (.of .alreadyFailed)

end Flow

end FinLang

import FinLang.Token.Operator

namespace FinLang

inductive Assoc where
  | left
  | right
deriving DecidableEq, Inhabited

-- How an operator binds. Brackets and statement punctuation have no row.
structure Binding where
  precedence : Nat
  assoc : Assoc
  needsLeft : Bool
  needsRight : Bool
  -- What the operator becomes when nothing stands to its left.
  leading : Option Operator
deriving DecidableEq, Inhabited

namespace Binding

def infixed (precedence : Nat) (assoc : Assoc) (leading : Option Operator) : Binding :=
  ⟨precedence, assoc, true, true, leading⟩

def leadingOp (precedence : Nat) : Binding :=
  ⟨precedence, .right, false, true, none⟩

def trailing (precedence : Nat) (leading : Operator) : Binding :=
  ⟨precedence, .left, true, false, some leading⟩

-- Whether an operator with this binding takes its operands before a later one
-- of the given precedence and associativity may have them.
def foldsBefore (b : Binding) (precedence : Nat) (assoc : Assoc) : Bool :=
  precedence < b.precedence || (b.precedence == precedence && assoc == .left)

end Binding

namespace Operator

-- Higher binds tighter.
def binding? : Operator → Option Binding
  | .postIncrement => some (.trailing 15 .preIncrement)
  | .postDecrement => some (.trailing 15 .preDecrement)
  | .factorial => some (.trailing 15 .logicNot)
  | .power => some (.infixed 14 .right none)
  | .preIncrement | .preDecrement | .positive | .negative | .logicNot | .bitNot =>
    some (.leadingOp 13)
  | .mul | .div | .mod => some (.infixed 12 .left none)
  | .add => some (.infixed 11 .left (some .positive))
  | .sub => some (.infixed 11 .left (some .negative))
  | .less | .greater | .lessEqual | .greaterEqual => some (.infixed 10 .left none)
  | .equal | .notEqual => some (.infixed 9 .left none)
  | .bitAnd => some (.infixed 8 .left none)
  | .bitXor => some (.infixed 7 .left none)
  | .bitOr => some (.infixed 6 .left none)
  | .logicAnd => some (.infixed 5 .left none)
  | .logicXor => some (.infixed 4 .left none)
  | .logicOr => some (.infixed 3 .left none)
  | .assign => some (.infixed 2 .right none)
  | .comma => some (.infixed 1 .left none)
  | .colon | .semicolon | .leftParen | .rightParen | .leftBracket | .rightBracket | .leftBrace
  | .rightBrace | .call | .access => none

end Operator

end FinLang

namespace FinLang

inductive Operator where
  | add | sub | mul | div | mod | power
  | positive | negative | factorial
  | logicNot | logicAnd | logicOr | logicXor
  | bitAnd | bitOr | bitXor | bitNot
  | equal | notEqual | less | greater | lessEqual | greaterEqual
  | assign
  | postIncrement | postDecrement | preIncrement | preDecrement
  | comma | colon | semicolon
  | leftParen | rightParen | leftBracket | rightBracket | leftBrace | rightBrace
  -- These two never come from the text: a group after a value becomes one.
  | call | access
deriving DecidableEq, Inhabited

namespace Operator

def symbol : Operator → String
  | .add | .positive => "+"
  | .sub | .negative => "-"
  | .mul => "*"
  | .div => "/"
  | .mod => "%"
  | .power => "^"
  | .factorial | .logicNot => "!"
  | .logicAnd => "&&"
  | .logicOr => "||"
  | .logicXor => "^^"
  | .bitAnd => "&"
  | .bitOr => "|"
  | .bitXor => "$$"
  | .bitNot => "~"
  | .equal => "=="
  | .notEqual => "!="
  | .less => "<"
  | .greater => ">"
  | .lessEqual => "<="
  | .greaterEqual => ">="
  | .assign => "="
  | .postIncrement | .preIncrement => "++"
  | .postDecrement | .preDecrement => "--"
  | .comma => ","
  | .colon => ":"
  | .semicolon => ";"
  | .leftParen | .call => "("
  | .rightParen => ")"
  | .leftBracket | .access => "["
  | .rightBracket => "]"
  | .leftBrace => "\x7b"
  | .rightBrace => "\x7d"

def opensBracket : Operator → Bool
  | .leftParen | .leftBracket | .leftBrace => true
  | _ => false

-- Symbols of two characters.
def ofPair : Char → Char → Option Operator
  | '+', '+' => some .postIncrement
  | '-', '-' => some .postDecrement
  | '=', '=' => some .equal
  | '!', '=' => some .notEqual
  | '<', '>' => some .notEqual
  | '>', '=' => some .greaterEqual
  | '<', '=' => some .lessEqual
  | '&', '&' => some .logicAnd
  | '|', '|' => some .logicOr
  | '^', '^' => some .logicXor
  | '~', '~' => some .logicNot
  | '$', '$' => some .bitXor
  | _, _ => none

-- Symbols of one character. A lone `!` reads as factorial until it is known
-- that no value stands before it.
def ofChar : Char → Option Operator
  | '+' => some .add
  | '-' => some .sub
  | '*' => some .mul
  | '/' => some .div
  | '%' => some .mod
  | '^' => some .power
  | '=' => some .assign
  | '<' => some .less
  | '>' => some .greater
  | '!' => some .factorial
  | '~' => some .bitNot
  | '&' => some .bitAnd
  | '|' => some .bitOr
  | ',' => some .comma
  | ';' => some .semicolon
  | ':' => some .colon
  | '(' => some .leftParen
  | ')' => some .rightParen
  | '[' => some .leftBracket
  | ']' => some .rightBracket
  | '\x7b' => some .leftBrace
  | '\x7d' => some .rightBrace
  | _ => none

end Operator

end FinLang

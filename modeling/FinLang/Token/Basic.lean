import FinLang.Source.Span
import FinLang.Token.Operator
import FinLang.Token.Keyword

namespace FinLang

inductive TokenKind where
  | decimal (value : Float)
  -- The contents with escapes replaced.
  | string (contents : String)
  | operator (op : Operator)
  | variable
  | keyword (word : Keyword)
  | comment
  -- Stands for an empty slot, such as the middle of `f(a,,c)`.
  | dummy
deriving BEq, Inhabited

structure Token where
  kind : TokenKind
  text : String
  position : Position
  span : Span
deriving BEq, Inhabited

namespace Token

def operator? (t : Token) : Option Operator :=
  match t.kind with
  | .operator op => some op
  | _ => none

def keyword? (t : Token) : Option Keyword :=
  match t.kind with
  | .keyword word => some word
  | _ => none

-- Tokens that stand for a value on their own.
def isValue (t : Token) : Bool :=
  match t.kind with
  | .decimal _ | .string _ | .variable | .dummy => true
  | _ => false

-- The empty slot found just before another token.
def slotBefore (t : Token) : Token :=
  ⟨.dummy, "", t.position, Span.single t.span.start⟩

def semicolonAt (p : Position) (offset : Nat) : Token :=
  ⟨.operator .semicolon, ";", p, Span.single offset⟩

end Token

end FinLang

import FinLang.Token.Basic

namespace FinLang

inductive NodeKind where
  -- A lone token: literal, name, keyword, waiting operator or open bracket.
  | single
  -- `var a, b = 1;` with one child for each declared name.
  | declare
  -- A statement list. Token `{` makes it a block with a scope of its own, token
  -- `;` a single expression statement, no token a flat list.
  | statement
  -- An operator with its operands, or a bracket group.
  | expression
  -- `name(parameters) { body }`
  | function
  -- An `if` chain as pairs of condition and body.
  | branch
  -- `while (condition) {}` or `for (start; condition; step) {}`
  | loop
  -- `name:`
  | label
  -- `goto`, `return`, `exit`, `break`, `continue`
  | jump
  | program
deriving DecidableEq, Inhabited

namespace NodeKind

def name : NodeKind → String
  | .single => "Single"
  | .declare => "Declare"
  | .statement => "Statement"
  | .expression => "Expression"
  | .function => "Function"
  | .branch => "Branch"
  | .loop => "Loop"
  | .label => "Label"
  | .jump => "Jump"
  | .program => "Program"

end NodeKind

-- Every part of a program has this one shape; what the children mean depends
-- on the kind and the token.
structure Node where
  kind : NodeKind
  token : Option Token
  children : List Node
deriving Inhabited

namespace Node

def ofToken (t : Token) : Node :=
  ⟨.single, some t, []⟩

def expression (t : Token) (children : List Node) : Node :=
  ⟨.expression, some t, children⟩

-- The condition of an `else`, which always holds.
def always : Node :=
  ⟨.expression, none, []⟩

def operator? (n : Node) : Option Operator :=
  n.token.bind Token.operator?

def keyword? (n : Node) : Option Keyword :=
  n.token.bind Token.keyword?

def isSingle (n : Node) : Bool :=
  n.kind == .single

-- The name that a plain reference to a variable spells.
def name? (n : Node) : Option String :=
  match n.kind, n.token with
  | .single, some ⟨.variable, text, _, _⟩ => some text
  | _, _ => none

-- Finished nodes that produce a value.
def isOperand (n : Node) : Bool :=
  match n.kind with
  | .expression => true
  | .single => n.token.any Token.isValue
  | _ => false

-- An operator that still waits for its right operand.
def waiting? (n : Node) : Option Operator :=
  if n.isSingle then
    n.operator?.filter fun op => !op.opensBracket && op != .semicolon
  else
    none

def openBracket? (n : Node) : Option Operator :=
  if n.isSingle then n.operator?.filter Operator.opensBracket else none

def isSeparator (n : Node) : Bool :=
  n.isSingle && n.operator? == some .semicolon

-- A keyword that still waits for the rest of its statement.
def head? (n : Node) : Option Keyword :=
  if n.isSingle then n.keyword? else none

def isStatement (n : Node) : Bool :=
  match n.kind with
  | .statement | .declare | .branch | .loop | .label | .jump | .function => true
  | .single | .expression | .program => false

def isScopedBlock (n : Node) : Bool :=
  n.kind == .statement && n.operator? == some .leftBrace

def tokenText (n : Node) : String :=
  n.token.elim "" Token.text

mutual

-- The range of the node's token or else of its first part that has one.
def span? : Node → Option Span
  | ⟨_, some t, _⟩ => some t.span
  | ⟨_, none, children⟩ => firstSpan? children

def firstSpan? : List Node → Option Span
  | [] => none
  | n :: rest => span? n <|> firstSpan? rest

end

mutual

-- Likewise for the place.
def position : Node → Position
  | ⟨_, some t, _⟩ => t.position
  | ⟨_, none, children⟩ => firstPosition children

def firstPosition : List Node → Position
  | [] => Position.unknown
  | n :: rest =>
    let p := position n
    if p = Position.unknown then firstPosition rest else p

end

mutual

-- Number literals are compared as numbers, so a tree that holds a NaN differs
-- from itself.
def same : Node → Node → Bool
  | ⟨k, t, cs⟩, ⟨k', t', cs'⟩ => k == k' && t == t' && sameList cs cs'

def sameList : List Node → List Node → Bool
  | [], [] => true
  | a :: as, b :: bs => same a b && sameList as bs
  | _, _ => false

end

instance : BEq Node :=
  ⟨same⟩

structure Row where
  depth : Nat
  kind : NodeKind
  token : Option Token

mutual

-- The nodes of the tree from the root down, children in order, put before the
-- rows given.
def rowsOnto (depth : Nat) : Node → List Row → List Row
  | ⟨kind, token, children⟩, after => ⟨depth, kind, token⟩ :: rowsOfOnto (depth + 1) children after

def rowsOfOnto (depth : Nat) : List Node → List Row → List Row
  | [], after => after
  | n :: rest, after => rowsOnto depth n (rowsOfOnto depth rest after)

end

def rows (n : Node) : List Row :=
  rowsOnto 0 n []

def Row.text (r : Row) : String :=
  let indent := String.join (List.replicate r.depth "  ")
  indent ++ r.kind.name ++ " " ++ r.token.elim "" Token.text ++ "\n"

-- One line for each node, indented by its depth.
def dump (n : Node) : String :=
  String.join (n.rows.map Row.text)

mutual

-- The operands of a chain of commas from left to right, put before the nodes
-- given.
def commaPartsOnto : Node → List Node → List Node
  | ⟨kind, token, children⟩, after =>
    if kind == .expression && token.bind Token.operator? == some .comma then
      commaPartsOfOnto children after
    else
      ⟨kind, token, children⟩ :: after

def commaPartsOfOnto : List Node → List Node → List Node
  | [], after => after
  | n :: rest, after => commaPartsOnto n (commaPartsOfOnto rest after)

end

def commaParts (n : Node) : List Node :=
  commaPartsOnto n []

end Node

end FinLang

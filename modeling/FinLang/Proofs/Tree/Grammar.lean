import Mathlib.Data.List.Forall2
import FinLang.Tree.Builder

namespace FinLang

namespace Token

def binding? (t : Token) : Option Binding :=
  t.operator?.bind Operator.binding?

-- The tokens that a tree has to account for. Commas, brackets and keywords are
-- told by its shape.
def isCounted (t : Token) : Bool :=
  match t.kind with
  | .decimal _ | .string _ | .variable => true
  | .operator op => op.binding?.isSome && op != .comma
  | _ => false

-- A token as it stands in the tree: an operator with nothing to its left has
-- become its leading form.
def Becomes (t t' : Token) : Prop :=
  t' = t ∨ ∃ op row unary, t.kind = .operator op ∧ op.binding? = some row ∧
    row.leading = some unary ∧ t' = { t with kind := .operator unary }

end Token

namespace Operator

-- The bracket that a bracket closes.
def closes? : Operator → Option Operator
  | .rightParen => some .leftParen
  | .rightBracket => some .leftBracket
  | .rightBrace => some .leftBrace
  | _ => none

end Operator

-- The brackets that are open behind a list of tokens, innermost first, or none
-- if one of them closes what it should not.
def brackets (opened : List Operator) : List Token → Option (List Operator)
  | [] => some opened
  | t :: rest =>
    match t.operator? with
    | none => brackets opened rest
    | some op =>
      if op.opensBracket then brackets (op :: opened) rest
      else
        match op.closes?, opened with
        | none, _ => brackets opened rest
        | some _, [] => none
        | some o, top :: below => if top = o then brackets below rest else none

namespace Node

mutual

-- The tokens of a tree from left to right.
def reading : Node → List Token
  | ⟨.single, token, _⟩ => token.toList
  | ⟨.label, token, _⟩ => token.toList
  | ⟨.expression, token, children⟩ =>
    match token, token.bind Token.binding?, children with
    | some t, some _, [l, r] => reading l ++ t :: reading r
    | some t, some row, [x] => if row.needsLeft then reading x ++ [t] else t :: reading x
    | _, _, cs => readingOf cs
  | ⟨_, _, children⟩ => readingOf children

def readingOf : List Node → List Token
  | [] => []
  | n :: rest => reading n ++ readingOf rest

end

-- The binary and leading operators along the right side of an expression.
def rightOps : Node → List Binding
  | ⟨.expression, some t, [x]⟩ =>
    match t.binding? with
    | some row => if row.needsLeft then [] else row :: rightOps x
    | none => []
  | ⟨.expression, some t, [_, r]⟩ =>
    match t.binding? with
    | some row => row :: rightOps r
    | none => []
  | _ => []

-- A call or an array access.
def isApplication (t : Token) : Bool :=
  t.operator? == some .call || t.operator? == some .access

-- The binary operators along its left side.
def leftOps : Node → List Binding
  | ⟨.expression, some t, [x]⟩ =>
    match t.binding? with
    | some row => if row.needsLeft then leftOps x else []
    | none => []
  | ⟨.expression, some t, [l, _]⟩ =>
    match t.binding? with
    | some row => row :: leftOps l
    | none => if isApplication t then leftOps l else []
  | _ => []

mutual

-- A tree with all that lies in it.
def subnodes : Node → List Node
  | ⟨kind, token, children⟩ => ⟨kind, token, children⟩ :: subnodesOf children

def subnodesOf : List Node → List Node
  | [] => []
  | n :: rest => subnodes n ++ subnodesOf rest

end

end Node

namespace Binding

-- An operator takes its operands before a later one of the given precedence and
-- associativity.
def Before (b : Binding) (precedence : Nat) (assoc : Assoc) : Prop :=
  precedence < b.precedence ∨ b.precedence = precedence ∧ assoc = .left

theorem foldsBefore_iff {b : Binding} {precedence : Nat} {assoc : Assoc} :
    b.foldsBefore precedence assoc = true ↔ b.Before precedence assoc := by
  simp [foldsBefore, Before]

end Binding

namespace Node

-- The precedence of calls and array accesses, which associate to the left.
def applicationPrecedence : Nat :=
  16

-- An operator has the operands that precedence and associativity give it: to
-- its left, operators that come before it, and to its right, none that it comes
-- before.
def Fits : Node → Prop
  | ⟨.expression, some t, [x]⟩ =>
    match t.binding? with
    | some row =>
      if row.needsLeft then ∀ q ∈ x.rightOps, q.Before row.precedence row.assoc
      else ∀ q ∈ x.leftOps, ¬row.Before q.precedence q.assoc
    | none => True
  | ⟨.expression, some t, [l, r]⟩ =>
    match t.binding? with
    | some row => (∀ q ∈ l.rightOps, q.Before row.precedence row.assoc) ∧
        ∀ q ∈ r.leftOps, ¬row.Before q.precedence q.assoc
    | none => isApplication t → ∀ q ∈ l.rightOps, q.Before applicationPrecedence .left
  | _ => True

-- An operator has as many operands as it needs.
def Saturated (n : Node) : Prop :=
  n.kind = .expression → ∀ row ∈ n.token.bind Token.binding?,
    n.children.length = row.needsLeft.toNat + row.needsRight.toNat

structure Sane (n : Node) : Prop where
  fits : n.Fits
  saturated : n.Saturated

def Sound (n : Node) : Prop :=
  ∀ m ∈ n.subnodes, m.Sane

-- A tree stands for a list of tokens: it has those that count in their order,
-- the brackets are nested, and every operator has its operands.
structure Reads (ts : List Token) (root : Node) : Prop where
  tokens : List.Forall₂ Token.Becomes (ts.filter Token.isCounted)
    (root.reading.filter Token.isCounted)
  brackets : FinLang.brackets [] ts = some []
  operators : root.Sound

end Node

-- What a node may stand for.
inductive Role where
  | value
  -- An item of a group.
  | item
  -- The first and the last part of the head of a `for`.
  | slot
  -- The condition of a branch.
  | condition
  | statement

-- The trees that the builder makes. A `var` among the items of a group is no
-- expression; the set says which ones there are.
inductive Parsed (S : Token → Prop) : Role → Node → Prop
  | token {t} : t.isValue = true → Parsed S .value (.ofToken t)
  | leading {t row x} : t.binding? = some row → row.needsLeft = false → Parsed S .value x →
      (Node.expression t [x]).Fits → Parsed S .value (.expression t [x])
  | trailing {t row x} : t.binding? = some row → row.needsLeft = true → row.needsRight = false →
      Parsed S .value x → (Node.expression t [x]).Fits → Parsed S .value (.expression t [x])
  | infixed {t row l r} : t.binding? = some row → row.needsLeft = true → row.needsRight = true →
      Parsed S .value l → Parsed S .value r → (Node.expression t [l, r]).Fits →
      Parsed S .value (.expression t [l, r])
  | group {t items} : t.operator? = some .leftParen → (∀ c ∈ items, Parsed S .item c) →
      Parsed S .value (.expression t items)
  | list {t items} : t.operator? = some .leftBracket → (∀ c ∈ items, Parsed S .value c) →
      Parsed S .value (.expression t items)
  | call {t callee args} : t.operator? = some .call → Parsed S .value callee →
      Parsed S .value args → args.operator? = some .leftParen →
      (Node.expression t [callee, args]).Fits → Parsed S .value (.expression t [callee, args])
  | access {t target index} : t.operator? = some .access → Parsed S .value target →
      Parsed S .value index → (Node.expression t [target, index]).Fits →
      Parsed S .value (.expression t [target, index])
  | item {n} : Parsed S .value n → Parsed S .item n
  | strayWord {t} : t.keyword? = some .varWord → S t → Parsed S .item (.ofToken t)
  | strayDeclaration {t parts} : Parsed S .statement ⟨.declare, some t, parts⟩ → S t →
      Parsed S .item ⟨.declare, some t, parts⟩
  | slot {n} : Parsed S .value n → Parsed S .slot n
  | slotWord {t} : t.keyword? = some .varWord → S t → Parsed S .slot (.ofToken t)
  | slotDeclaration {t parts} : Parsed S .statement ⟨.declare, some t, parts⟩ →
      Parsed S .slot ⟨.declare, some t, parts⟩
  | always : Parsed S .condition .always
  | condition {n} : Parsed S .value n → Parsed S .condition n
  | expression {t e} : t.operator? = some .semicolon → Parsed S .value e →
      Parsed S .statement ⟨.statement, some t, [e]⟩
  | block {t body} : t.operator? = some .leftBrace → (∀ c ∈ body, Parsed S .statement c) →
      Parsed S .statement ⟨.statement, some t, body⟩
  | declaration {t parts} : t.keyword? = some .varWord → (∀ c ∈ parts, Parsed S .value c) →
      (∀ c ∈ parts, Builder.isDeclarator c = true) → Parsed S .statement ⟨.declare, some t, parts⟩
  | goto {t target} : t.keyword? = some .gotoWord → target.name?.isSome = true →
      Parsed S .value target → Parsed S .statement ⟨.jump, some t, [target]⟩
  | leave {t word operands} : t.keyword? = some word → word = .returnWord ∨ word = .exitWord →
      (∀ c ∈ operands, Parsed S .value c) → Parsed S .statement ⟨.jump, some t, operands⟩
  | stop {t word} : t.keyword? = some word → word = .breakWord ∨ word = .continueWord →
      Parsed S .statement ⟨.jump, some t, []⟩
  | label {t} : Parsed S .statement ⟨.label, some t, []⟩
  | branch {token} {pairs : List (Node × Node)} : (∀ p ∈ pairs, Parsed S .condition p.1) →
      (∀ p ∈ pairs, Parsed S .statement p.2) → (∀ p ∈ pairs, p.2.isScopedBlock = true) →
      Parsed S .statement ⟨.branch, token, pairs.flatMap fun p => [p.1, p.2]⟩
  | whileLoop {t head body} : t.keyword? = some .whileWord → Parsed S .value head →
      Parsed S .statement body → body.isScopedBlock = true →
      Parsed S .statement ⟨.loop, some t, [head, body]⟩
  | forLoop {t opening start condition step body} : t.keyword? = some .forWord →
      opening.operator? = some .leftParen → Parsed S .slot start → Parsed S .item condition →
      Parsed S .slot step →
      Parsed S .statement body → body.isScopedBlock = true →
      Parsed S .statement ⟨.loop, some t, [.expression opening [start, condition, step], body]⟩
  | function {name opening params body} : name.name?.isSome = true → Parsed S .value name →
      opening.operator? = some .leftParen → (∀ p ∈ params, Parsed S .value p) →
      (∀ p ∈ params, p.name?.isSome = true) →
      Parsed S .statement body → body.isScopedBlock = true →
      Parsed S .statement ⟨.function, name.token, [name, .expression opening params, body]⟩

end FinLang

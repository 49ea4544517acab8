import FinLang.Source.Diagnostic
import FinLang.Tree.Node
import FinLang.Tree.Precedence

namespace FinLang

-- Tokens are pushed one at a time onto a working stack and folded into
-- expressions and statements as soon as precedence allows.
structure Builder where
  -- The top comes first.
  stack : List Node
  -- The latest complaint comes first.
  errors : List Diagnostic
deriving Inhabited

namespace Builder

def empty : Builder :=
  ⟨[], []⟩

def record (b : Builder) (d : Diagnostic) : Builder :=
  { b with errors := d :: b.errors }

def errorAtToken (b : Builder) (t : Token) (c : Complaint) : Builder :=
  b.record (.parseError t.position t.span c)

def nodeError (n : Node) (c : Complaint) : Diagnostic :=
  .parseError n.position (n.span?.getD Span.zero) c

def errorAtNode (b : Builder) (n : Node) (c : Complaint) : Builder :=
  b.record (nodeError n c)

def push (b : Builder) (n : Node) : Builder :=
  { b with stack := n :: b.stack }

def top? (b : Builder) : Option Node :=
  b.stack.head?

def topIsOperand (b : Builder) : Bool :=
  b.top?.any Node.isOperand

def topWaiting? (b : Builder) : Option Operator :=
  b.top?.bind Node.waiting?

def innermostBracket? (b : Builder) : Option Operator :=
  b.stack.findSome? Node.openBracket?

def pushDummy (b : Builder) (t : Token) : Builder :=
  b.push (.ofToken t.slotBefore)

-- Statements start at the bottom of the stack, behind a statement and behind
-- an open brace.
def isBoundary : Option Node → Bool
  | none => true
  | some n => n.isStatement || n.openBracket? == some .leftBrace

-- Folds the operators below the operand on top for as long as they bind before
-- a later operator of the given precedence and associativity.
def fold (precedence : Nat) (assoc : Assoc) (errors : List Diagnostic) (operand : Node) :
    List Node → Builder
  | [] => ⟨[operand], errors⟩
  | op :: below =>
    match op.waiting?.bind Operator.binding? with
    | none => ⟨operand :: op :: below, errors⟩
    | some row =>
      if row.foldsBefore precedence assoc then
        if row.needsLeft then
          match below with
          | [] => ⟨[operand], nodeError op .missingLeftOperand :: errors⟩
          | left :: rest =>
            if left.isOperand then
              fold precedence assoc errors ⟨.expression, op.token, [left, operand]⟩ rest
            else
              ⟨operand :: left :: rest, nodeError op .missingLeftOperand :: errors⟩
        else
          fold precedence assoc errors ⟨.expression, op.token, [operand]⟩ below
      else
        ⟨operand :: op :: below, errors⟩

def reduce (b : Builder) (precedence : Nat) (assoc : Assoc) : Builder :=
  match b.stack with
  | operand :: below =>
    if operand.isOperand then fold precedence assoc b.errors operand below else b
  | [] => b

-- Every precedence is above this one.
def lowest : Nat :=
  0

-- Drops operators left without a right operand, then folds all that wait.
def completeStack (errors : List Diagnostic) : List Node → Builder
  | [] => ⟨[], errors⟩
  | top :: below =>
    if top.isOperand then
      fold lowest .left errors top below
    else if top.waiting?.isSome then
      completeStack (nodeError top (.expectedExpressionAfter top.tokenText) :: errors) below
    else
      ⟨top :: below, errors⟩

def completeExpression (b : Builder) : Builder :=
  completeStack b.errors b.stack

def pushValue (b : Builder) (t : Token) : Builder :=
  if b.topIsOperand then b.errorAtToken t (.expectedOperatorBefore t.text) else b.push (.ofToken t)

-- A statement keyword begins a statement; `var` may also begin a part of the
-- head of a `for`.
def allowsKeyword (word : Keyword) : Option Node → Bool
  | none => true
  | some n =>
    isBoundary (some n) ||
      (word == .varWord && (n.openBracket? == some .leftParen || n.isSeparator))

def pushKeyword (b : Builder) (t : Token) (word : Keyword) : Builder :=
  if allowsKeyword word b.top? then b.push (.ofToken t)
  else b.errorAtToken t (.unexpectedKeyword word)

def pushOpen (b : Builder) (t : Token) (op : Operator) : Builder :=
  match op, b.topWaiting? with
  | .leftBrace, some waiting => b.errorAtToken t (.expectedExpressionBeforeBrace waiting)
  | _, _ => b.push (.ofToken t)

-- A comma with nothing before it inside a group stands behind an empty slot.
def opensEmptySlot (b : Builder) : Bool :=
  !b.topIsOperand &&
    (b.innermostBracket? == some .leftParen || b.innermostBracket? == some .leftBracket) &&
    b.top?.any fun n =>
      n.isSeparator || n.openBracket?.isSome || n.waiting? == some .comma

def foldTrailing (b : Builder) (op : Node) : Builder :=
  match b.stack with
  | left :: below =>
    if left.isOperand then { b with stack := ⟨.expression, op.token, [left]⟩ :: below }
    else b.errorAtNode op .missingPostfixOperand
  | [] => b.errorAtNode op .missingPostfixOperand

-- Shifts an operator whose left side has been settled.
def shift (b : Builder) (t : Token) (row : Binding) : Builder :=
  let b := if row.needsLeft then b.reduce row.precedence row.assoc else b
  if row.needsRight then b.push (.ofToken t) else b.foldTrailing (.ofToken t)

def pushOperator (b : Builder) (t : Token) (op : Operator) : Builder :=
  match op.binding? with
  | none => b.errorAtToken t (.unexpectedToken t.text)
  | some row =>
    let b := if op == .comma && b.opensEmptySlot then b.pushDummy t else b
    if row.needsLeft && !b.topIsOperand then
      match row.leading.bind fun unary => unary.binding?.map (unary, ·) with
      | some (unary, unaryRow) => b.shift { t with kind := .operator unary } unaryRow
      | none => b.errorAtToken t (.missingLeftOperandFor t.text)
    else if !row.needsLeft && b.topIsOperand then
      b.errorAtToken t (.unexpectedAfterValue t.text)
    else
      b.shift t row

def isDeclarator (n : Node) : Bool :=
  n.name?.isSome ||
    (n.operator? == some .assign && (n.children.head?.bind Node.name?).isSome)

def declarationErrors (errors : List Diagnostic) (parts : List Node) : List Diagnostic :=
  parts.foldl
    (fun es part => if isDeclarator part then es else nodeError part .declarationName :: es) errors

-- Ends the statement that a keyword began. A statement that cannot be ended is
-- dropped with a complaint.
def pushKeywordStatement (b : Builder) (t : Token) (word : Keyword) (operand : Option Node) :
    Builder :=
  match word, operand with
  | .varWord, some e =>
    let parts := e.commaParts
    ⟨⟨.declare, some t, parts⟩ :: b.stack, declarationErrors b.errors parts⟩
  | .varWord, none => b.errorAtToken t .nothingDeclared
  | .gotoWord, some target =>
    if target.name?.isSome then b.push ⟨.jump, some t, [target]⟩ else b.errorAtToken t .gotoLabel
  | .gotoWord, none => b.errorAtToken t .gotoLabel
  | .returnWord, e | .exitWord, e => b.push ⟨.jump, some t, e.toList⟩
  | .breakWord, none | .continueWord, none => b.push ⟨.jump, some t, []⟩
  | .breakWord, some _ | .continueWord, some _ => b.errorAtToken t (.expressionAfter word)
  | .ifWord, _ | .elifWord, _ | .whileWord, _ | .forWord, _ =>
    b.errorAtToken t (.blockAfterCondition word)
  | .elseWord, _ => b.errorAtToken t .blockAfterElse

-- The keyword a statement began with, together with its token.
def headToken? (n : Node) : Option (Token × Keyword) :=
  if n.isSingle then n.token.bind fun t => t.keyword?.map (t, ·) else none

-- Turns what lies above the last boundary into a statement.
def finishStatement (b : Builder) (semicolon : Token) : Builder :=
  match b.stack with
  | [] => b
  | top :: below =>
    if top.isOperand then
      match below with
      | [] => { b with stack := [⟨.statement, some semicolon, [top]⟩] }
      | under :: rest =>
        match headToken? under with
        | some (t, word) => { b with stack := rest }.pushKeywordStatement t word (some top)
        | none => { b with stack := ⟨.statement, some semicolon, [top]⟩ :: below }
    else
      match headToken? top with
      | some (t, word) => { b with stack := below }.pushKeywordStatement t word none
      | none => b

-- Ends a declaration inside the head of a `for`.
def finishHeadDeclaration (b : Builder) : Builder :=
  match b.stack with
  | top :: under :: rest =>
    match under.token, under.keyword? with
    | some t, some .varWord =>
      if top.isOperand then { b with stack := rest }.pushKeywordStatement t .varWord (some top)
      else b
    | _, _ => b
  | _ => b

-- Completes a part of a group, ended by the given token. A comma at its end
-- stands before an empty slot.
def completePart (b : Builder) (t : Token) : Builder :=
  (if b.topWaiting? == some .comma then b.pushDummy t else b).completeExpression

def topOpensPart (b : Builder) : Bool :=
  b.top?.all fun n => n.isSeparator || n.openBracket?.isSome

def endStatement (b : Builder) (t : Token) : Builder :=
  match b.innermostBracket? with
  | some .leftParen =>
    let b := (b.completePart t).finishHeadDeclaration
    let b := if b.topOpensPart then b.pushDummy t else b
    b.push (.ofToken t)
  | some .leftBracket => b.errorAtToken t .semicolonInIndex
  | _ => b.completeExpression.finishStatement t

-- The parts of a group's one expression; anything behind it is an error.
def groupChildren (errors : List Diagnostic) : List Node → List Node × List Diagnostic
  | [] => ([], errors)
  | first :: extra =>
    (first.commaParts, extra.foldl (fun es n => nodeError n .missingOperator :: es) errors)

-- One part between semicolons, ended by the given token.
def headPart (errors : List Diagnostic) (stop : Token) : List Node → Node × List Diagnostic
  | [] => (.ofToken stop.slotBefore, errors)
  | [n] => (n, errors)
  | n :: _ => (n, .parseError stop.position stop.span .missingSemicolon :: errors)

-- The parts of `(start; condition; step)`. The second argument collects the
-- current part, latest node first.
def headParts (close : Token) (errors : List Diagnostic) (current : List Node) :
    List Node → List Node × List Diagnostic
  | [] =>
    let (part, errors) := headPart errors close current.reverse
    ([part], errors)
  | n :: rest =>
    if n.isSeparator then
      let (part, errors) := headPart errors (n.token.getD close) current.reverse
      let (parts, errors) := headParts close errors [] rest
      (part :: parts, errors)
    else
      headParts close errors (n :: current) rest

-- A group behind a value is a call or an array access.
def pushGroup (b : Builder) (opening : Token) (op : Operator) (children : List Node) : Builder :=
  match b.stack with
  | [] => b.push (.expression opening children)
  | target :: below =>
    if target.isOperand then
      if op == .leftParen then
        let callToken := { opening with kind := .operator .call }
        { b with stack := .expression callToken [target, .expression opening children] :: below }
      else
        match children with
        | [index] =>
          let accessToken := { opening with kind := .operator .access }
          { b with stack := .expression accessToken [target, index] :: below }
        | _ => b.errorAtToken opening .indexCount
    else
      b.push (.expression opening children)

def isInner (n : Node) : Bool :=
  n.openBracket?.isNone

-- Takes the group above the innermost bracket off the stack.
def takeGroup (b : Builder) (t : Token) (opening : Operator) (isHead : Bool) : Builder :=
  match b.stack.dropWhile isInner with
  | [] => b.errorAtToken t (.unmatched t.text)
  | marker :: below =>
    match marker.token, marker.openBracket? with
    | some openToken, some op =>
      if op == opening then
        let items := (b.stack.takeWhile isInner).reverse
        let (children, errors) :=
          if isHead then headParts t b.errors [] items else groupChildren b.errors items
        pushGroup ⟨below, errors⟩ openToken op children
      else
        b.errorAtToken t (.mismatched t.text op)
    | _, _ => b

def closeGroup (b : Builder) (t : Token) (opening : Operator) : Builder :=
  let b := b.completePart t
  if (b.stack.takeWhile isInner).any Node.isSeparator then
    let b := b.finishHeadDeclaration
    let b := if b.top?.any Node.isSeparator then b.pushDummy t else b
    b.takeGroup t opening true
  else
    b.takeGroup t opening false

-- A name before a colon, at the start of a statement, is a label.
def pushLabel (b : Builder) (t : Token) : Builder :=
  match b.stack with
  | top :: below =>
    if top.name?.isSome && isBoundary below.head? then
      { b with stack := ⟨.label, top.token, []⟩ :: below }
    else
      b.errorAtToken t .unexpectedColon
  | [] => b.errorAtToken t .unexpectedColon

-- Whether an `if` chain has an even number of parts and no `else` yet.
def isOpenBranch (n : Node) : Bool :=
  n.kind == .branch && n.children.length % 2 == 0 &&
    !(n.children.reverse[1]?.any fun condition => condition.token.isNone)

def extendBranch (branch condition block : Node) : Node :=
  { branch with children := branch.children ++ [condition, block] }

-- The stack has been cleared down to what stood before the keyword.
def pushConditional (b : Builder) (keywordNode condition block : Node) (word : Keyword) : Builder :=
  if condition.kind == .expression && condition.operator? == some .leftParen then
    match word with
    | .ifWord => b.push ⟨.branch, keywordNode.token, [condition, block]⟩
    | .elifWord =>
      match b.stack with
      | branch :: below =>
        if isOpenBranch branch then
          { b with stack := extendBranch branch condition block :: below }
        else
          b.errorAtNode keywordNode .elifWithoutIf
      | [] => b.errorAtNode keywordNode .elifWithoutIf
    | .whileWord => b.push ⟨.loop, keywordNode.token, [condition, block]⟩
    | _ =>
      if condition.children.length = 3 then b.push ⟨.loop, keywordNode.token, [condition, block]⟩
      else b.errorAtNode keywordNode .forHead
  else
    b.errorAtNode keywordNode (.conditionAfter word)

def takesCondition : Keyword → Bool
  | .ifWord | .elifWord | .whileWord | .forWord => true
  | _ => false

def defineFunction (b : Builder) (call block : Node) : Builder :=
  match call.children with
  | [name, params] =>
    if name.name?.isSome then
      if params.children.all fun p => p.name?.isSome then
        b.push ⟨.function, name.token, [name, params, block]⟩
      else
        b.errorAtNode name .functionParameters
    else
      b.errorAtNode name .functionName
  | first :: _ =>
    b.errorAtNode first (if first.name?.isSome then .functionParameters else .functionName)
  | [] => b.record (.parseError Position.unknown Span.zero .functionName)

-- Gives a finished block to what stands before it.
def attachBlock (b : Builder) (block : Node) (close : Token) : Builder :=
  match b.stack with
  | [] => b.push block
  | top :: below =>
    if top.head? == some .elseWord then
      let b := { b with stack := below }
      match below with
      | branch :: rest =>
        if isOpenBranch branch then { b with stack := extendBranch branch .always block :: rest }
        else b.errorAtNode top .elseWithoutIf
      | [] => b.errorAtNode top .elseWithoutIf
    else if isBoundary (some top) then
      b.push block
    else if !top.isOperand then
      b.errorAtToken close .unexpectedBlock
    else
      match below, below.head?.bind Node.head? with
      | keywordNode :: rest, some word =>
        if takesCondition word then
          { b with stack := rest }.pushConditional keywordNode top block word
        else
          b.errorAtToken close .unexpectedBlockAfterExpression
      | _, _ =>
        if top.operator? == some .call && isBoundary below.head? then
          { b with stack := below }.defineFunction top block
        else
          b.errorAtToken close .unexpectedBlockAfterExpression

-- Collects the statements down to the open brace.
def takeBody (errors : List Diagnostic) (body : List Node) :
    List Node → List Node × List Diagnostic × List Node
  | [] => (body, errors, [])
  | n :: rest =>
    if n.openBracket? == some .leftBrace then (body, errors, n :: rest)
    else if n.isStatement then takeBody errors (n :: body) rest
    else takeBody (nodeError n .incompleteInBlock :: errors) body rest

def closeBlock (b : Builder) (t : Token) : Builder :=
  match b.innermostBracket? with
  | none => b.errorAtToken t (.unmatched "\x7d")
  | some .leftBrace =>
    -- The last statement of a block may go without its semicolon.
    let b :=
      if isBoundary b.top? then b
      else b.completeExpression.finishStatement (.semicolonAt t.position t.span.start)
    match takeBody b.errors [] b.stack with
    | (body, errors, marker :: below) =>
      attachBlock ⟨below, errors⟩ ⟨.statement, marker.token, body⟩ t
    | (body, errors, []) => errorAtToken ⟨body.reverse, errors⟩ t (.unmatched "\x7d")
  | some opened => b.errorAtToken t (.mismatched "\x7d" opened)

def pushToken (b : Builder) (t : Token) : Builder :=
  match t.kind with
  | .comment => b
  | .decimal _ | .string _ | .variable | .dummy => b.pushValue t
  | .keyword word => b.pushKeyword t word
  | .operator op =>
    match op with
    | .leftParen | .leftBracket | .leftBrace => b.pushOpen t op
    | .rightParen => b.closeGroup t .leftParen
    | .rightBracket => b.closeGroup t .leftBracket
    | .rightBrace => b.closeBlock t
    | .semicolon => b.endStatement t
    | .colon => b.pushLabel t
    | op => b.pushOperator t op

def pushTokens (b : Builder) (ts : List Token) : Builder :=
  ts.foldl pushToken b

-- A missing last semicolon is supplied at the end of the source.
def closeLast (b : Builder) (sourceLength : Nat) : Builder :=
  if b.innermostBracket?.isNone && !isBoundary b.top? then
    let b := b.completeExpression
    let p := b.top?.elim Position.start Node.position
    b.finishStatement (.semicolonAt p sourceLength)
  else
    b

-- What is left around an unclosed bracket is reported through the bracket.
def leftoverErrors (unclosed : Bool) (errors : List Diagnostic) (nodes : List Node) :
    List Diagnostic :=
  nodes.foldl
    (fun es n =>
      match n.openBracket? with
      | some op => nodeError n (.unclosed op) :: es
      | none => if n.isStatement || unclosed then es else nodeError n .incomplete :: es)
    errors

def program (b : Builder) : Node :=
  ⟨.program, none, b.stack.reverse.filter fun n => n.openBracket?.isNone && n.isStatement⟩

end Builder

end FinLang

import FinLang.Proofs.Tree.Grammar

namespace FinLang

-- What a part of an expression is printed for. The slots of a group are ended by
-- a comma, or by the bracket that closes it.
inductive Form where
  | value
  | group
  | slots (stop : Token)

-- A bracket and the one that closes it.
structure Token.Brackets (opening close : Token) (op : Operator) : Prop where
  opening : opening.operator? = some op
  close : ∃ o, close.kind = .operator o ∧ o.closes? = some op
  inner : op = .leftParen ∨ op = .leftBracket

-- An expression whose operators fit their operands, and the tokens that it is
-- printed as. An empty slot has no token; what stands for it in the tree is
-- placed just before the next one.
inductive Prints : Form → Node → List Token → Prop
  | token {t} : t.isValue = true → Prints .value (.ofToken t) [t]
  | leading {t u row x ts} : Token.Becomes u t → t.binding? = some row → row.needsLeft = false →
      Prints .value x ts → (Node.expression t [x]).Fits →
      Prints .value (.expression t [x]) (u :: ts)
  | trailing {t row x ts} : t.binding? = some row → row.needsLeft = true →
      row.needsRight = false → Prints .value x ts → (Node.expression t [x]).Fits →
      Prints .value (.expression t [x]) (ts ++ [t])
  | infixed {t row l r ts us} : t.binding? = some row → row.needsLeft = true →
      row.needsRight = true → Prints .value l ts → Prints .value r us →
      (Node.expression t [l, r]).Fits → Prints .value (.expression t [l, r]) (ts ++ t :: us)
  | bracketed {n ts} : Prints .group n ts → Prints .value n ts
  | call {callee opening args ts us} : Prints .value callee ts →
      Prints .group (.expression opening args) us → opening.operator? = some .leftParen →
      (Node.expression { opening with kind := .operator .call }
        [callee, .expression opening args]).Fits →
      Prints .value (.expression { opening with kind := .operator .call }
        [callee, .expression opening args]) (ts ++ us)
  | access {target opening index ts us} : Prints .value target ts →
      Prints .group (.expression opening [index]) us → opening.operator? = some .leftBracket →
      (Node.expression { opening with kind := .operator .access } [target, index]).Fits →
      Prints .value (.expression { opening with kind := .operator .access } [target, index])
        (ts ++ us)
  | empty {opening close op} : Token.Brackets opening close op →
      Prints .group (.expression opening []) [opening, close]
  | filled {opening close op n ts} : Token.Brackets opening close op →
      Prints (.slots close) n ts →
      Prints .group (.expression opening n.commaParts) (opening :: ts ++ [close])
  | only {stop n ts} : Prints .value n ts → Prints (.slots stop) n ts
  | firstEmpty {stop} : stop.operator? = some .comma →
      Prints (.slots stop) (.ofToken stop.slotBefore) []
  | next {stop comma l r ts us} : comma.operator? = some .comma → Prints (.slots comma) l ts →
      Prints .value r us → (Node.expression comma [l, r]).Fits →
      Prints (.slots stop) (.expression comma [l, r]) (ts ++ comma :: us)
  | nextEmpty {stop comma l ts} : comma.operator? = some .comma → Prints (.slots comma) l ts →
      Prints (.slots stop) (.expression comma [l, .ofToken stop.slotBefore]) (ts ++ [comma])

-- `var` with the names that it declares, as it stands before a semicolon.
inductive PrintsDeclaration : Node → List Token → Prop
  | mk {t e ts} : t.kind = .keyword .varWord → Prints .value e ts →
      (∀ c ∈ e.commaParts, Builder.isDeclarator c = true) →
      PrintsDeclaration ⟨.declare, some t, e.commaParts⟩ (t :: ts)

-- A part of the head of a `for`, ended by the given token.
inductive PrintsPart (stop : Token) : Node → List Token → Prop
  | expression {e ts} : Prints .value e ts → PrintsPart stop e ts
  | empty : PrintsPart stop (.ofToken stop.slotBefore) []

-- The first part may be a declaration.
inductive PrintsStart (stop : Token) : Node → List Token → Prop
  | part {n ts} : PrintsPart stop n ts → PrintsStart stop n ts
  | declaration {n ts} : PrintsDeclaration n ts → PrintsStart stop n ts

-- What statements are printed for. A chain is an `if` with any number of `elif`s
-- behind it.
inductive Layout where
  | statement
  | chain
  | block
  | body

-- Statements and the tokens that they are printed as.
inductive PrintsAll : Layout → List Node → List Token → Prop
  | none : PrintsAll .body [] []
  | more {ns n ts us} : PrintsAll .body ns ts → PrintsAll .statement [n] us →
      PrintsAll .body (ns ++ [n]) (ts ++ us)
  | block {opening close ns ts} : opening.kind = .operator .leftBrace →
      close.kind = .operator .rightBrace → PrintsAll .body ns ts →
      PrintsAll .block [⟨.statement, some opening, ns⟩] (opening :: ts ++ [close])
  | nested {n ts} : PrintsAll .block [n] ts → PrintsAll .statement [n] ts
  | expression {e ts semicolon} : Prints .value e ts → semicolon.kind = .operator .semicolon →
      PrintsAll .statement [⟨.statement, some semicolon, [e]⟩] (ts ++ [semicolon])
  | declaration {n ts semicolon} : PrintsDeclaration n ts → semicolon.kind = .operator .semicolon →
      PrintsAll .statement [n] (ts ++ [semicolon])
  | goto {t name semicolon} : t.kind = .keyword .gotoWord → name.kind = .variable →
      semicolon.kind = .operator .semicolon →
      PrintsAll .statement [⟨.jump, some t, [.ofToken name]⟩] [t, name, semicolon]
  | leave {t word semicolon} : t.kind = .keyword word → word = .returnWord ∨ word = .exitWord →
      semicolon.kind = .operator .semicolon →
      PrintsAll .statement [⟨.jump, some t, []⟩] [t, semicolon]
  | leaveWith {t word e ts semicolon} : t.kind = .keyword word →
      word = .returnWord ∨ word = .exitWord → Prints .value e ts →
      semicolon.kind = .operator .semicolon →
      PrintsAll .statement [⟨.jump, some t, [e]⟩] (t :: ts ++ [semicolon])
  | stop {t word semicolon} : t.kind = .keyword word → word = .breakWord ∨ word = .continueWord →
      semicolon.kind = .operator .semicolon →
      PrintsAll .statement [⟨.jump, some t, []⟩] [t, semicolon]
  | label {name colon} : name.kind = .variable → colon.kind = .operator .colon →
      PrintsAll .statement [⟨.label, some name, []⟩] [name, colon]
  | function {name opening params body ts us} : name.kind = .variable →
      opening.operator? = some .leftParen → Prints .group (.expression opening params) ts →
      (∀ p ∈ params, p.name?.isSome = true) → PrintsAll .block [body] us →
      PrintsAll .statement [⟨.function, some name, [.ofToken name, .expression opening params, body]⟩]
        (name :: ts ++ us)
  | ifThen {t opening items body ts us} : t.kind = .keyword .ifWord →
      opening.operator? = some .leftParen → Prints .group (.expression opening items) ts →
      PrintsAll .block [body] us →
      PrintsAll .chain [⟨.branch, some t, [.expression opening items, body]⟩] (t :: ts ++ us)
  | elif {branch t opening items body ts us vs} : PrintsAll .chain [branch] ts →
      t.kind = .keyword .elifWord → opening.operator? = some .leftParen →
      Prints .group (.expression opening items) us → PrintsAll .block [body] vs →
      PrintsAll .chain [Builder.extendBranch branch (.expression opening items) body]
        (ts ++ t :: us ++ vs)
  | branch {n ts} : PrintsAll .chain [n] ts → PrintsAll .statement [n] ts
  | otherwise {branch t body ts us} : PrintsAll .chain [branch] ts → t.kind = .keyword .elseWord →
      PrintsAll .block [body] us →
      PrintsAll .statement [Builder.extendBranch branch .always body] (ts ++ t :: us)
  | whileLoop {t opening items body ts us} : t.kind = .keyword .whileWord →
      opening.operator? = some .leftParen → Prints .group (.expression opening items) ts →
      PrintsAll .block [body] us →
      PrintsAll .statement [⟨.loop, some t, [.expression opening items, body]⟩] (t :: ts ++ us)
  | forLoop {t opening first second close start condition step body ss cs us vs} :
      t.kind = .keyword .forWord → opening.kind = .operator .leftParen →
      first.kind = .operator .semicolon → second.kind = .operator .semicolon →
      close.kind = .operator .rightParen → PrintsStart first start ss →
      PrintsPart second condition cs → PrintsPart close step us → PrintsAll .block [body] vs →
      PrintsAll .statement [⟨.loop, some t, [.expression opening [start, condition, step], body]⟩]
        (t :: opening :: ss ++ first :: cs ++ second :: us ++ close :: vs)

-- A program and the tokens that it is printed as.
inductive PrintsProgram : Node → List Token → Prop
  | mk {body ts} : PrintsAll .body body ts → PrintsProgram ⟨.program, none, body⟩ ts

end FinLang

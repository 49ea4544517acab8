import Mathlib.Data.List.Induction
import FinLang.Proofs.Tree.Pushing
import FinLang.Proofs.Tree.Statements

namespace FinLang

namespace Token

variable {t : Token} {word : Keyword} {op : Operator}

theorem keyword?_of_kind (ht : t.kind = .keyword word) : t.keyword? = some word := by
  simp [keyword?, ht]

theorem operator?_of_kind (ht : t.kind = .operator op) : t.operator? = some op := by
  simp [operator?, ht]

theorem isValue_of_name (ht : t.kind = .variable) : t.isValue = true := by
  simp [isValue, ht]

end Token

namespace Node

variable {n : Node} {t : Token}

theorem openBracket?_of_isStatement (h : n.isStatement = true) : n.openBracket? = none := by
  obtain ⟨kind, token, children⟩ := n
  cases kind <;> first | rfl | cases h

theorem isOperand_of_isStatement (h : n.isStatement = true) : n.isOperand = false := by
  obtain ⟨kind, token, children⟩ := n
  cases kind <;> first | rfl | cases h

theorem row?_of_isStatement (h : n.isStatement = true) : n.row? = none := by
  obtain ⟨kind, token, children⟩ := n
  cases kind <;> first | rfl | cases h

theorem head?_of_isStatement (h : n.isStatement = true) : n.head? = none := by
  obtain ⟨kind, token, children⟩ := n
  cases kind <;> first | rfl | cases h

theorem name?_ofToken (ht : t.kind = .variable) : (ofToken t).name? = some t.text := by
  obtain ⟨kind, text, position, span⟩ := t
  cases ht
  rfl

end Node

namespace Builder

open Node (Value)

variable {n x : Node} {s rest : List Node} {t : Token} {row : Binding} {op : Operator}
  {errors : List Diagnostic} {word : Keyword} {ts : List Token} {b : Builder}

-- What an expression may begin on.
structure Ground (s : List Node) : Prop where
  room : Room s
  row? : s.head?.bind Node.row? = none

-- Where a statement begins, at the bottom or in a block.
structure Idle (s : List Node) : Prop where
  boundary : isBoundary s.head? = true
  level : (opens s).head? = none ∨ (opens s).head? = some .leftBrace

theorem Pushes.onto (h : Pushes .value n ts) (hs : Ground s) :
    (Builder.mk s errors).pushTokens ts = ⟨n.spine s, errors⟩ :=
  h s errors hs.room (pending_of_row? hs.row?) (clear_of_row? hs.row?)

theorem Ground.keyword (ht : t.kind = .keyword word) : Ground (.ofToken t :: s) where
  room n hn := by
    cases hn
    exact Token.isValue_of_keyword (Token.keyword?_of_kind ht)
  row? := by
    simp [Node.row?, Node.waiting?, Node.isSingle, Node.ofToken, Node.operator?,
      Token.operator?_of_keyword (Token.keyword?_of_kind ht)]

theorem Ground.operator (ht : t.operator? = some op) (hop : op.binding? = none) :
    Ground (.ofToken t :: s) where
  room n hn := by
    cases hn
    exact Token.isValue_of_operator ht
  row? := by
    rw [List.head?_cons, Option.bind_some, Node.row?, Node.waiting?]
    simp only [Node.isSingle, Node.ofToken, Node.operator?, Option.bind_some, ht, beq_self_eq_true,
      if_true]
    cases h : (!op.opensBracket && op != .semicolon) <;> simp [Option.filter, h, hop]

theorem Ground.statement (hn : n.isStatement = true) : Ground (n :: s) where
  room m hm := by
    cases hm
    exact Node.isOperand_of_isStatement hn
  row? := Node.row?_of_isStatement hn

-- A boundary is a statement or an open brace.
theorem boundary_cases (h : isBoundary (n :: s).head? = true) :
    n.isStatement = true ∨ ∃ t, n.isSingle = true ∧ n.token = some t ∧
      t.operator? = some .leftBrace := by
  refine (Bool.or_eq_true_iff.mp h).imp_right fun hopen => ?_
  obtain ⟨kind, token, children⟩ := n
  cases kind <;> try cases hopen
  cases token with
  | none => cases hopen
  | some t =>
    have hop := beq_iff_eq.mp hopen
    exact ⟨t, rfl, rfl, (Option.filter_eq_some_iff.mp hop).1⟩

namespace Idle

theorem nil : Idle [] :=
  ⟨rfl, .inl rfl⟩

theorem brace (ht : t.kind = .operator .leftBrace) : Idle (.ofToken t :: s) := by
  have hop := Token.operator?_of_kind ht
  constructor
  · simp [isBoundary, hop, Option.filter, Operator.opensBracket]
  · simp [opens_cons, hop, Option.filter, Operator.opensBracket]

theorem statement (hs : Idle s) (hn : n.isStatement = true) : Idle (n :: s) := by
  constructor
  · simp [isBoundary, hn]
  · simpa [opens_cons, Node.openBracket?_of_isStatement hn] using hs.level

theorem ground (hs : Idle s) : Ground s := by
  cases s with
  | nil => exact ⟨nofun, rfl⟩
  | cons n s =>
    rcases boundary_cases hs.boundary with hn | ⟨t, hsingle, htoken, hop⟩
    · exact .statement hn
    · obtain ⟨kind, token, children⟩ := n
      cases htoken
      have hkind : kind = .single := by simpa [Node.isSingle] using hsingle
      subst hkind
      constructor
      · rintro m hm
        cases hm
        simp [Node.isOperand, Token.isValue_of_operator hop]
      · simp [Node.row?, Node.waiting?, Node.isSingle, Node.operator?, hop, Option.filter,
          Operator.opensBracket]

theorem head? (hs : Idle s) : s.head?.bind Node.head? = none := by
  cases s with
  | nil => rfl
  | cons n s =>
    rcases boundary_cases hs.boundary with hn | ⟨t, hsingle, htoken, hop⟩
    · exact Node.head?_of_isStatement hn
    · simp [Node.head?, hsingle, Node.keyword?, htoken, Token.keyword?_of_operator hop]

end Idle

-- The operators that wait are no brackets.
theorem opens_spine (hn : n.Value) : opens (n.spine s) = opens s := by
  fun_induction Node.spine n s with
  | case2 t x below row hrow hleft ih =>
    rw [ih (hn.of_unary hrow), opens_cons, Node.openBracket?_of_binding hrow]
    rfl
  | case4 t l r below row hrow ih =>
    obtain ⟨hl, hr, -⟩ := hn.of_binary hrow
    rw [ih hr, opens_cons, opens_cons, Node.openBracket?_of_binding hrow, hl.openBracket?_eq_none]
    rfl
  | _ => exact opens_of_value hn _

section Statements

-- A keyword at the start of a statement,
theorem pushToken_word (hs : Idle s) (ht : t.kind = .keyword word) :
    (Builder.mk s errors).pushToken t = ⟨.ofToken t :: s, errors⟩ := by
  have hallow : allowsKeyword word s.head? = true := by
    rw [allowsKeyword_eq, hs.boundary, Bool.true_or]
  simp [pushToken, ht, pushKeyword, top?, hallow, push]

-- and the semicolon that ends it.
theorem pushToken_semicolon (ht : t.kind = .operator .semicolon)
    (hlevel : (opens s).head? = none ∨ (opens s).head? = some .leftBrace) :
    (Builder.mk s errors).pushToken t = (Builder.mk s errors).completeExpression.finishStatement t := by
  have hinner : (Builder.mk s errors).innermostBracket? = (opens s).head? := innermostBracket?_eq
  simp only [pushToken, ht, endStatement, hinner]
  rcases hlevel with h | h <;> rw [h]

theorem pushTokens_expression {semicolon : Token} (hs : Idle s) (h : Prints .value n ts)
    (hsemi : semicolon.kind = .operator .semicolon) :
    (Builder.mk s errors).pushTokens (ts ++ [semicolon]) =
      ⟨⟨.statement, some semicolon, [n]⟩ :: s, errors⟩ := by
  have hlevel : (opens (n.spine s)).head? = none ∨ (opens (n.spine s)).head? = some .leftBrace := by
    rw [opens_spine h.value]
    exact hs.level
  rw [pushTokens_append, (pushes_of_prints h).onto hs.ground, pushTokens_cons, pushTokens_nil,
    pushToken_semicolon hsemi hlevel, completeExpression_spine h.value hs.ground.row?]
  unfold finishStatement
  cases s with
  | nil => simp [h.value.isOperand]
  | cons under rest => simp [h.value.isOperand, headToken?_of_boundary hs.boundary]

-- A keyword and the expression that belongs to it.
theorem pushTokens_wordWith {semicolon : Token} (hs : Idle s) (ht : t.kind = .keyword word)
    (h : Prints .value n ts) (hsemi : semicolon.kind = .operator .semicolon) :
    (Builder.mk s errors).pushTokens (t :: ts ++ [semicolon]) =
      (Builder.mk s errors).pushKeywordStatement t word (some n) := by
  have hlevel : (opens (n.spine (.ofToken t :: s))).head? = none ∨
      (opens (n.spine (.ofToken t :: s))).head? = some .leftBrace := by
    rw [opens_spine h.value, opens_of_word (Token.keyword?_of_kind ht)]
    exact hs.level
  have hground : Ground (.ofToken t :: s) := .keyword ht
  rw [List.cons_append, pushTokens_cons, pushToken_word hs ht, pushTokens_append,
    (pushes_of_prints h).onto hground, pushTokens_cons, pushTokens_nil,
    pushToken_semicolon hsemi hlevel, completeExpression_spine h.value hground.row?]
  simp [finishStatement, h.value.isOperand, headToken?_ofToken, Token.keyword?_of_kind ht]

theorem pushTokens_wordAlone {semicolon : Token} (hs : Idle s) (ht : t.kind = .keyword word)
    (hsemi : semicolon.kind = .operator .semicolon) :
    (Builder.mk s errors).pushTokens [t, semicolon] =
      (Builder.mk s errors).pushKeywordStatement t word none := by
  have hword := Token.keyword?_of_kind ht
  have hlevel : (opens (.ofToken t :: s)).head? = none ∨
      (opens (.ofToken t :: s)).head? = some .leftBrace := by
    rw [opens_of_word hword]
    exact hs.level
  have hwait : (Node.ofToken t).waiting? = none := by
    simp [Node.waiting?, Node.isSingle, Node.ofToken, Node.operator?,
      Token.operator?_of_keyword hword]
  rw [pushTokens_cons, pushToken_word hs ht, pushTokens_cons, pushTokens_nil,
    pushToken_semicolon hsemi hlevel]
  simp [completeExpression, completeStack, finishStatement, Token.isValue_of_keyword hword, hwait,
    headToken?_ofToken, hword]

theorem declarationErrors_of_declarators {parts : List Node}
    (h : ∀ c ∈ parts, isDeclarator c = true) : declarationErrors errors parts = errors := by
  induction parts with
  | nil => rfl
  | cons part rest ih =>
    have hpart := h part (List.mem_cons_self ..)
    simp only [declarationErrors, List.foldl_cons, hpart, if_true]
    exact ih fun c hc => h c (List.mem_cons_of_mem _ hc)

theorem pushTokens_label {name colon : Token} (hs : Idle s) (hname : name.kind = .variable)
    (hcolon : colon.kind = .operator .colon) :
    (Builder.mk s errors).pushTokens [name, colon] = ⟨⟨.label, some name, []⟩ :: s, errors⟩ := by
  have htoken : (Node.ofToken name).token = some name := rfl
  rw [pushTokens_cons, pushToken_value (Token.isValue_of_name hname) hs.ground.room, pushTokens_cons,
    pushTokens_nil]
  simp [pushToken, hcolon, pushLabel, Node.name?_ofToken hname, hs.boundary, htoken]

end Statements

section Blocks

variable {block : Node} {opening close : Token} {items body : List Node} {us : List Token}

theorem takeBody_statements {marker : Node} (h : ∀ n ∈ items, n.isStatement = true)
    (hmarker : marker.openBracket? = some .leftBrace) :
    takeBody errors body (items.reverse ++ marker :: s) = (items ++ body, errors, marker :: s) := by
  induction items using List.reverseRecOn generalizing body with
  | nil => simp [takeBody, hmarker]
  | append_singleton rest n ih =>
    have hn := h n (by simp)
    have hrest := @ih (n :: body) fun m hm => h m (by simp [hm])
    simp only [List.reverse_append, List.reverse_singleton, List.cons_append]
    rw [takeBody]
    simp [Node.openBracket?_of_isStatement hn, hn, hrest]

theorem Idle.statements (hs : Idle s) (h : ∀ n ∈ items, n.isStatement = true) :
    Idle (items.reverse ++ s) := by
  induction items using List.reverseRecOn with
  | nil => exact hs
  | append_singleton rest n ih =>
    rw [List.reverse_append]
    exact (ih fun m hm => h m (by simp [hm])).statement (h n (by simp))

theorem opens_statements (h : ∀ n ∈ items, n.isStatement = true) :
    opens (items.reverse ++ s) = opens s := by
  induction items using List.reverseRecOn with
  | nil => rfl
  | append_singleton rest n ih =>
    rw [List.reverse_append, List.reverse_singleton, List.singleton_append, List.cons_append,
      opens_cons, Node.openBracket?_of_isStatement (h n (by simp))]
    exact ih fun m hm => h m (by simp [hm])

-- The statements between two braces become a block.
theorem pushTokens_block (ho : opening.kind = .operator .leftBrace)
    (hc : close.kind = .operator .rightBrace) (hitems : ∀ n ∈ items, n.isStatement = true)
    (hbody : (Builder.mk (.ofToken opening :: s) errors).pushTokens ts =
      ⟨items.reverse ++ .ofToken opening :: s, errors⟩)
    (hwait : (Builder.mk s errors).topWaiting? = none) :
    (Builder.mk s errors).pushTokens (opening :: ts ++ [close]) =
      (Builder.mk s errors).attachBlock ⟨.statement, some opening, items⟩ close := by
  have hop := Token.operator?_of_kind ho
  have hmarker : (Node.ofToken opening).openBracket? = some .leftBrace := by
    simp [hop, Option.filter, Operator.opensBracket]
  have hidle : Idle (items.reverse ++ .ofToken opening :: s) := (Idle.brace ho).statements hitems
  have hinner : (Builder.mk (items.reverse ++ .ofToken opening :: s) errors).innermostBracket? =
      some .leftBrace := by
    rw [innermostBracket?_eq, opens_statements hitems, opens_of_opening hop rfl]
    rfl
  have hopen : (Builder.mk s errors).pushToken opening = ⟨.ofToken opening :: s, errors⟩ := by
    simp [pushToken, ho, pushOpen, hwait, push]
  rw [List.cons_append, pushTokens_cons, hopen, pushTokens_append, hbody, pushTokens_cons,
    pushTokens_nil]
  simp only [pushToken, hc, closeBlock, hinner, top?, hidle.boundary, if_true,
    takeBody_statements hitems hmarker, List.append_nil]
  rfl

theorem attachBlock_idle (hs : Idle s) :
    (Builder.mk s errors).attachBlock block close = ⟨block :: s, errors⟩ := by
  have hhead := hs.head?
  have hbound := hs.boundary
  cases s with
  | nil => rfl
  | cons top below =>
    rw [List.head?_cons, Option.bind_some] at hhead
    rw [List.head?_cons] at hbound
    simp [attachBlock, hhead, hbound, push]

-- A block behind a condition,
theorem attachBlock_condition (ht : t.kind = .keyword word) (hword : takesCondition word = true) :
    (Builder.mk (.expression opening items :: .ofToken t :: s) errors).attachBlock block close =
      (Builder.mk s errors).pushConditional (.ofToken t) (.expression opening items) block word := by
  have hhead : (Node.ofToken t).head? = some word := Token.keyword?_of_kind ht
  have hnot : (Node.expression opening items).head? = none := rfl
  have hbound : isBoundary (some (Node.expression opening items)) = false := rfl
  have hop : (Node.expression opening items).isOperand = true := rfl
  simp [attachBlock, hnot, hbound, hop, hhead, hword, -Node.head?_ofToken]

-- behind `else`,
theorem attachBlock_else {branch : Node} (ht : t.kind = .keyword .elseWord)
    (hopen : isOpenBranch branch = true) :
    (Builder.mk (.ofToken t :: branch :: s) errors).attachBlock block close =
      ⟨extendBranch branch .always block :: s, errors⟩ := by
  have hhead : (Node.ofToken t).head? = some .elseWord := Token.keyword?_of_kind ht
  simp [attachBlock, hhead, hopen, -Node.head?_ofToken]

-- and behind what looks like a call.
theorem attachBlock_call {callee args : Node} (hs : Idle s) :
    (Builder.mk (.expression { opening with kind := .operator .call } [callee, args] :: s)
      errors).attachBlock block close =
      (Builder.mk s errors).defineFunction
        (.expression { opening with kind := .operator .call } [callee, args]) block := by
  have hhead := hs.head?
  have hop : (Node.expression { opening with kind := .operator .call } [callee, args]).operator? =
    some .call := rfl
  have hnot : (Node.expression { opening with kind := .operator .call } [callee, args]).head? =
    none := rfl
  have hbound : isBoundary (some (Node.expression { opening with kind := .operator .call }
    [callee, args])) = false := rfl
  have hoperand : (Node.expression { opening with kind := .operator .call }
    [callee, args]).isOperand = true := rfl
  cases s with
  | nil =>
    have hbottom : isBoundary none = true := rfl
    simp [attachBlock, hnot, hbound, hoperand, hop, hbottom]
  | cons under rest =>
    rw [List.head?_cons, Option.bind_some] at hhead
    have hunder : isBoundary (some under) = true := hs.boundary
    simp [attachBlock, hnot, hbound, hoperand, hop, hhead, hunder]

theorem topWaiting?_of_expression :
    (Builder.mk (.expression t items :: s) errors).topWaiting? = none :=
  rfl

theorem topWaiting?_of_word (ht : t.kind = .keyword word) :
    (Builder.mk (.ofToken t :: s) errors).topWaiting? = none := by
  simp [topWaiting?, top?, Node.waiting?, Node.isSingle, Node.ofToken, Node.operator?,
    Token.operator?_of_keyword (Token.keyword?_of_kind ht)]

theorem Idle.topWaiting? (hs : Idle s) : (Builder.mk s errors).topWaiting? = none := by
  cases s with
  | nil => rfl
  | cons n s =>
    rcases boundary_cases hs.boundary with hn | ⟨t, hsingle, htoken, hop⟩
    · obtain ⟨kind, token, children⟩ := n
      cases kind <;> first | rfl | cases hn
    · simp [Builder.topWaiting?, top?, Node.waiting?, hsingle, Node.operator?, htoken, hop,
        Option.filter, Operator.opensBracket]

-- A group on something that is no value.
theorem pushTokens_group (h : Prints .group (.expression opening items) ts) (hs : Ground s) :
    (Builder.mk s errors).pushTokens ts = ⟨.expression opening items :: s, errors⟩ := by
  obtain ⟨opening', op, items', heq, -, -, hpush⟩ := pushes_of_prints h
  cases heq
  rw [hpush, pushGroup_room hs.room]

theorem isOpenBranch_extend {branch : Node} (h : isOpenBranch branch = true) :
    isOpenBranch (extendBranch branch (.expression opening items) block) = true := by
  simp only [isOpenBranch, Bool.and_eq_true, beq_iff_eq] at h
  obtain ⟨⟨hkind, heven⟩, -⟩ := h
  simp only [isOpenBranch, extendBranch, hkind, List.length_append, List.length_cons,
    List.length_nil, List.reverse_append, Bool.and_eq_true, beq_iff_eq]
  refine ⟨⟨trivial, by omega⟩, ?_⟩
  simp [Node.expression]

end Blocks

section Heads

variable {opening close stop : Token} {ss us : List Token}

-- What a part of the head of a `for` stands behind.
structure InHead (s : List Node) : Prop where
  ground : Ground s
  level : (opens s).head? = some .leftParen
  top : ∃ t below, s = .ofToken t :: below ∧
    (t.operator? = some .semicolon ∨ t.operator? = some .leftParen)

-- Parts of a head that are complete.
structure IsPart (n : Node) : Prop where
  inner : n.openBracket? = none
  separator : n.isSeparator = false

theorem IsPart.value (hn : n.Value) : IsPart n :=
  ⟨hn.openBracket?_eq_none, hn.not_isSeparator⟩

theorem InHead.topOpensPart (hs : InHead s) : (Builder.mk s errors).topOpensPart = true := by
  obtain ⟨t, below, rfl, ht | ht⟩ := hs.top <;>
    simp [Builder.topOpensPart, top?, ht, Option.filter, Operator.opensBracket]

theorem InHead.finishHeadDeclaration (hs : InHead s) :
    (Builder.mk s errors).finishHeadDeclaration = ⟨s, errors⟩ := by
  obtain ⟨t, below, rfl, ht⟩ := hs.top
  have hnot : t.isValue = false := ht.elim Token.isValue_of_operator Token.isValue_of_operator
  unfold Builder.finishHeadDeclaration
  cases below with
  | nil => rfl
  | cons under rest =>
    simp only
    split
    · simp [hnot]
    · rfl

theorem InHead.finishHeadDeclaration_value (hs : InHead s) :
    (Builder.mk (n :: s) errors).finishHeadDeclaration = ⟨n :: s, errors⟩ := by
  obtain ⟨t, below, rfl, ht⟩ := hs.top
  have hnot : (Node.ofToken t).keyword? = none :=
    ht.elim Token.keyword?_of_operator Token.keyword?_of_operator
  simp [Builder.finishHeadDeclaration, hnot, -Node.keyword?_ofToken]

theorem completePart_spine (hn : n.Value) (hs : Ground s) :
    (Builder.mk (n.spine s) errors).completePart t = ⟨n :: s, errors⟩ := by
  obtain ⟨x, rest, hspine, hx⟩ := exists_spine (s := s) hn
  have hwait : (Builder.mk (n.spine s) errors).topWaiting? = none := by
    simp [topWaiting?, top?, hspine, hx.not_waiting]
  simp [completePart, hwait, completeExpression_spine hn hs.row?]

theorem InHead.completePart (hs : InHead s) :
    (Builder.mk s errors).completePart t = ⟨s, errors⟩ := by
  obtain ⟨u, below, rfl, hu⟩ := hs.top
  have hnot : u.isValue = false := hu.elim Token.isValue_of_operator Token.isValue_of_operator
  have hwait : (Node.ofToken u).waiting? = none := by
    rcases hu with hu | hu <;> simp [Node.waiting?, Node.isSingle, Node.ofToken, Node.operator?, hu,
      Option.filter, Operator.opensBracket]
  simp [Builder.completePart, topWaiting?, top?, completeExpression, completeStack, hnot, hwait]

theorem IsPart.slot : IsPart (.ofToken t.slotBefore) :=
  ⟨rfl, rfl⟩

-- The tokens of a part leave it on the stack, or nothing for an empty one.
theorem settle_part (h : PrintsPart stop n ts) (hs : InHead s) (errors : List Diagnostic) :
    ∃ s₁ s₂, (Builder.mk s errors).pushTokens ts = ⟨s₁, errors⟩ ∧ opens s₁ = opens s ∧
      (Builder.mk s₁ errors).completePart stop = ⟨s₂, errors⟩ ∧
      (s₂ = n :: s ∧ n.Value ∨ s₂ = s ∧ n = .ofToken stop.slotBefore) := by
  cases h with
  | expression he =>
    exact ⟨_, _, (pushes_of_prints he).onto hs.ground, opens_spine he.value,
      completePart_spine he.value hs.ground, .inl ⟨rfl, he.value⟩⟩
  | empty => exact ⟨s, s, rfl, rfl, hs.completePart, .inr ⟨rfl, rfl⟩⟩

theorem isPart_of_prints (h : PrintsPart stop n ts) : IsPart n := by
  cases h with
  | expression he => exact .value he.value
  | empty => exact .slot

-- A semicolon in parentheses ends a part.
theorem pushToken_separator {s₁ s₂ : List Node} (hstop : stop.kind = .operator .semicolon)
    (hlevel : (opens s).head? = some .leftParen)
    (hpart : (Builder.mk s errors).completePart stop = ⟨s₁, errors⟩)
    (hdeclare : (Builder.mk s₁ errors).finishHeadDeclaration = ⟨s₂, errors⟩) :
    (Builder.mk s errors).pushToken stop =
      (if (Builder.mk s₂ errors).topOpensPart then (Builder.mk s₂ errors).pushDummy stop
        else ⟨s₂, errors⟩).push (.ofToken stop) := by
  have hinner : (Builder.mk s errors).innermostBracket? = some .leftParen :=
    innermostBracket?_eq.trans hlevel
  simp only [pushToken, hstop, endStatement, hinner, hpart, hdeclare]

theorem not_topOpensPart (hn : IsPart n) : (Builder.mk (n :: s) errors).topOpensPart = false := by
  simp [topOpensPart, top?, hn.inner, hn.separator]

theorem pushTokens_part (h : PrintsPart stop n ts) (hs : InHead s)
    (hstop : stop.kind = .operator .semicolon) :
    (Builder.mk s errors).pushTokens (ts ++ [stop]) = ⟨.ofToken stop :: n :: s, errors⟩ := by
  obtain ⟨s₁, s₂, hpush, hopens, hpart, hcases⟩ := settle_part h hs errors
  rw [pushTokens_append, hpush, pushTokens_cons, pushTokens_nil]
  rcases hcases with ⟨rfl, hn⟩ | ⟨rfl, rfl⟩
  · rw [pushToken_separator hstop (hopens ▸ hs.level) hpart hs.finishHeadDeclaration_value]
    simp [not_topOpensPart (.value hn), push]
  · rw [pushToken_separator hstop (hopens ▸ hs.level) hpart hs.finishHeadDeclaration]
    simp [hs.topOpensPart, pushDummy, push]

theorem pushTokens_declaration (h : PrintsDeclaration n ts) (hs : InHead s)
    (hstop : stop.kind = .operator .semicolon) :
    (Builder.mk s errors).pushTokens (ts ++ [stop]) = ⟨.ofToken stop :: n :: s, errors⟩ := by
  obtain ⟨ht, he, hparts⟩ := h
  rename_i t e ts
  have hword := Token.keyword?_of_kind ht
  have hopens : opensPart s = true := by
    obtain ⟨u, below, rfl, hu | hu⟩ := hs.top <;>
      simp [opensPart, hu, Option.filter, Operator.opensBracket]
  have hallow : allowsKeyword .varWord s.head? = true := by
    rw [allowsKeyword_eq, hopens, beq_self_eq_true, Bool.and_self, Bool.or_true]
  have hvar : (Builder.mk s errors).pushToken t = ⟨.ofToken t :: s, errors⟩ := by
    simp [pushToken, ht, pushKeyword, top?, hallow, push]
  have hlevel : (opens (e.spine (.ofToken t :: s))).head? = some .leftParen := by
    rw [opens_spine he.value, opens_of_word hword]
    exact hs.level
  have hdeclared : (Builder.mk (e :: .ofToken t :: s) errors).finishHeadDeclaration =
      ⟨⟨.declare, some t, e.commaParts⟩ :: s, errors⟩ := by
    have htoken : (Node.ofToken t).token = some t := rfl
    simp only [Builder.finishHeadDeclaration, Node.keyword?_ofToken, hword, he.value.isOperand,
      if_true, htoken, pushKeywordStatement, declarationErrors_of_declarators hparts]
  have hpart : IsPart ⟨.declare, some t, e.commaParts⟩ := ⟨rfl, rfl⟩
  rw [List.cons_append, pushTokens_cons, hvar, pushTokens_append,
    (pushes_of_prints he).onto (.keyword ht), pushTokens_cons, pushTokens_nil,
    pushToken_separator hstop hlevel (completePart_spine he.value (.keyword ht)) hdeclared]
  simp [not_topOpensPart hpart, push]

theorem pushTokens_start (h : PrintsStart stop n ts) (hs : InHead s) (errors : List Diagnostic)
    (hstop : stop.kind = .operator .semicolon) :
    (Builder.mk s errors).pushTokens (ts ++ [stop]) = ⟨.ofToken stop :: n :: s, errors⟩ ∧
      IsPart n := by
  cases h with
  | part h => exact ⟨pushTokens_part h hs hstop, isPart_of_prints h⟩
  | declaration h =>
    refine ⟨pushTokens_declaration h hs hstop, ?_⟩
    cases h
    exact ⟨rfl, rfl⟩

theorem InHead.paren (ht : t.kind = .operator .leftParen) : InHead (.ofToken t :: s) := by
  have hop := Token.operator?_of_kind ht
  refine ⟨.operator hop rfl, ?_, t, s, rfl, .inr hop⟩
  rw [opens_of_opening hop rfl]
  rfl

theorem InHead.separator (ht : t.kind = .operator .semicolon) (hs : InHead s) (hn : IsPart n) :
    InHead (.ofToken t :: n :: s) := by
  have hop := Token.operator?_of_kind ht
  refine ⟨.operator hop rfl, ?_, t, _, rfl, .inl hop⟩
  simpa [opens_cons, hop, hn.inner, Option.filter, Operator.opensBracket] using hs.level

-- The three parts of a head become a group.
theorem pushTokens_head {first second : Token} {start condition step : Node} {cs : List Token}
    (hs : Ground s) (ho : opening.kind = .operator .leftParen)
    (hfirst : first.kind = .operator .semicolon) (hsecond : second.kind = .operator .semicolon)
    (hclose : close.kind = .operator .rightParen) (hstart : PrintsStart first start ss)
    (hcondition : PrintsPart second condition cs) (hstep : PrintsPart close step us) :
    (Builder.mk s errors).pushTokens
        (opening :: ((ss ++ [first]) ++ ((cs ++ [second]) ++ (us ++ [close])))) =
      ⟨.expression opening [start, condition, step] :: s, errors⟩ := by
  have hop := Token.operator?_of_kind ho
  have hmarker : (Node.ofToken opening).openBracket? = some .leftParen :=
    isInner_ofToken hop (.inl rfl)
  have hopen : (Builder.mk s errors).pushToken opening = ⟨.ofToken opening :: s, errors⟩ :=
    pushToken_opening hop (.inl rfl)
  have hin : InHead (.ofToken opening :: s) := .paren ho
  obtain ⟨hpush, hpart⟩ := pushTokens_start hstart hin errors hfirst
  have hin₁ := hin.separator hfirst hpart
  have hpart₁ := isPart_of_prints hcondition
  have hin₂ := hin₁.separator hsecond hpart₁
  have hpart₂ := isPart_of_prints hstep
  obtain ⟨s₁, s₂, hpush₂, -, hcomplete, hcases⟩ := settle_part hstep hin₂ errors
  have hnot : isInner (.ofToken opening) = false := by simp [isInner, hmarker]
  have htoken : (Node.ofToken opening).token = some opening := rfl
  have hpart' : ∀ {n : Node}, IsPart n → isInner n = true := fun hn => by simp [isInner, hn.inner]
  have hinner : ∀ {t : Token}, t.kind = .operator .semicolon → isInner (.ofToken t) = true := by
    intro t ht
    simp [isInner, Token.operator?_of_kind ht, Option.filter, Operator.opensBracket]
  have hsep : ∀ {t : Token}, t.kind = .operator .semicolon →
      (Node.ofToken t).isSeparator = true := by
    intro t ht
    simp [Token.operator?_of_kind ht]
  -- Whether the last part is empty or not, it is there when the group is taken.
  have hany : (s₂.takeWhile isInner).any Node.isSeparator = true := by
    rcases hcases with ⟨rfl, -⟩ | ⟨rfl, -⟩
    · rw [List.takeWhile_cons, if_pos (hpart' hpart₂), List.takeWhile_cons, if_pos (hinner hsecond),
        List.any_cons, List.any_cons, hsep hsecond, Bool.true_or, Bool.or_true]
    · rw [List.takeWhile_cons, if_pos (hinner hsecond), List.any_cons, hsep hsecond, Bool.true_or]
  have hready : (if (Builder.mk s₂ errors).finishHeadDeclaration.top?.any Node.isSeparator
      then (Builder.mk s₂ errors).finishHeadDeclaration.pushDummy close
      else (Builder.mk s₂ errors).finishHeadDeclaration) =
      ⟨step :: .ofToken second :: condition :: .ofToken first :: start :: .ofToken opening :: s,
        errors⟩ := by
    rcases hcases with ⟨rfl, -⟩ | ⟨rfl, rfl⟩
    · simp [hin₂.finishHeadDeclaration_value, top?, hpart₂.separator]
    · simp [hin₂.finishHeadDeclaration, top?, Token.operator?_of_kind hsecond, pushDummy, push]
  rw [pushTokens_cons, hopen, pushTokens_append, hpush, pushTokens_append,
    pushTokens_part hcondition hin₁ hsecond, pushTokens_append, hpush₂, pushTokens_cons,
    pushTokens_nil, pushToken_close hclose rfl (.inl rfl), closeGroup, hcomplete]
  simp only [hany, if_true, hready]
  simp only [takeGroup, List.takeWhile_cons, List.dropWhile_cons, hpart' hpart, hpart' hpart₁,
    hpart' hpart₂, hinner hfirst, hinner hsecond, hnot, if_true, Bool.false_eq_true, if_false,
    htoken, hmarker, beq_self_eq_true, List.reverse_cons, List.reverse_nil, List.nil_append,
    List.cons_append, headParts, hpart.separator, hpart₁.separator, hpart₂.separator, hsep hfirst,
    hsep hsecond, headPart, pushGroup_room hs.room]

end Heads

end Builder

end FinLang

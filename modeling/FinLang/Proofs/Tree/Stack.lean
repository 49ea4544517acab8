import FinLang.Proofs.Tree.Grammar

namespace FinLang

namespace Token

variable {t : Token} {row : Binding} {op : Operator} {word : Keyword}

theorem isValue_of_operator (ht : t.operator? = some op) : t.isValue = false := by
  cases hk : t.kind <;> simp_all [operator?, isValue]

theorem isValue_of_keyword (ht : t.keyword? = some word) : t.isValue = false := by
  cases hk : t.kind <;> simp_all [keyword?, isValue]

theorem operator?_of_keyword (ht : t.keyword? = some word) : t.operator? = none := by
  cases hk : t.kind <;> simp_all [keyword?, operator?]

theorem operator?_of_isValue (ht : t.isValue = true) : t.operator? = none := by
  cases hk : t.kind <;> simp_all [isValue, operator?]

theorem keyword?_of_isValue (ht : t.isValue = true) : t.keyword? = none := by
  cases hk : t.kind <;> simp_all [isValue, keyword?]

theorem keyword?_of_operator (ht : t.operator? = some op) : t.keyword? = none := by
  cases hk : t.kind <;> simp_all [operator?, keyword?]

theorem operator?_of_binding (ht : t.binding? = some row) :
    ∃ op, t.operator? = some op ∧ op.binding? = some row :=
  Option.bind_eq_some_iff.mp ht

theorem binding?_of_operator (ht : t.operator? = some op) : t.binding? = op.binding? := by
  simp [binding?, ht]

end Token

namespace Node

-- A value as the builder makes it, whatever stands in its groups.
abbrev Value (n : Node) : Prop :=
  Parsed (fun _ => True) .value n

abbrev Item (n : Node) : Prop :=
  Parsed (fun _ => True) .item n

abbrev Statement (n : Node) : Prop :=
  Parsed (fun _ => True) .statement n

-- The binding of an operator that waits for its right operand.
def row? (n : Node) : Option Binding :=
  n.waiting?.bind Operator.binding?

variable {t : Token} {row : Binding} {op : Operator} {word : Keyword} {n : Node}

@[simp] theorem isOperand_ofToken : (ofToken t).isOperand = t.isValue :=
  rfl

@[simp] theorem isStatement_ofToken : (ofToken t).isStatement = false :=
  rfl

@[simp] theorem isSeparator_ofToken :
    (ofToken t).isSeparator = (t.operator? == some .semicolon) :=
  rfl

@[simp] theorem openBracket?_ofToken :
    (ofToken t).openBracket? = t.operator?.filter Operator.opensBracket :=
  rfl

@[simp] theorem keyword?_ofToken : (ofToken t).keyword? = t.keyword? :=
  rfl

@[simp] theorem head?_ofToken : (ofToken t).head? = t.keyword? :=
  rfl

@[simp] theorem reading_ofToken : (ofToken t).reading = [t] :=
  rfl

theorem row?_ofToken (ht : t.binding? = some row) : (ofToken t).row? = some row := by
  obtain ⟨op, hop, hrow⟩ := Option.bind_eq_some_iff.mp ht
  have hnot : (!op.opensBracket && op != .semicolon) = true := by
    cases op <;> simp [Operator.binding?, Operator.opensBracket] at hrow ⊢
  simp [row?, waiting?, isSingle, ofToken, operator?, hop, Option.filter, hnot, hrow]

theorem Value.isOperand (hn : n.Value) : n.isOperand = true := by
  cases hn with
  | token ht => exact ht
  | _ => rfl

theorem Value.row?_eq_none (hn : n.Value) : n.row? = none := by
  cases hn with
  | token ht =>
    simp [row?, waiting?, isSingle, ofToken, operator?, Token.operator?_of_isValue ht]
  | _ => rfl

theorem Value.openBracket?_eq_none (hn : n.Value) : n.openBracket? = none := by
  cases hn with
  | token ht => simp [Token.operator?_of_isValue ht]
  | _ => rfl

theorem Statement.openBracket?_eq_none (hn : n.Statement) : n.openBracket? = none := by
  cases hn <;> rfl

theorem opensBracket_of_binding (hrow : op.binding? = some row) : op.opensBracket = false := by
  cases op <;> first | rfl | cases hrow

theorem openBracket?_of_binding (ht : t.binding? = some row) :
    (ofToken t).openBracket? = none := by
  obtain ⟨op, hop, hrow⟩ := Token.operator?_of_binding ht
  simp [hop, Option.filter, opensBracket_of_binding hrow]

theorem Statement.row?_eq_none (hn : n.Statement) : n.row? = none := by
  cases hn <;> rfl

end Node

namespace Builder

-- Nothing stands on top that a value could follow on.
def Room (below : List Node) : Prop :=
  ∀ n ∈ below.head?, n.isOperand = false

-- A waiting operator below leaves the operators on the left side of a value to
-- it.
def Clear (n : Node) (below : List Node) : Prop :=
  ∀ row ∈ below.head?.bind Node.row?, ∀ q ∈ n.leftOps, ¬row.Before q.precedence q.assoc

-- A value on which an operator of the given precedence and associativity can
-- follow.
structure Meshed (precedence : Nat) (assoc : Assoc) (n : Node) (below : List Node) : Prop where
  value : n.Value
  room : Room below
  clear : Clear n below
  right : ∀ q ∈ n.rightOps, q.Before precedence assoc
  left : ∀ row ∈ below.head?.bind Node.row?, ¬row.Before precedence assoc

-- Where a part of a group begins.
def opensPart (below : List Node) : Bool :=
  below.head?.any fun n => n.isSeparator || n.openBracket? == some .leftParen

-- The working stack while there is nothing to complain about, top first.
inductive Stacked : List Node → Prop
  | nil : Stacked []
  | value {n below} : n.Value → n.rightOps = [] → Room below → Clear n below → Stacked below →
      Stacked (n :: below)
  | leading {t row below} : t.binding? = some row → row.needsLeft = false → Room below →
      Stacked below → Stacked (.ofToken t :: below)
  | infixed {t row l below} : t.binding? = some row → row.needsLeft = true →
      row.needsRight = true → Meshed row.precedence row.assoc l below → Stacked below →
      Stacked (.ofToken t :: l :: below)
  | opening {t op below} : t.operator? = some op → op.opensBracket = true → Stacked below →
      Stacked (.ofToken t :: below)
  | word {t word below} : t.keyword? = some word → allowsKeyword word below.head? = true →
      Stacked below → Stacked (.ofToken t :: below)
  | separator {t part below} : t.operator? = some .semicolon → part.Item →
      opensPart below = true → Stacked below → Stacked (.ofToken t :: part :: below)
  | statement {n below} : n.Statement → isBoundary below.head? = true → Stacked below →
      Stacked (n :: below)

-- What the stack stands for: the tokens that count, in order, and the brackets
-- that are open.
def readStack : List Node → List Token
  | [] => []
  | n :: below => readStack below ++ n.reading

def tokens (stack : List Node) : List Token :=
  (readStack stack).filter Token.isCounted

def opens (stack : List Node) : List Operator :=
  stack.filterMap Node.openBracket?

-- The same, put together in another way.
structure Same (stack stack' : List Node) : Prop where
  tokens : tokens stack' = tokens stack
  opens : opens stack' = opens stack

variable {n l r x : Node} {below stack stack' stack'' : List Node} {t : Token} {row : Binding}
  {op : Operator} {precedence : Nat} {assoc : Assoc}

theorem Same.refl : Same stack stack :=
  ⟨rfl, rfl⟩

theorem Same.trans (h₁ : Same stack stack') (h₂ : Same stack' stack'') : Same stack stack'' :=
  ⟨h₂.tokens.trans h₁.tokens, h₂.opens.trans h₁.opens⟩

theorem opens_cons : opens (n :: below) = n.openBracket?.toList ++ opens below := by
  unfold opens
  rw [List.filterMap_cons]
  cases n.openBracket? <;> rfl

theorem tokens_cons :
    tokens (n :: below) = tokens below ++ n.reading.filter Token.isCounted := by
  simp [tokens, readStack]

theorem Room.nil : Room [] :=
  nofun

namespace Stacked

-- An operand on top is a value with nothing folded into it yet.
theorem value_of_isOperand (hs : Stacked (n :: below)) (hn : n.isOperand = true) :
    n.Value ∧ n.rightOps = [] ∧ Room below ∧ Clear n below ∧ Stacked below := by
  cases hs with
  | value h₁ h₂ h₃ h₄ h₅ => exact ⟨h₁, h₂, h₃, h₄, h₅⟩
  | leading ht =>
    obtain ⟨op, hop, -⟩ := Token.operator?_of_binding ht
    simp [Token.isValue_of_operator hop] at hn
  | infixed ht =>
    obtain ⟨op, hop, -⟩ := Token.operator?_of_binding ht
    simp [Token.isValue_of_operator hop] at hn
  | opening ht => simp [Token.isValue_of_operator ht] at hn
  | word ht => simp [Token.isValue_of_keyword ht] at hn
  | separator ht => simp [Token.isValue_of_operator ht] at hn
  | statement hst => cases hst <;> simp [Node.isOperand] at hn

-- What waits on top is a leading operator, or a binary one with its left
-- operand.
theorem waiting (hs : Stacked (n :: below)) (hrow : n.row? = some row) :
    ∃ t, n = .ofToken t ∧ t.binding? = some row ∧
      (row.needsLeft = false ∧ Room below ∧ Stacked below ∨
        row.needsLeft = true ∧ row.needsRight = true ∧ ∃ l rest, below = l :: rest ∧
          Meshed row.precedence row.assoc l rest ∧ Stacked rest) := by
  cases hs with
  | value hn => simp [hn.row?_eq_none] at hrow
  | leading ht hleft hroom hs =>
    cases (Node.row?_ofToken ht).symm.trans hrow
    exact ⟨_, rfl, ht, .inl ⟨hleft, hroom, hs⟩⟩
  | infixed ht hleft hright hm hs =>
    cases (Node.row?_ofToken ht).symm.trans hrow
    exact ⟨_, rfl, ht, .inr ⟨hleft, hright, _, _, rfl, hm, hs⟩⟩
  | opening ht hop =>
    simp [Node.row?, Node.waiting?, Node.isSingle, Node.ofToken, Node.operator?, ht, Option.filter,
      hop] at hrow
  | word ht =>
    simp [Node.row?, Node.waiting?, Node.isSingle, Node.ofToken, Node.operator?,
      Token.operator?_of_keyword ht] at hrow
  | separator ht =>
    simp [Node.row?, Node.waiting?, Node.isSingle, Node.ofToken, Node.operator?, ht,
      Option.filter] at hrow
  | statement hn => simp [hn.row?_eq_none] at hrow

end Stacked

-- The nodes that folding makes.
theorem infixed_spec (ht : t.binding? = some row) (hleft : row.needsLeft = true)
    (hright : row.needsRight = true) (hl : Meshed row.precedence row.assoc l below)
    (hx : x.Value) (hclear : Clear x (.ofToken t :: l :: below)) :
    (Node.expression t [l, x]).Value ∧ Clear (.expression t [l, x]) below ∧
      (Node.expression t [l, x]).rightOps = row :: x.rightOps := by
  have hrow := Node.row?_ofToken ht
  refine ⟨.infixed ht hleft hright hl.value hx ?_, ?_, ?_⟩
  · simp only [Node.Fits, Node.expression, ht]
    exact ⟨hl.right, hclear row (by simp [hrow])⟩
  · intro o ho q hq
    simp only [Node.leftOps, Node.expression, ht, List.mem_cons] at hq
    rcases hq with rfl | hq
    · exact hl.left o ho
    · exact hl.clear o ho q hq
  · simp [Node.rightOps, Node.expression, ht]

theorem leading_spec (ht : t.binding? = some row) (hleft : row.needsLeft = false)
    (hx : x.Value) (hclear : Clear x (.ofToken t :: below)) :
    (Node.expression t [x]).Value ∧ Clear (.expression t [x]) below ∧
      (Node.expression t [x]).rightOps = row :: x.rightOps := by
  have hrow := Node.row?_ofToken ht
  refine ⟨.leading ht hleft hx ?_, ?_, ?_⟩
  · simp only [Node.Fits, Node.expression, ht, hleft]
    exact hclear row (by simp [hrow])
  · intro o ho q hq
    simp [Node.leftOps, Node.expression, ht, hleft] at hq
  · simp [Node.rightOps, Node.expression, ht, hleft]

theorem same_infixed (ht : t.binding? = some row) (hl : l.Value) (hx : x.Value) :
    Same (x :: .ofToken t :: l :: below) (.expression t [l, x] :: below) := by
  refine ⟨?_, ?_⟩
  · simp [tokens, readStack, Node.reading, Node.expression, ht]
  · rw [opens_cons, opens_cons, opens_cons, opens_cons, hl.openBracket?_eq_none,
      hx.openBracket?_eq_none, Node.openBracket?_of_binding ht]
    rfl

theorem same_leading (ht : t.binding? = some row) (hleft : row.needsLeft = false) (hx : x.Value) :
    Same (x :: .ofToken t :: below) (.expression t [x] :: below) := by
  refine ⟨?_, ?_⟩
  · simp [tokens, readStack, Node.reading, Node.expression, ht, hleft]
  · rw [opens_cons, opens_cons, opens_cons, hx.openBracket?_eq_none,
      Node.openBracket?_of_binding ht]
    rfl

-- Folding takes in all that comes before the later operator, and stops there.
theorem fold_spec (errors : List Diagnostic) (hx : x.Value) (hroom : Room below)
    (hclear : Clear x below) (hright : ∀ q ∈ x.rightOps, q.Before precedence assoc)
    (hs : Stacked below) :
    ∃ y rest, fold precedence assoc errors x below = ⟨y :: rest, errors⟩ ∧
      Meshed precedence assoc y rest ∧ Stacked rest ∧ Same (x :: below) (y :: rest) := by
  fun_induction fold precedence assoc errors x below with
  | case1 x => exact ⟨x, [], rfl, ⟨hx, .nil, hclear, hright, by simp⟩, .nil, .refl⟩
  | case2 x op below hwait =>
    refine ⟨x, op :: below, rfl, ⟨hx, hroom, hclear, hright, ?_⟩, hs, .refl⟩
    simp [Node.row?, hwait]
  | case3 x op row hwait hfolds hleft =>
    obtain ⟨t, rfl, ht, ⟨hno, -⟩ | ⟨-, -, l, rest, hnil, -⟩⟩ := hs.waiting hwait
    · simp [hno] at hleft
    · cases hnil
  | case4 x op row hwait hfolds hleft left rest hoperand ih =>
    obtain ⟨t, rfl, ht, ⟨hno, -⟩ | ⟨-, hr, l, rest', hcons, hm, hs'⟩⟩ := hs.waiting hwait
    · simp [hno] at hleft
    cases hcons
    obtain ⟨hv, hc, hops⟩ := infixed_spec ht hleft hr hm hx hclear
    obtain ⟨y, stack, heq, hmesh, hstack, hsame⟩ := ih hv hm.room hc (by
      intro q hq
      rw [show (Node.mk .expression (Node.ofToken t).token [left, x]).rightOps = row :: x.rightOps
        from hops] at hq
      rcases List.mem_cons.mp hq with rfl | hq
      · exact Binding.foldsBefore_iff.mp hfolds
      · exact hright q hq) hs'
    exact ⟨y, stack, heq, hmesh, hstack, .trans (same_infixed ht hm.value hx) hsame⟩
  | case5 x op row hwait hfolds hleft left rest hoperand =>
    obtain ⟨t, rfl, ht, ⟨hno, -⟩ | ⟨-, -, l, rest', hcons, hm, -⟩⟩ := hs.waiting hwait
    · simp [hno] at hleft
    · cases hcons
      exact absurd hm.value.isOperand hoperand
  | case6 x op below row hwait hfolds hleft ih =>
    obtain ⟨t, rfl, ht, ⟨hno, hroom', hs'⟩ | ⟨hyes, -⟩⟩ := hs.waiting hwait
    · obtain ⟨hv, hc, hops⟩ := leading_spec ht hno hx hclear
      obtain ⟨y, stack, heq, hmesh, hstack, hsame⟩ := ih hv hroom' hc (by
        intro q hq
        rw [show (Node.mk .expression (Node.ofToken t).token [x]).rightOps = row :: x.rightOps
          from hops] at hq
        rcases List.mem_cons.mp hq with rfl | hq
        · exact Binding.foldsBefore_iff.mp hfolds
        · exact hright q hq) hs'
      exact ⟨y, stack, heq, hmesh, hstack, .trans (same_leading ht hno hx) hsame⟩
    · simp [hyes] at hleft
  | case7 x op below row hwait hfolds =>
    refine ⟨x, op :: below, rfl, ⟨hx, hroom, hclear, hright, fun o ho => ?_⟩, hs, .refl⟩
    have : o = row := by simpa [Node.row?, hwait, eq_comm] using ho
    rw [this, ← Binding.foldsBefore_iff]
    exact hfolds

end Builder

end FinLang

import FinLang.Proofs.Tree.Groups
import FinLang.Proofs.Tree.Printing

namespace FinLang

namespace Node

-- An expression on the stack before its right side is folded.
def spine : Node → List Node → List Node
  | ⟨.expression, some t, [x]⟩, below =>
    match t.binding? with
    | some row =>
      if row.needsLeft then ⟨.expression, some t, [x]⟩ :: below else spine x (.ofToken t :: below)
    | none => ⟨.expression, some t, [x]⟩ :: below
  | ⟨.expression, some t, [l, r]⟩, below =>
    match t.binding? with
    | some _ => spine r (.ofToken t :: l :: below)
    | none => ⟨.expression, some t, [l, r]⟩ :: below
  | n, below => n :: below

variable {n x l r : Node} {t : Token} {row : Binding} {below : List Node}

theorem spine_leading (h : t.binding? = some row) (hleft : row.needsLeft = false) :
    spine (.expression t [x]) below = spine x (.ofToken t :: below) := by
  simp [spine, expression, h, hleft]

theorem spine_infixed (h : t.binding? = some row) :
    spine (.expression t [l, r]) below = spine r (.ofToken t :: l :: below) := by
  simp [spine, expression, h]

-- With nothing to its right that waits, an expression is one node.
theorem spine_of_rightOps (h : n.rightOps = []) : spine n below = n :: below := by
  unfold spine
  unfold rightOps at h
  split
  · split
    · split
      · rfl
      · simp_all
    · rfl
  · split
    · simp_all
    · rfl
  · rfl

theorem spine_of_binding (h : t.binding? = none) {items : List Node} :
    spine (.expression t items) below = .expression t items :: below := by
  unfold spine expression
  split <;> simp_all

theorem Value.not_waiting (hn : n.Value) : n.waiting? = none := by
  cases hn with
  | token ht => simp [waiting?, isSingle, ofToken, operator?, Token.operator?_of_isValue ht]
  | _ => rfl

-- The operands of a value are values.
theorem Value.of_unary (hn : Value (.expression t [x])) (h : t.binding? = some row) : x.Value := by
  cases hn with
  | leading _ _ hx => exact hx
  | trailing _ _ _ hx => exact hx
  | group ht => cases (Builder.binding?_of_bracket ht rfl).symm.trans h
  | list ht => cases (Builder.binding?_of_bracket ht rfl).symm.trans h

theorem Value.of_binary (hn : Value (.expression t [l, r])) (h : t.binding? = some row) :
    l.Value ∧ r.Value ∧ row.needsLeft = true := by
  cases hn with
  | infixed ht hleft _ hl hr =>
    cases ht.symm.trans h
    exact ⟨hl, hr, hleft⟩
  | group ht => cases (Builder.binding?_of_bracket ht rfl).symm.trans h
  | list ht => cases (Builder.binding?_of_bracket ht rfl).symm.trans h
  | call ht => cases (Builder.binding?_of_bracket ht rfl).symm.trans h
  | access ht => cases (Builder.binding?_of_bracket ht rfl).symm.trans h

-- The operators to the right are operators of some tokens.
theorem exists_of_rightOps : ∀ q ∈ n.rightOps, ∃ t : Token, t.binding? = some q := by
  fun_induction rightOps n with
  | case2 t x row hrow hleft ih =>
    exact fun q hq => (List.mem_cons.mp hq).elim (fun h => ⟨t, h ▸ hrow⟩) (ih q)
  | case4 t l r row hrow ih =>
    exact fun q hq => (List.mem_cons.mp hq).elim (fun h => ⟨t, h ▸ hrow⟩) (ih q)
  | _ => simp

-- Each of them comes before a comma,
theorem before_comma : ∀ q ∈ n.rightOps, q.Before 1 .left := by
  intro q hq
  obtain ⟨t, ht⟩ := exists_of_rightOps q hq
  obtain ⟨op, -, hop⟩ := Token.operator?_of_binding ht
  have := Builder.precedence_pos hop
  by_cases h : q.precedence = 1
  · exact .inr ⟨h, rfl⟩
  · exact .inl (by omega)

-- and none before an application.
theorem rightOps_of_application (happ : isApplication t = true)
    (hfits : (expression t [l, r]).Fits) : l.rightOps = [] := by
  have hbind : t.binding? = none := by
    simp only [isApplication, Bool.or_eq_true, beq_iff_eq] at happ
    rcases happ with ht | ht <;> exact Builder.binding?_of_bracket ht rfl
  simp only [Fits, expression, hbind] at hfits
  rw [List.eq_nil_iff_forall_not_mem]
  intro q hq
  obtain ⟨t, ht⟩ := exists_of_rightOps q hq
  obtain ⟨op, -, hop⟩ := Token.operator?_of_binding ht
  have hbefore := hfits happ q hq
  cases op <;> cases hop <;> revert hbefore <;> simp [Binding.Before, applicationPrecedence,
    Binding.infixed, Binding.leadingOp, Binding.trailing]

end Node

namespace Prints

open Node (Value Item)

variable {form : Form} {n : Node} {ts : List Token}

-- What is printed is what the builder makes.
theorem value (h : Prints form n ts) : n.Value := by
  induction h with
  | token ht => exact .token ht
  | leading _ ht hleft _ hfits ih => exact .leading ht hleft ih hfits
  | trailing ht hleft hright _ hfits ih => exact .trailing ht hleft hright ih hfits
  | infixed ht hleft hright _ _ hfits ihl ihr => exact .infixed ht hleft hright ihl ihr hfits
  | bracketed _ ih => exact ih
  | call _ _ ht hfits ihc iha => exact .call rfl ihc iha ht hfits
  | access _ _ ht hfits iht ihg =>
    refine .access rfl iht ?_ hfits
    cases ihg with
    | leading h => cases (Builder.binding?_of_bracket ht rfl).symm.trans h
    | trailing h => cases (Builder.binding?_of_bracket ht rfl).symm.trans h
    | group h => cases h.symm.trans ht
    | list _ hitems => exact hitems _ (List.mem_singleton_self _)
  | empty hb =>
    rcases hb.inner with rfl | rfl
    · exact .group hb.opening nofun
    · exact .list hb.opening nofun
  | filled hb _ ih =>
    rcases hb.inner with rfl | rfl
    · exact .group hb.opening fun c hc => .item (ih.commaParts c hc)
    · exact .list hb.opening ih.commaParts
  | only _ ih => exact ih
  | firstEmpty _ => exact .token rfl
  | next hcomma _ _ hfits ihl ihr =>
    exact .infixed (Token.binding?_of_operator hcomma) rfl rfl ihl ihr hfits
  | nextEmpty hcomma _ ih =>
    refine .infixed (Token.binding?_of_operator hcomma) rfl rfl ih (.token rfl) ?_
    simp only [Node.Fits, Node.expression, Token.binding?_of_operator hcomma, Operator.binding?]
    exact ⟨Node.before_comma, by simp [Node.leftOps, Node.ofToken]⟩

end Prints

namespace Builder

open Node (Value)

variable {n x : Node} {s rest : List Node} {t : Token} {row : Binding} {op : Operator}
  {errors : List Diagnostic} {precedence : Nat} {assoc : Assoc}

-- Folding stops at an operator that does not come before the later one.
theorem fold_stop (h : ∀ row ∈ s.head?.bind Node.row?, ¬row.Before precedence assoc) :
    fold precedence assoc errors n s = ⟨n :: s, errors⟩ := by
  cases s with
  | nil => rfl
  | cons op below =>
    unfold fold
    split
    · rfl
    · rename_i row hrow
      have hnot : row.foldsBefore precedence assoc = false := by
        rw [← Bool.not_eq_true, Binding.foldsBefore_iff]
        exact h row hrow
      simp [hnot]

-- On top of what waits there is a value.
theorem exists_spine (hn : n.Value) : ∃ x rest, n.spine s = x :: rest ∧ x.Value := by
  fun_induction Node.spine n s with
  | case2 t x below row hrow hleft ih => exact ih (hn.of_unary hrow)
  | case4 t l r below row hrow ih => exact ih (hn.of_binary hrow).2.1
  | _ => exact ⟨_, _, rfl, hn⟩

-- Folding begins with what waits to the right.
theorem fold_spine (hn : n.Value) (hright : ∀ q ∈ n.rightOps, q.Before precedence assoc)
    (hs : n.spine s = x :: rest) :
    fold precedence assoc errors x rest = fold precedence assoc errors n s := by
  fun_induction Node.spine n s with
  | case2 t y below row hrow hleft ih =>
    have hops : (Node.expression t [y]).rightOps = row :: y.rightOps := by
      simp [Node.rightOps, Node.expression, hrow, hleft]
    have hbefore : ∀ q ∈ row :: y.rightOps, q.Before precedence assoc := hops ▸ hright
    rw [ih (hn.of_unary hrow) (fun q hq => hbefore q (List.mem_cons_of_mem _ hq)) hs]
    have hfolds := Binding.foldsBefore_iff.mpr (hbefore row (List.mem_cons_self ..))
    have hwait : (Node.ofToken t).waiting?.bind Operator.binding? = some row := Node.row?_ofToken hrow
    rw [fold.eq_def]
    simp only [hwait, hfolds, hleft, if_true]
    rfl
  | case4 t l r below row hrow ih =>
    have hops : (Node.expression t [l, r]).rightOps = row :: r.rightOps := by
      simp [Node.rightOps, Node.expression, hrow]
    have hbefore : ∀ q ∈ row :: r.rightOps, q.Before precedence assoc := hops ▸ hright
    obtain ⟨hl, hr, hleft⟩ := hn.of_binary hrow
    rw [ih hr (fun q hq => hbefore q (List.mem_cons_of_mem _ hq)) hs]
    have hfolds := Binding.foldsBefore_iff.mpr (hbefore row (List.mem_cons_self ..))
    have hwait : (Node.ofToken t).waiting?.bind Operator.binding? = some row := Node.row?_ofToken hrow
    rw [fold, hwait]
    simp only [hfolds, hleft, hl.isOperand, if_true]
    rfl
  | _ =>
    cases hs
    rfl

-- An operator that follows puts the expression together,
theorem reduce_spine (hn : n.Value) (hright : ∀ q ∈ n.rightOps, q.Before precedence assoc)
    (hstop : ∀ row ∈ s.head?.bind Node.row?, ¬row.Before precedence assoc) :
    (Builder.mk (n.spine s) errors).reduce precedence assoc = ⟨n :: s, errors⟩ := by
  obtain ⟨x, rest, hspine, hx⟩ := exists_spine (s := s) hn
  simp only [reduce, hspine, hx.isOperand, if_true]
  rw [fold_spine hn hright hspine, fold_stop hstop]

-- and so does its end.
theorem completeExpression_spine (hn : n.Value) (hstop : s.head?.bind Node.row? = none) :
    (Builder.mk (n.spine s) errors).completeExpression = ⟨n :: s, errors⟩ := by
  obtain ⟨x, rest, hspine, hx⟩ := exists_spine (s := s) hn
  have hright : ∀ q ∈ n.rightOps, q.Before lowest .left := fun q hq => by
    obtain ⟨t, ht⟩ := Node.exists_of_rightOps q hq
    obtain ⟨op, -, hop⟩ := Token.operator?_of_binding ht
    exact .inl (precedence_pos hop)
  simp only [completeExpression, hspine, completeStack, hx.isOperand, if_true]
  rw [fold_spine hn hright hspine, fold_stop (by simp [hstop])]

theorem pushTokens_append (b : Builder) (ts us : List Token) :
    b.pushTokens (ts ++ us) = (b.pushTokens ts).pushTokens us :=
  List.foldl_append

theorem pushTokens_cons (b : Builder) (t : Token) (ts : List Token) :
    b.pushTokens (t :: ts) = (b.pushToken t).pushTokens ts :=
  rfl

theorem pushTokens_nil (b : Builder) : b.pushTokens [] = b :=
  rfl

theorem topIsOperand_of_room (h : Room s) : (Builder.mk s errors).topIsOperand = false := by
  cases s with
  | nil => rfl
  | cons n s => exact h n rfl

theorem topIsOperand_spine (hn : n.Value) : (Builder.mk (n.spine s) errors).topIsOperand = true := by
  obtain ⟨x, rest, hspine, hx⟩ := exists_spine (s := s) hn
  simp [topIsOperand, top?, hspine, hx.isOperand]

theorem kind_of_operator? (h : t.operator? = some op) : t.kind = .operator op := by
  unfold Token.operator? at h
  split at h
  · cases h
    assumption
  · cases h

theorem pushToken_value (ht : t.isValue = true) (hroom : Room s) :
    (Builder.mk s errors).pushToken t = ⟨.ofToken t :: s, errors⟩ := by
  have hpush : (Builder.mk s errors).pushValue t = ⟨.ofToken t :: s, errors⟩ := by
    simp [pushValue, topIsOperand_of_room hroom, push]
  unfold Token.isValue at ht
  unfold pushToken
  split at ht <;> simp_all

theorem pushToken_operator {b : Builder} (ht : t.kind = .operator op)
    (hop : op.binding? = some row) : b.pushToken t = b.pushOperator t op := by
  unfold pushToken
  rw [ht]
  cases op <;> first | rfl | cases hop

-- A leading operator may be spelled like one that follows a value.
theorem pushToken_leading {u : Token} (hu : Token.Becomes u t) (ht : t.binding? = some row)
    (hleft : row.needsLeft = false) (hroom : Room s) :
    (Builder.mk s errors).pushToken u = ⟨.ofToken t :: s, errors⟩ := by
  have htop : (Builder.mk s errors).topIsOperand = false := topIsOperand_of_room hroom
  obtain ⟨op, hop, hrow⟩ := Token.operator?_of_binding ht
  have hright := needsRight_of_needsLeft hrow hleft
  rcases hu with rfl | ⟨op', row', unary, hkind, hrow', hlead, rfl⟩
  · have hne : (op == .comma) = false := by
      cases op <;> first | rfl | (cases hrow; cases hleft)
    rw [pushToken_operator (kind_of_operator? hop) hrow, pushOperator]
    simp [hrow, hne, hleft, htop, shift, hright, push]
  · cases hop
    obtain ⟨hne, -, -⟩ := binding?_leading hrow' hlead hrow
    have hneeds : row'.needsLeft = true := by
      cases op' <;> cases hrow' <;> first | rfl | cases hlead
    rw [pushToken_operator hkind hrow', pushOperator]
    simp [hrow', hne, hneeds, htop, hlead, hrow, shift, hleft, hright, push]

-- An operator behind an expression.
theorem pushToken_shift (hn : n.Value) (ht : t.binding? = some row) (hleft : row.needsLeft = true)
    (hright : ∀ q ∈ n.rightOps, q.Before row.precedence row.assoc)
    (hstop : ∀ q ∈ s.head?.bind Node.row?, ¬q.Before row.precedence row.assoc) :
    (Builder.mk (n.spine s) errors).pushToken t =
      if row.needsRight then ⟨.ofToken t :: n :: s, errors⟩
      else ⟨.expression t [n] :: s, errors⟩ := by
  obtain ⟨op, hop, hrow⟩ := Token.operator?_of_binding ht
  have htop : (Builder.mk (n.spine s) errors).topIsOperand = true := topIsOperand_spine hn
  have hslot : (Builder.mk (n.spine s) errors).opensEmptySlot = false := by
    simp [opensEmptySlot, htop]
  rw [pushToken_operator (kind_of_operator? hop) hrow, pushOperator]
  simp only [hrow, hslot, Bool.and_false, Bool.false_eq_true, if_false, htop, hleft, Bool.not_true,
    Bool.false_and, shift, if_true, reduce_spine hn hright hstop]
  split
  · rfl
  · simp [foldTrailing, hn.isOperand, Node.expression, Node.ofToken]

-- An open bracket of a group on top.
def InBrackets (s : List Node) : Prop :=
  ∃ t op below, s = .ofToken t :: below ∧ t.operator? = some op ∧
    (op = .leftParen ∨ op = .leftBracket)

-- The slots of a group in front of the token that ends the last of them.
inductive Slotted (stop : Token) : Node → List Node → List Node → Prop
  | filled {n : Node} {s : List Node} : Slotted stop n s (n.spine s)
  | first {s : List Node} : stop.operator? = some .comma →
      Slotted stop (.ofToken stop.slotBefore) s s
  | empty {comma : Token} {l : Node} {s : List Node} : comma.operator? = some .comma → l.Value →
      Slotted stop (.expression comma [l, .ofToken stop.slotBefore]) s (.ofToken comma :: l :: s)

theorem InBrackets.row? (h : InBrackets s) : s.head?.bind Node.row? = none := by
  obtain ⟨t, op, below, rfl, ht, hop⟩ := h
  rcases hop with rfl | rfl <;>
    simp [Node.row?, Node.waiting?, Node.isSingle, Node.ofToken, Node.operator?, ht, Option.filter,
      Operator.opensBracket]

theorem InBrackets.room (h : InBrackets s) : Room s := by
  obtain ⟨t, op, below, rfl, ht, -⟩ := h
  intro n hn
  cases hn
  exact Token.isValue_of_operator ht

theorem clear_of_row? (h : s.head?.bind Node.row? = none) : Clear n s :=
  fun row hrow => by simp [h] at hrow

theorem InBrackets.opensEmptySlot (h : InBrackets s) : (Builder.mk s errors).opensEmptySlot = true := by
  have htop : (Builder.mk s errors).topIsOperand = false := topIsOperand_of_room h.room
  obtain ⟨t, op, below, rfl, ht, hop⟩ := h
  rcases hop with rfl | rfl <;>
    simp [Builder.opensEmptySlot, htop, innermostBracket?, top?, ht, Option.filter, Operator.opensBracket]

theorem opensEmptySlot_comma {comma : Token} {l : Node} (h : InBrackets s) (hl : l.Value)
    (hcomma : comma.operator? = some .comma) :
    (Builder.mk (.ofToken comma :: l :: s) errors).opensEmptySlot = true := by
  have htop : (Builder.mk (.ofToken comma :: l :: s) errors).topIsOperand = false :=
    Token.isValue_of_operator hcomma
  have hwait : (Node.ofToken comma).waiting? = some .comma := by
    simp [Node.waiting?, Node.isSingle, Node.ofToken, Node.operator?, hcomma, Option.filter,
      Operator.opensBracket]
  obtain ⟨t, op, below, rfl, ht, hop⟩ := h
  rcases hop with rfl | rfl <;>
    simp [Builder.opensEmptySlot, htop, innermostBracket?, top?, ht, hcomma, Option.filter,
      Operator.opensBracket, hl.openBracket?_eq_none, hwait]

-- What a comma behind a slot does,
theorem Slotted.pushToken_comma {stop : Token} {s' : List Node} (h : Slotted stop n s s')
    (hn : n.Value) (hs : InBrackets s) (hcomma : stop.operator? = some .comma) :
    (Builder.mk s' errors).pushToken stop = ⟨.ofToken stop :: n :: s, errors⟩ := by
  have hrow : stop.binding? = some (.infixed 1 .left none) := Token.binding?_of_operator hcomma
  have hshift : (Builder.mk (n.spine s) errors).pushToken stop = ⟨.ofToken stop :: n :: s, errors⟩ :=
    pushToken_shift hn hrow rfl Node.before_comma (by simp [hs.row?])
  -- An empty slot is filled first.
  have hdummy : ∀ {s' : List Node}, (Builder.mk s' errors).opensEmptySlot = true →
      n.spine s = .ofToken stop.slotBefore :: s' →
      (Builder.mk s' errors).pushToken stop = ⟨.ofToken stop :: n :: s, errors⟩ := by
    intro s' hslot hspine
    have hfull : (Builder.mk (.ofToken stop.slotBefore :: s') errors).opensEmptySlot = false := by
      rw [← hspine, Builder.opensEmptySlot, topIsOperand_spine hn]
      rfl
    rw [← hshift, hspine, pushToken_operator (kind_of_operator? hcomma) rfl,
      pushToken_operator (kind_of_operator? hcomma) rfl, pushOperator, pushOperator]
    simp only [Operator.binding?, hslot, hfull, pushDummy, push, beq_self_eq_true, Bool.and_self,
      Bool.and_false, if_true, Bool.false_eq_true, if_false]
  cases h with
  | filled => exact hshift
  | first => exact hdummy hs.opensEmptySlot rfl
  | empty hc hl =>
    exact hdummy (opensEmptySlot_comma hs hl hc) (Node.spine_infixed (Token.binding?_of_operator hc))

-- and what a bracket does that closes.
theorem Slotted.completePart {stop : Token} {s' : List Node} (h : Slotted stop n s s')
    (hn : n.Value) (hs : InBrackets s) (hstop : stop.operator? ≠ some .comma) :
    (Builder.mk s' errors).completePart stop = ⟨n :: s, errors⟩ := by
  have hcomplete : (Builder.mk (n.spine s) errors).completeExpression = ⟨n :: s, errors⟩ :=
    completeExpression_spine hn hs.row?
  unfold Builder.completePart
  cases h with
  | filled =>
    obtain ⟨x, rest, hspine, hx⟩ := exists_spine (s := s) hn
    have hwait : (Builder.mk (n.spine s) errors).topWaiting? = none := by
      simp [topWaiting?, top?, hspine, hx.not_waiting]
    simp [hwait, hcomplete]
  | first hc => exact absurd hc hstop
  | @empty comma l _ hc hl =>
    have hwait : (Builder.mk (.ofToken comma :: l :: s) errors).topWaiting? = some .comma := by
      simp [topWaiting?, top?, Node.waiting?, Node.isSingle, Node.ofToken, Node.operator?, hc,
        Option.filter, Operator.opensBracket]
    rw [Node.spine_infixed (Token.binding?_of_operator hc)] at hcomplete
    simp only [hwait, beq_self_eq_true, if_true]
    exact hcomplete

-- An operator on top, if there is one, waits for its right side.
def Pending (s : List Node) : Prop :=
  ∀ row ∈ s.head?.bind Node.row?, row.needsRight = true

theorem pending_of_row? (h : s.head?.bind Node.row? = none) : Pending s :=
  fun row hrow => by simp [h] at hrow

-- What pushing the tokens of a part does.
def Pushes : Form → Node → List Token → Prop
  | .value, n, ts => ∀ s errors, Room s → Pending s → Clear n s →
      (Builder.mk s errors).pushTokens ts = ⟨n.spine s, errors⟩
  | .group, n, ts => ∃ opening op items, n = .expression opening items ∧
      opening.operator? = some op ∧ (op = .leftParen ∨ op = .leftBracket) ∧ ∀ s errors,
        (Builder.mk s errors).pushTokens ts = (Builder.mk s errors).pushGroup opening op items
  | .slots stop, n, ts => ∀ s errors, InBrackets s →
      ∃ s', (Builder.mk s errors).pushTokens ts = ⟨s', errors⟩ ∧ Slotted stop n s s'

theorem pushGroup_room {items : List Node} (hs : Room s) :
    (Builder.mk s errors).pushGroup t op items = ⟨.expression t items :: s, errors⟩ := by
  cases s with
  | nil => rfl
  | cons n s =>
    have hn : n.isOperand = false := hs n rfl
    simp [pushGroup, hn, push]

theorem isInner_ofToken (ho : t.operator? = some op) (hop : op = .leftParen ∨ op = .leftBracket) :
    (Node.ofToken t).openBracket? = some op := by
  rcases hop with rfl | rfl <;> simp [ho, Option.filter, Operator.opensBracket]

-- The bracket that closes gives what lies above its partner to the group.
theorem closeGroup_filled {opening close : Token} {b : Builder} (hn : n.Value)
    (ho : opening.operator? = some op) (hop : op = .leftParen ∨ op = .leftBracket)
    (hb : b.completePart close = ⟨n :: .ofToken opening :: s, errors⟩) :
    b.closeGroup close op = (Builder.mk s errors).pushGroup opening op n.commaParts := by
  have hmarker := isInner_ofToken ho hop
  have hinner : isInner n = true := by simp [isInner, hn.openBracket?_eq_none]
  have hmarker' : isInner (.ofToken opening) = false := by simp [isInner, hmarker]
  have htoken : (Node.ofToken opening).token = some opening := rfl
  simp only [closeGroup, hb, takeGroup, List.takeWhile_cons, List.dropWhile_cons, hinner, hmarker',
    if_true, Bool.false_eq_true, if_false, List.any_cons, hn.not_isSeparator, List.any_nil,
    Bool.or_false, htoken, hmarker, beq_self_eq_true, List.reverse_singleton, groupChildren,
    List.foldl_nil]

theorem closeGroup_empty {opening close : Token} (ho : opening.operator? = some op)
    (hop : op = .leftParen ∨ op = .leftBracket) :
    (Builder.mk (.ofToken opening :: s) errors).closeGroup close op =
      (Builder.mk s errors).pushGroup opening op [] := by
  have hmarker := isInner_ofToken ho hop
  have hmarker' : isInner (.ofToken opening) = false := by simp [isInner, hmarker]
  have htoken : (Node.ofToken opening).token = some opening := rfl
  have hwait : (Node.ofToken opening).waiting? = none := by
    rcases hop with rfl | rfl <;> simp [Node.waiting?, Node.isSingle, Node.ofToken, Node.operator?,
      ho, Option.filter, Operator.opensBracket]
  have hpart : (Builder.mk (.ofToken opening :: s) errors).completePart close =
      ⟨.ofToken opening :: s, errors⟩ := by
    simp [completePart, topWaiting?, top?, hwait, completeExpression, completeStack,
      Token.isValue_of_operator ho]
  simp only [closeGroup, hpart, takeGroup, List.takeWhile_cons, List.dropWhile_cons, hmarker',
    Bool.false_eq_true, if_false, List.any_nil, htoken, hmarker, beq_self_eq_true, if_true,
    List.reverse_nil, groupChildren]

theorem pushToken_opening {opening : Token} (ho : opening.operator? = some op)
    (hop : op = .leftParen ∨ op = .leftBracket) :
    (Builder.mk s errors).pushToken opening = ⟨.ofToken opening :: s, errors⟩ := by
  have hkind := kind_of_operator? ho
  rcases hop with rfl | rfl <;> simp [pushToken, hkind, pushOpen, push]

theorem pushToken_close {close : Token} {o : Operator} {b : Builder} (hc : close.kind = .operator o)
    (hcloses : o.closes? = some op) (hop : op = .leftParen ∨ op = .leftBracket) :
    b.pushToken close = b.closeGroup close op := by
  rcases hop with rfl | rfl <;> cases o <;> cases hcloses <;> simp [pushToken, hc]

-- An operator above leaves the left side of its operand to it.
theorem clear_of_binding (ht : t.binding? = some row)
    (h : ∀ q ∈ n.leftOps, ¬row.Before q.precedence q.assoc) : Clear n (.ofToken t :: s) := by
  intro q hq
  rw [List.head?_cons, Option.bind_some, Node.row?_ofToken ht] at hq
  cases hq
  exact h

theorem room_of_binding (ht : t.binding? = some row) : Room (.ofToken t :: s) := by
  obtain ⟨op, hop, -⟩ := Token.operator?_of_binding ht
  intro n hn
  cases hn
  exact Token.isValue_of_operator hop

theorem pending_of_binding (ht : t.binding? = some row) (hright : row.needsRight = true) :
    Pending (.ofToken t :: s) := by
  intro q hq
  rw [List.head?_cons, Option.bind_some, Node.row?_ofToken ht] at hq
  cases hq
  exact hright

-- An operand behind a binary operator.
theorem pushes_right {l r : Node} {us : List Token} (ht : t.binding? = some row)
    (hright : row.needsRight = true) (hr : Pushes .value r us) (hfits : (Node.expression t [l, r]).Fits) :
    (Builder.mk (.ofToken t :: l :: s) errors).pushTokens us =
      ⟨(Node.expression t [l, r]).spine s, errors⟩ := by
  simp only [Node.Fits, Node.expression, ht] at hfits
  rw [Node.spine_infixed ht]
  exact hr _ _ (room_of_binding ht) (pending_of_binding ht hright) (clear_of_binding ht hfits.2)

theorem binding_trailing (ht : t.binding? = some row) (hleft : row.needsLeft = true)
    (hright : row.needsRight = false) : row.precedence = 15 ∧ row.assoc = .left := by
  obtain ⟨op, -, hrow⟩ := Token.operator?_of_binding ht
  cases op <;> cases hrow <;> first
    | exact ⟨rfl, rfl⟩
    | exact absurd hleft (by decide)
    | exact absurd hright (by decide)

-- Behind an operator that waits nothing is left to a trailing one.
theorem Pending.not_before (h : Pending s) :
    ∀ row ∈ s.head?.bind Node.row?, ¬row.Before 15 .left := by
  intro row hrow
  have hright := h row hrow
  obtain ⟨n, -, hn⟩ := Option.bind_eq_some_iff.mp hrow
  obtain ⟨op, -, hop⟩ := Option.bind_eq_some_iff.mp hn
  cases op <;> cases hop <;> first
    | exact absurd hright (by decide)
    | simp [Binding.Before, Binding.infixed, Binding.leadingOp]

-- The left side of a call or an access is that of what it is applied to.
theorem clear_of_application {l r : Node} (happ : Node.isApplication t = true)
    (hclear : Clear (.expression t [l, r]) s) : Clear l s := by
  have hbind : t.binding? = none := by
    simp only [Node.isApplication, Bool.or_eq_true, beq_iff_eq] at happ
    rcases happ with ht | ht <;> exact binding?_of_bracket ht rfl
  have hops : (Node.expression t [l, r]).leftOps = l.leftOps := by
    simp [Node.leftOps, Node.expression, hbind, happ]
  exact fun q hq o ho => hclear q hq o (hops.symm ▸ ho)

-- Pushing what an expression is printed as puts it on the stack.
theorem pushes_of_prints {form : Form} {ts : List Token} (h : Prints form n ts) :
    Pushes form n ts := by
  induction h with
  | token ht => exact fun s errors hroom _ _ => pushToken_value ht hroom
  | @leading t u row x ts hu ht hleft hx hfits ih =>
    intro s errors hroom _ hclear
    obtain ⟨op, -, hop⟩ := Token.operator?_of_binding ht
    simp only [Node.Fits, Node.expression, ht, hleft, Bool.false_eq_true, if_false] at hfits
    rw [pushTokens_cons, pushToken_leading hu ht hleft hroom, Node.spine_leading ht hleft]
    exact ih _ _ (room_of_binding ht) (pending_of_binding ht (needsRight_of_needsLeft hop hleft))
      (clear_of_binding ht hfits)
  | @trailing t row x ts ht hleft hright hx hfits ih =>
    intro s errors hroom hpend hclear
    have hops : (Node.expression t [x]).leftOps = x.leftOps := by
      simp [Node.leftOps, Node.expression, ht, hleft]
    have hclear' : Clear x s := fun q hq o ho => hclear q hq o (hops.symm ▸ ho)
    have hspine : (Node.expression t [x]).rightOps = [] := by
      simp [Node.rightOps, Node.expression, ht, hleft]
    obtain ⟨hprec, hassoc⟩ := binding_trailing ht hleft hright
    have hstop : ∀ q ∈ s.head?.bind Node.row?, ¬q.Before row.precedence row.assoc := by
      rw [hprec, hassoc]
      exact hpend.not_before
    simp only [Node.Fits, Node.expression, ht, hleft, if_true] at hfits
    rw [pushTokens_append, ih s errors hroom hpend hclear', pushTokens_cons, pushTokens_nil,
      Node.spine_of_rightOps hspine, pushToken_shift hx.value ht hleft hfits hstop]
    simp [hright]
  | @infixed t row l r ts us ht hleft hright hl hr hfits ihl ihr =>
    intro s errors hroom hpend hclear
    have hops : (Node.expression t [l, r]).leftOps = row :: l.leftOps := by
      simp [Node.leftOps, Node.expression, ht]
    have hclear' : Clear l s := fun q hq o ho => hclear q hq o (hops ▸ List.mem_cons_of_mem _ ho)
    have hstop : ∀ q ∈ s.head?.bind Node.row?, ¬q.Before row.precedence row.assoc := fun q hq =>
      hclear q hq row (hops ▸ List.mem_cons_self ..)
    have hfits' := hfits
    simp only [Node.Fits, Node.expression, ht] at hfits'
    rw [pushTokens_append, ihl s errors hroom hpend hclear', pushTokens_cons,
      pushToken_shift hl.value ht hleft hfits'.1 hstop, if_pos hright]
    exact pushes_right ht hright ihr hfits
  | bracketed h ih =>
    obtain ⟨opening, op, items, rfl, ho, hop, hpush⟩ := ih
    intro s errors hroom _ _
    have hbind : opening.binding? = none := by
      rcases hop with rfl | rfl <;> exact binding?_of_bracket ho rfl
    rw [hpush, pushGroup_room hroom, Node.spine_of_binding hbind]
  | @call callee opening args ts us hc ha ho hfits ihc iha =>
    intro s errors hroom hpend hclear
    obtain ⟨opening', op, items, heq, ho', -, hpush⟩ := iha
    cases heq
    cases ho.symm.trans ho'
    rw [pushTokens_append, ihc s errors hroom hpend (clear_of_application rfl hclear),
      Node.spine_of_rightOps (Node.rightOps_of_application rfl hfits), hpush,
      Node.spine_of_binding rfl]
    simp [pushGroup, hc.value.isOperand]
  | @access target opening index ts us ht hg ho hfits iht ihg =>
    intro s errors hroom hpend hclear
    obtain ⟨opening', op, items, heq, ho', -, hpush⟩ := ihg
    cases heq
    cases ho.symm.trans ho'
    rw [pushTokens_append, iht s errors hroom hpend (clear_of_application rfl hclear),
      Node.spine_of_rightOps (Node.rightOps_of_application rfl hfits), hpush,
      Node.spine_of_binding rfl]
    simp [pushGroup, ht.value.isOperand]
  | empty hb =>
    obtain ⟨o, hclose, hcloses⟩ := hb.close
    refine ⟨_, _, _, rfl, hb.opening, hb.inner, fun s errors => ?_⟩
    rw [pushTokens_cons, pushTokens_cons, pushTokens_nil, pushToken_opening hb.opening hb.inner,
      pushToken_close hclose hcloses hb.inner, closeGroup_empty hb.opening hb.inner]
  | @filled opening close op n ts hb h ih =>
    obtain ⟨o, hclose, hcloses⟩ := hb.close
    refine ⟨_, _, _, rfl, hb.opening, hb.inner, fun s errors => ?_⟩
    have hs : InBrackets (.ofToken opening :: s) := ⟨_, _, _, rfl, hb.opening, hb.inner⟩
    obtain ⟨s', hpush, hslot⟩ := ih _ errors hs
    have hne : close.operator? ≠ some .comma := by
      rw [Token.operator?, hclose]
      rintro ⟨⟩
      cases hcloses
    rw [List.cons_append, pushTokens_cons, pushToken_opening hb.opening hb.inner, pushTokens_append,
      hpush, pushTokens_cons, pushTokens_nil, pushToken_close hclose hcloses hb.inner]
    exact closeGroup_filled h.value hb.opening hb.inner (hslot.completePart h.value hs hne)
  | only h ih =>
    intro s errors hs
    exact ⟨_, ih s errors hs.room (pending_of_row? hs.row?) (clear_of_row? hs.row?), .filled⟩
  | firstEmpty hc => exact fun s errors _ => ⟨s, rfl, .first hc⟩
  | next hc hl hr hfits ihl ihr =>
    intro s errors hs
    obtain ⟨s', hpush, hslot⟩ := ihl s errors hs
    refine ⟨_, ?_, .filled⟩
    rw [pushTokens_append, hpush, pushTokens_cons, hslot.pushToken_comma hl.value hs hc]
    exact pushes_right (Token.binding?_of_operator hc) rfl ihr hfits
  | nextEmpty hc hl ih =>
    intro s errors hs
    obtain ⟨s', hpush, hslot⟩ := ih s errors hs
    refine ⟨_, ?_, .empty hc hl.value⟩
    rw [pushTokens_append, hpush]
    exact hslot.pushToken_comma hl.value hs hc

end Builder

end FinLang

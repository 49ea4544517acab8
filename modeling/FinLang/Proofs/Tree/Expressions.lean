import FinLang.Proofs.Tree.Complaints
import FinLang.Proofs.Tree.Stack

namespace FinLang

namespace Builder

-- A stack on which an expression may begin.
inductive Base : List Node → Prop
  | nil : Base []
  | opening {t op below} : t.operator? = some op → op.opensBracket = true → Stacked below →
      Base (.ofToken t :: below)
  | word {t word below} : t.keyword? = some word → allowsKeyword word below.head? = true →
      Stacked below → Base (.ofToken t :: below)
  | separator {t part below} : t.operator? = some .semicolon → part.Item →
      opensPart below = true → Stacked below → Base (.ofToken t :: part :: below)
  | statement {n below} : n.Statement → isBoundary below.head? = true → Stacked below →
      Base (n :: below)

-- Such a stack, with or without a value on top.
inductive Complete : List Node → Prop
  | bare {s} : Base s → Complete s
  | value {n s} : n.Value → Base s → Complete (n :: s)

-- What pushing a token does to a stack.
structure Pushed (t : Token) (s s' : List Node) : Prop where
  stacked : Stacked s'
  tokens : ∃ us, tokens s' = tokens s ++ us ∧
    List.Forall₂ Token.Becomes ([t].filter Token.isCounted) us
  opens : brackets (opens s) [t] = some (opens s')

variable {b : Builder} {n x : Node} {s s' s'' : List Node} {t : Token} {row : Binding}
  {op : Operator} {errors : List Diagnostic}

theorem Base.stacked (h : Base s) : Stacked s := by
  cases h with
  | nil => exact .nil
  | opening ht hop hb => exact .opening ht hop hb
  | word ht hw hb => exact .word ht hw hb
  | separator ht hp ho hb => exact .separator ht hp ho hb
  | statement hn hbound hb => exact .statement hn hbound hb

theorem Base.room (h : Base s) : Room s := by
  intro n hn
  cases h with
  | nil => cases hn
  | opening ht => cases hn; exact Token.isValue_of_operator ht
  | word ht => cases hn; exact Token.isValue_of_keyword ht
  | separator ht => cases hn; exact Token.isValue_of_operator ht
  | statement hst => cases hn; cases hst <;> rfl

theorem Base.of_idle (hs : Stacked s) (hroom : Room s) (hidle : s.head?.bind Node.row? = none) :
    Base s := by
  cases hs with
  | nil => exact .nil
  | value hn => exact absurd hn.isOperand (by simp [hroom _ rfl])
  | leading ht => simp [Node.row?_ofToken ht] at hidle
  | infixed ht => simp [Node.row?_ofToken ht] at hidle
  | opening ht hop hb => exact .opening ht hop hb
  | word ht hw hb => exact .word ht hw hb
  | separator ht hp ho hb => exact .separator ht hp ho hb
  | statement hn hbound hb => exact .statement hn hbound hb

theorem innermostBracket?_eq : b.innermostBracket? = (opens b.stack).head? := by
  unfold innermostBracket? opens
  rw [List.head?_filterMap]

theorem room_of_topIsOperand (h : b.topIsOperand = false) : Room b.stack := by
  intro n hn
  simpa [topIsOperand, top?, Option.mem_def.mp hn] using h

theorem Stacked.push_value (ht : t.isValue = true) (hroom : Room s) (hs : Stacked s) :
    Stacked (.ofToken t :: s) :=
  .value (.token ht) rfl hroom (fun _ _ _ hq => nomatch hq) hs

theorem precedence_pos (h : op.binding? = some row) : 0 < row.precedence := by
  cases op <;> cases h <;> decide

theorem needsRight_of_needsLeft (h : op.binding? = some row) (hleft : row.needsLeft = false) :
    row.needsRight = true := by
  cases op <;> cases h <;> first | rfl | cases hleft

theorem binding?_leading {unary : Operator} {urow : Binding} (h : op.binding? = some row)
    (hlead : row.leading = some unary) (hu : unary.binding? = some urow) :
    op ≠ .comma ∧ unary ≠ .comma ∧ urow.needsLeft = false := by
  cases op <;> cases h <;> cases hlead <;> cases hu <;> exact ⟨nofun, nofun, rfl⟩

theorem idle_of_before {s : List Node} (hs : Stacked s)
    (h : ∀ row ∈ s.head?.bind Node.row?, ¬row.Before lowest .left) :
    s.head?.bind Node.row? = none := by
  cases s with
  | nil => rfl
  | cons n s =>
    cases hrow : n.row? with
    | none => simpa using hrow
    | some row =>
      obtain ⟨t, rfl, ht, -⟩ := hs.waiting hrow
      obtain ⟨op, -, hop⟩ := Token.operator?_of_binding ht
      exact absurd (.inl (precedence_pos hop)) (h row (by simp [hrow]))

-- Completing folds all that waits, since every operator comes before the end of
-- the expression.
theorem completeStack_spec (hs : Stacked s) (hclean : Clean (completeStack errors s).errors) :
    Complete (completeStack errors s).stack ∧ Same s (completeStack errors s).stack := by
  cases s with
  | nil => exact ⟨.bare .nil, .refl⟩
  | cons top below =>
    unfold completeStack at hclean ⊢
    split at hclean
    · rename_i htop
      obtain ⟨hv, hops, hroom, hclear, hb⟩ := hs.value_of_isOperand htop
      obtain ⟨y, rest, heq, hm, hrest, hsame⟩ :=
        @fold_spec _ _ lowest .left errors hv hroom hclear (by simp [hops]) hb
      rw [if_pos htop, heq]
      exact ⟨.value hm.value (.of_idle hrest hm.room (idle_of_before hrest hm.left)), hsame⟩
    · rename_i htop
      split at hclean
      · exact (hclean.mono (completeStack_errors _)).not_nodeError.elim
      · rename_i hwait
        rw [if_neg htop, if_neg hwait]
        refine ⟨.bare (.of_idle hs (fun n hn => ?_) ?_), .refl⟩
        · cases hn
          simpa using htop
        · simpa [Node.row?] using fun op hop => absurd (by simp [hop]) hwait

section Pushing

theorem Pushed.silent (hcount : t.isCounted = false)
    (hbrackets : brackets (Builder.opens s) [t] = some (Builder.opens s)) (hs : Stacked s')
    (hsame : Same s s') : Pushed t s s' := by
  refine ⟨hs, ⟨[], by simp [hsame.tokens], by simp [hcount]⟩, ?_⟩
  rw [hsame.opens]
  exact hbrackets

theorem same_of_reading (hread : n.reading.filter Token.isCounted = [])
    (hopen : n.openBracket? = none) : Same s (n :: s) := by
  refine ⟨?_, ?_⟩
  · rw [tokens_cons, hread, List.append_nil]
  · simp [opens_cons, hopen]

theorem Same.cons (h : Same s s') : Same (n :: s) (n :: s') :=
  ⟨by rw [tokens_cons, tokens_cons, h.tokens], by rw [opens_cons, opens_cons, h.opens]⟩

theorem pushDummy_spec (hs : Stacked s) (hroom : Room s) :
    Stacked (.ofToken t.slotBefore :: s) ∧ Same s (.ofToken t.slotBefore :: s) :=
  ⟨hs.push_value rfl hroom, same_of_reading rfl rfl⟩

theorem brackets_binding (opened : List Operator) (h : t.binding? = some row) :
    brackets opened [t] = some opened := by
  obtain ⟨op, hop, hrow⟩ := Token.operator?_of_binding h
  have hclose : op.closes? = none := by
    cases op <;> first | rfl | cases hrow
  simp [brackets, hop, Node.opensBracket_of_binding hrow, hclose]

theorem brackets_of_operator? (opened : List Operator) (h : t.operator? = none) :
    brackets opened [t] = some opened := by
  simp [brackets, h]

-- An operator as it stands on the stack.
theorem Pushed.operator {t' : Token} (h : t.binding? = some row) (hbecomes : t.Becomes t')
    (hcount : t'.isCounted = t.isCounted) (hs : Stacked s')
    (htokens : Builder.tokens s' = Builder.tokens s ++ [t'].filter Token.isCounted)
    (hopens : Builder.opens s' = Builder.opens s) : Pushed t s s' := by
  refine ⟨hs, ⟨_, htokens, ?_⟩, ?_⟩
  · cases hc : t.isCounted with
    | false => simp [hcount, hc]
    | true => simpa [hcount, hc] using hbecomes
  · rw [hopens]
    exact brackets_binding _ h

theorem push_leading {t' : Token} {row' : Binding} (h : t.binding? = some row)
    (h' : t'.binding? = some row') (hleft : row'.needsLeft = false) (hbecomes : t.Becomes t')
    (hcount : t'.isCounted = t.isCounted) (hroom : Room s) (hs : Stacked s) :
    Pushed t s (.ofToken t' :: s) := by
  refine .operator h hbecomes hcount (.leading h' hleft hroom hs) ?_ ?_
  · simp [tokens_cons, Node.reading, Node.ofToken]
  · simp [opens_cons, Node.openBracket?_of_binding h']

theorem reduce_spec (hs : Stacked b.stack) (htop : b.topIsOperand = true) (row : Binding) :
    ∃ y rest, b.reduce row.precedence row.assoc = ⟨y :: rest, b.errors⟩ ∧
      Meshed row.precedence row.assoc y rest ∧ Stacked rest ∧ Same b.stack (y :: rest) := by
  obtain ⟨stack, errors⟩ := b
  cases stack with
  | nil => cases htop
  | cons x below =>
    obtain ⟨hv, hops, hroom, hclear, hb⟩ := hs.value_of_isOperand htop
    have hx : x.isOperand = true := htop
    simp only [reduce, hx, if_true]
    exact fold_spec errors hv hroom hclear (by simp [hops]) hb

theorem trailing_spec (h : t.binding? = some row) (hleft : row.needsLeft = true)
    (hright : row.needsRight = false) (hm : Meshed row.precedence row.assoc x s)
    (hs : Stacked s) : Stacked (.expression t [x] :: s) := by
  refine .value (.trailing h hleft hright hm.value ?_) ?_ hm.room ?_ hs
  · simp only [Node.Fits, Node.expression, h, hleft]
    exact hm.right
  · simp [Node.rightOps, Node.expression, h, hleft]
  · intro o ho q hq
    simp only [Node.leftOps, Node.expression, h, hleft] at hq
    exact hm.clear o ho q hq

-- A binary operator waits for its right operand; a trailing one takes its
-- operand at once.
theorem shift_spec (hs : Stacked b.stack) (h : t.binding? = some row)
    (htop : b.topIsOperand = row.needsLeft) : Pushed t b.stack (b.shift t row).stack := by
  obtain ⟨op, hop, hrow⟩ := Token.operator?_of_binding h
  unfold shift
  cases hleft : row.needsLeft with
  | false =>
    have hright := needsRight_of_needsLeft hrow hleft
    simp only [hright, if_true]
    exact push_leading h h hleft (.inl rfl) rfl (room_of_topIsOperand (htop.trans hleft)) hs
  | true =>
    obtain ⟨y, rest, heq, hm, hrest, hsame⟩ := reduce_spec hs (htop.trans hleft) row
    simp only [if_true, heq]
    cases hright : row.needsRight with
    | true =>
      refine .operator h (.inl rfl) rfl (.infixed h hleft hright hm hrest) ?_ ?_
      · rw [if_pos rfl]
        rw [← hsame.tokens]
        simp [push, tokens_cons, Node.reading, Node.ofToken]
      · rw [if_pos rfl, ← hsame.opens]
        simp [push, opens_cons, Node.openBracket?_of_binding h]
    | false =>
      have hy := hm.value.isOperand
      simp only [foldTrailing, hy, if_true, Bool.false_eq_true, if_false]
      refine .operator h (.inl rfl) rfl (trailing_spec h hleft hright hm hrest) ?_ ?_
      · rw [← hsame.tokens]
        simp [tokens_cons, Node.reading, Node.ofToken, h, hleft]
      · rw [← hsame.opens, opens_cons, opens_cons, hm.value.openBracket?_eq_none]
        rfl

theorem Pushed.of_same (hsame : Same s s') (h : Pushed t s' s'') : Pushed t s s'' := by
  refine ⟨h.stacked, ?_, ?_⟩
  · rw [← hsame.tokens]
    exact h.tokens
  · rw [← hsame.opens]
    exact h.opens

theorem pushOperator_spec (hs : Stacked b.stack) (ht : t.kind = .operator op)
    (hclean : Clean (b.pushOperator t op).errors) :
    Pushed t b.stack (b.pushOperator t op).stack := by
  have hop : t.operator? = some op := by simp [Token.operator?, ht]
  unfold pushOperator at hclean ⊢
  split at hclean
  · exact hclean.not_parseError.elim
  · rename_i row hrow
    have h : t.binding? = some row := by simp [Token.binding?, hop, hrow]
    simp only at hclean ⊢
    have hslot : Stacked (if (op == .comma && b.opensEmptySlot) = true then b.pushDummy t
          else b).stack ∧
        Same b.stack (if (op == .comma && b.opensEmptySlot) = true then b.pushDummy t
          else b).stack := by
      split
      · rename_i hempty
        have hroom : b.topIsOperand = false := by
          simp only [opensEmptySlot, Bool.and_eq_true, Bool.not_eq_true'] at hempty
          exact hempty.2.1.1
        exact pushDummy_spec hs (room_of_topIsOperand hroom)
      · exact ⟨hs, .refl⟩
    generalize (if (op == .comma && b.opensEmptySlot) = true then b.pushDummy t else b) = c
      at hslot hclean ⊢
    obtain ⟨hc, hsame⟩ := hslot
    refine .of_same hsame ?_
    split at hclean
    · rename_i hmissing
      simp only [Bool.and_eq_true, Bool.not_eq_true'] at hmissing
      simp only [hmissing, Bool.not_false, Bool.and_self, if_true]
      split at hclean
      · rename_i unary urow hlead
        obtain ⟨u, hu, hmap⟩ := Option.bind_eq_some_iff.mp hlead
        obtain ⟨_, hurow, hpair⟩ := Option.map_eq_some_iff.mp hmap
        cases hpair
        obtain ⟨hne, hune, huleft⟩ := binding?_leading hrow hu hurow
        have h' : ({ t with kind := .operator unary } : Token).binding? = some urow := hurow
        have hright := needsRight_of_needsLeft hurow huleft
        simp only [shift, huleft, hright, if_true]
        refine push_leading h h' huleft (.inr ⟨op, row, unary, ht, hrow, hu, rfl⟩) ?_
          (room_of_topIsOperand hmissing.2) hc
        rw [← bne_iff_ne] at hne hune
        simp [Token.isCounted, ht, hrow, hurow, hne, hune]
      · exact hclean.not_parseError.elim
    · rename_i hpresent
      rw [if_neg hpresent]
      split at hclean
      · exact hclean.not_parseError.elim
      · rename_i hfollow
        rw [if_neg hfollow]
        refine shift_spec hc h ?_
        cases hl : row.needsLeft <;> cases htop : c.topIsOperand <;> simp_all

end Pushing

end Builder

end FinLang

import FinLang.Proofs.Token.Orders
import FinLang.Proofs.Tree.Soundness

namespace FinLang

namespace Builder

variable {b : Builder} {n x : Node} {t : Token} {op : Operator} {row : Binding} {word : Keyword}
  {s : List Node} {errors : List Diagnostic}

-- Folding leaves a value on top.
theorem topIsOperand_fold (precedence : Nat) (assoc : Assoc) (hx : x.isOperand = true) :
    (fold precedence assoc errors x s).topIsOperand = true := by
  fun_induction fold precedence assoc errors x s with
  | case4 | case6 =>
    rename_i ih
    exact ih rfl
  | _ => exact hx

theorem topIsOperand_reduce {precedence : Nat} {assoc : Assoc} (h : b.topIsOperand = true) :
    (b.reduce precedence assoc).topIsOperand = true := by
  unfold reduce
  split
  · split
    · exact topIsOperand_fold _ _ ‹_›
    · exact h
  · exact h

theorem topIsOperand_foldTrailing (h : b.topIsOperand = true) :
    (b.foldTrailing n).topIsOperand = true := by
  obtain ⟨stack, errors⟩ := b
  cases stack with
  | nil => cases h
  | cons left below =>
    have hleft : left.isOperand = true := h
    simp only [foldTrailing, hleft, if_true]
    rfl

-- An operator that takes no operand behind it gives a value.
theorem topIsOperand_shift (ht : t.isValue = false) (h : row.needsRight = false → b.topIsOperand = true) :
    (b.shift t row).topIsOperand = !row.needsRight := by
  unfold shift
  simp only
  cases hright : row.needsRight with
  | true => exact ht
  | false =>
    refine topIsOperand_foldTrailing ?_
    split
    · exact topIsOperand_reduce (h hright)
    · exact h hright

theorem needsLeft_of_needsRight (h : op.binding? = some row) (hright : row.needsRight = false) :
    row.needsLeft = true := by
  cases op <;> cases h <;> first | rfl | cases hright

theorem topIsOperand_pushOperator (ht : t.isValue = false) (hrow : op.binding? = some row)
    (hfine : Clean (b.pushOperator t op).errors) :
    (b.pushOperator t op).topIsOperand = (!row.needsRight && b.topIsOperand) := by
  unfold pushOperator at hfine ⊢
  simp only [hrow] at hfine ⊢
  -- The slot that a comma fills does not matter, since a comma waits.
  have htop : row.needsRight = false →
      (if op == .comma && b.opensEmptySlot then b.pushDummy t else b).topIsOperand =
        b.topIsOperand := by
    intro hright
    have hne : (op == .comma) = false := by
      cases op <;> cases hrow <;> first | rfl | cases hright
    rw [hne, Bool.false_and]
    rfl
  generalize (if op == .comma && b.opensEmptySlot then b.pushDummy t else b) = c at hfine htop ⊢
  cases hneeds : row.needsLeft && !c.topIsOperand with
  | true =>
    simp only [hneeds, if_true] at hfine ⊢
    cases hlead : row.leading.bind fun unary => unary.binding?.map (unary, ·) with
    | none =>
      rw [hlead] at hfine
      exact hfine.not_parseError.elim
    | some pair =>
      obtain ⟨u, hu, hpair⟩ := Option.bind_eq_some_iff.mp hlead
      obtain ⟨urow, hurow, rfl⟩ := Option.map_eq_some_iff.mp hpair
      have hright : urow.needsRight = true := by
        cases op <;> cases hrow <;> cases hu <;> cases hurow <;> rfl
      have hshift : (c.shift { t with kind := .operator u } urow).topIsOperand = !urow.needsRight :=
        topIsOperand_shift rfl (by simp [hright])
      rw [hright] at hshift
      refine hshift.trans ?_
      cases hr : row.needsRight with
      | true => rfl
      | false =>
        have hc := (Bool.and_eq_true_iff.mp hneeds).2
        rw [htop hr] at hc
        simpa using hc
  | false =>
    cases hno : !row.needsLeft && c.topIsOperand with
    | true =>
      simp only [hneeds, hno, Bool.false_eq_true, if_false, if_true] at hfine
      exact hfine.not_parseError.elim
    | false =>
      simp only [Bool.false_eq_true, if_false]
      cases hr : row.needsRight with
      | true => rw [topIsOperand_shift ht (by simp [hr]), hr]; rfl
      | false =>
        have hleft := needsLeft_of_needsRight hrow hr
        have hc : c.topIsOperand = true := by simpa [hleft] using hneeds
        rw [topIsOperand_shift ht fun _ => hc, hr, ← htop hr, hc]
        rfl

-- A value becomes an operand only if there is none yet.
theorem topIsOperand_pushValue (ht : t.isValue = true) (hfine : Clean (b.pushValue t).errors) :
    (b.pushValue t).topIsOperand = true := by
  unfold pushValue at hfine ⊢
  split at hfine
  · exact hfine.not_parseError.elim
  · rename_i htop
    rw [if_neg htop]
    exact ht

theorem topIsOperand_pushKeyword (ht : t.isValue = false)
    (hfine : Clean (b.pushKeyword t word).errors) : (b.pushKeyword t word).topIsOperand = false := by
  unfold pushKeyword at hfine ⊢
  split at hfine
  · rename_i hallow
    rw [if_pos hallow]
    exact ht
  · exact hfine.not_parseError.elim

theorem topIsOperand_pushOpen (ht : t.isValue = false) (hfine : Clean (b.pushOpen t op).errors) :
    (b.pushOpen t op).topIsOperand = false := by
  unfold pushOpen at hfine ⊢
  split at hfine
  · exact hfine.not_parseError.elim
  · exact ht

theorem topIsOperand_pushGroup {children : List Node} (hfine : Clean (b.pushGroup t op children).errors) :
    (b.pushGroup t op children).topIsOperand = true := by
  unfold pushGroup at hfine ⊢
  split at hfine
  · rfl
  · split at hfine
    · split at hfine
      · simp_all [topIsOperand, top?, Node.isOperand, Node.expression]
      · split at hfine
        · simp_all [topIsOperand, top?, Node.isOperand, Node.expression]
        · exact hfine.not_parseError.elim
    · simp_all [topIsOperand, top?, push, Node.isOperand, Node.expression]

theorem topIsOperand_takeGroup {isHead : Bool} (hfine : Clean (b.takeGroup t op isHead).errors) :
    (b.takeGroup t op isHead).topIsOperand = true := by
  unfold takeGroup at hfine ⊢
  cases hdrop : b.stack.dropWhile isInner with
  | nil =>
    rw [hdrop] at hfine
    exact hfine.not_parseError.elim
  | cons marker below =>
    have hmarker : isInner marker = false := by
      have := List.head?_dropWhile_not isInner b.stack
      rw [hdrop] at this
      exact this
    obtain ⟨o, ho⟩ : ∃ o, marker.openBracket? = some o := by
      simpa [isInner, Option.isSome_iff_exists] using hmarker
    cases htoken : marker.token with
    | none => simp [Node.openBracket?, Node.operator?, htoken] at ho
    | some opening =>
      simp only [hdrop, htoken, ho] at hfine ⊢
      cases hsame : o == op with
      | true =>
        simp only [hsame, if_true] at hfine ⊢
        exact topIsOperand_pushGroup hfine
      | false =>
        simp only [hsame, Bool.false_eq_true, if_false] at hfine
        exact hfine.not_parseError.elim

theorem topIsOperand_closeGroup (hfine : Clean (b.closeGroup t op).errors) :
    (b.closeGroup t op).topIsOperand = true := by
  unfold closeGroup at hfine ⊢
  simp only at hfine ⊢
  split at hfine
  · rename_i hhead
    rw [if_pos hhead]
    exact topIsOperand_takeGroup hfine
  · rename_i hhead
    rw [if_neg hhead]
    exact topIsOperand_takeGroup hfine

theorem topIsOperand_pushKeywordStatement {operand : Option Node}
    (hfine : Clean (b.pushKeywordStatement t word operand).errors) :
    (b.pushKeywordStatement t word operand).topIsOperand = false := by
  unfold pushKeywordStatement at hfine ⊢
  split at hfine <;> try split at hfine
  all_goals first
    | rfl
    | exact hfine.not_parseError.elim
    | simp_all [topIsOperand, top?, push, Node.isOperand]

theorem topIsOperand_finishStatement (hfine : Clean (b.finishStatement t).errors) :
    (b.finishStatement t).topIsOperand = false := by
  obtain ⟨stack, errors⟩ := b
  cases stack with
  | nil => rfl
  | cons top below =>
    cases htop : top.isOperand with
    | true =>
      cases below with
      | nil =>
        simp only [finishStatement, htop, if_true]
        rfl
      | cons under rest =>
        simp only [finishStatement, htop, if_true] at hfine ⊢
        cases hhead : headToken? under with
        | none => rfl
        | some head =>
          rw [hhead] at hfine
          exact topIsOperand_pushKeywordStatement hfine
    | false =>
      simp only [finishStatement, htop, Bool.false_eq_true, if_false] at hfine ⊢
      cases hhead : headToken? top with
      | none => exact htop
      | some head =>
        rw [hhead] at hfine
        exact topIsOperand_pushKeywordStatement hfine

theorem topIsOperand_endStatement (ht : t.isValue = false) (hfine : Clean (b.endStatement t).errors) :
    (b.endStatement t).topIsOperand = false := by
  unfold endStatement at hfine ⊢
  split at hfine
  · exact ht
  · exact hfine.not_parseError.elim
  · exact topIsOperand_finishStatement hfine

theorem topIsOperand_pushLabel (hfine : Clean (b.pushLabel t).errors) :
    (b.pushLabel t).topIsOperand = false := by
  unfold pushLabel at hfine ⊢
  split at hfine
  · split at hfine
    · rename_i hname
      rw [if_pos hname]
      rfl
    · exact hfine.not_parseError.elim
  · exact hfine.not_parseError.elim

-- Only a branch can be extended.
theorem isOperand_extendBranch {condition block : Node} (h : isOpenBranch n = true) :
    (extendBranch n condition block).isOperand = false := by
  have hkind : n.kind = .branch := by
    simp only [isOpenBranch, Bool.and_eq_true, beq_iff_eq] at h
    exact h.1.1
  simp [extendBranch, Node.isOperand, hkind]

theorem topIsOperand_pushConditional {keyword condition block : Node}
    (hfine : Clean (b.pushConditional keyword condition block word).errors) :
    (b.pushConditional keyword condition block word).topIsOperand = false := by
  unfold pushConditional at hfine ⊢
  split at hfine
  · rename_i hgroup
    rw [if_pos hgroup]
    split at hfine
    · rfl
    · split at hfine
      · split at hfine
        · rename_i hopen
          simp only [hopen, if_true]
          exact isOperand_extendBranch hopen
        · exact hfine.not_parseError.elim
      · exact hfine.not_parseError.elim
    · rfl
    · split at hfine
      · rename_i hthree
        simp only [hthree, if_true]
        rfl
      · exact hfine.not_parseError.elim
  · exact hfine.not_parseError.elim

theorem topIsOperand_defineFunction {call block : Node}
    (hfine : Clean (b.defineFunction call block).errors) :
    (b.defineFunction call block).topIsOperand = false := by
  unfold defineFunction at hfine ⊢
  split at hfine
  · split at hfine
    · split at hfine
      · rename_i hname hparams
        rw [if_pos hname, if_pos hparams]
        rfl
      · exact hfine.not_parseError.elim
    · exact hfine.not_parseError.elim
  · exact hfine.not_parseError.elim
  · exact hfine.not_parseError.elim

theorem topIsOperand_attachBlock {block : Node} (hblock : block.isOperand = false)
    (hfine : Clean (b.attachBlock block t).errors) : (b.attachBlock block t).topIsOperand = false := by
  unfold attachBlock at hfine ⊢
  split at hfine
  · exact hblock
  · split at hfine
    · rename_i helse
      rw [if_pos helse]
      split at hfine
      · split at hfine
        · rename_i hopen
          simp only [hopen, if_true]
          exact isOperand_extendBranch hopen
        · exact hfine.not_parseError.elim
      · exact hfine.not_parseError.elim
    · rename_i helse
      rw [if_neg helse]
      split at hfine
      · rename_i hboundary
        rw [if_pos hboundary]
        exact hblock
      · rename_i hboundary
        rw [if_neg hboundary]
        split at hfine
        · exact hfine.not_parseError.elim
        · rename_i hoperand
          rw [if_neg hoperand]
          split at hfine
          · split at hfine
            · rename_i htakes
              simp only [htakes, if_true]
              exact topIsOperand_pushConditional hfine
            · exact hfine.not_parseError.elim
          · split at hfine
            · rename_i hcall
              rw [if_pos hcall]
              exact topIsOperand_defineFunction hfine
            · exact hfine.not_parseError.elim

theorem topIsOperand_closeBlock (hfine : Clean (b.closeBlock t).errors) :
    (b.closeBlock t).topIsOperand = false := by
  unfold closeBlock at hfine ⊢
  split at hfine
  · exact hfine.not_parseError.elim
  · simp only at hfine ⊢
    split at hfine
    · exact topIsOperand_attachBlock rfl hfine
    · exact hfine.not_parseError.elim
  · exact hfine.not_parseError.elim

-- What the scanner looks for behind a token is what the builder has room for.
theorem topIsOperand_pushToken {order : ReadOrder} (hdummy : t.kind ≠ .dummy)
    (hbang : t.kind = .operator .factorial → order = .operatorFirst)
    (hagree : order = .operatorFirst ↔ b.topIsOperand = true) (hfine : Clean (b.pushToken t).errors) :
    order.after t.kind = .operatorFirst ↔ (b.pushToken t).topIsOperand = true := by
  obtain ⟨kind, text, p, span⟩ := t
  cases kind with
  | comment => exact hagree
  | dummy => exact absurd rfl hdummy
  | keyword word =>
    exact iff_of_false nofun (by simp [pushToken, topIsOperand_pushKeyword rfl hfine])
  | operator op =>
    have hoperator : ∀ row, op.binding? = some row → pushToken b ⟨.operator op, text, p, span⟩ =
        b.pushOperator ⟨.operator op, text, p, span⟩ op → Clean (b.pushToken ⟨.operator op, text, p, span⟩).errors →
        (b.pushToken ⟨.operator op, text, p, span⟩).topIsOperand = (!row.needsRight && b.topIsOperand) := by
      intro row hrow heq hfine
      rw [heq] at hfine ⊢
      exact topIsOperand_pushOperator rfl hrow hfine
    cases op with
    | leftParen | leftBracket | leftBrace =>
      exact iff_of_false nofun (by simp [pushToken, topIsOperand_pushOpen rfl hfine])
    | rightParen | rightBracket => exact iff_of_true rfl (topIsOperand_closeGroup hfine)
    | rightBrace => exact iff_of_false nofun (by simp [pushToken, topIsOperand_closeBlock hfine])
    | semicolon => exact iff_of_false nofun (by simp [pushToken, topIsOperand_endStatement rfl hfine])
    | colon => exact iff_of_false nofun (by simp [pushToken, topIsOperand_pushLabel hfine])
    | call | access => exact hfine.not_parseError.elim
    | factorial =>
      have htop := hoperator _ rfl rfl hfine
      exact iff_of_true rfl (by simp [htop, hagree.mp (hbang rfl)]; rfl)
    | postIncrement | postDecrement =>
      have htop := hoperator _ rfl rfl hfine
      rw [htop]
      exact hagree
    | _ =>
      have htop := hoperator _ rfl rfl hfine
      exact iff_of_false nofun (by rw [htop]; nofun)
  -- The literals and names.
  | _ => exact iff_of_true rfl (topIsOperand_pushValue rfl hfine)

end Builder

namespace Scanner

variable {source : String} {ts : List Token} {s : Scanner} {b : Builder}

-- Before the next token, the scanner looks for an operator if the builder has an
-- operand on top. Only then a sign stands apart from the number behind it, and a
-- lone `!` is a factorial.
structure Agrees (s : Scanner) (b : Builder) : Prop where
  order : s.order = .operatorFirst ↔ b.topIsOperand = true
  sign : ∀ c cs n rest, s.skipBlanks.rest = c :: cs → Numeral.isSign c = true →
    Numeral.read? (c :: cs) = some (n, rest) → ∃ t next, s.next = .token t next none ∧
      if b.topIsOperand then t.kind = .operator (Lexeme.signOperator c) ∧ t.text = String.singleton c
      else t.kind = .decimal n.value ∧ t.text = String.ofList n.chars
  bang : ∀ cs, s.skipBlanks.rest = '!' :: cs → cs.head? ≠ some '=' →
    ∃ t next, s.next = .token t next none ∧ t.text = "!" ∧
      t.kind = .operator (if b.topIsOperand then .factorial else .logicNot)

theorem Agrees.of_order (h : s.order = .operatorFirst ↔ b.topIsOperand = true) : s.Agrees b := by
  refine ⟨h, fun c cs n rest hrest hc hread => ?_, fun cs hrest hcs => ?_⟩
  · have hslash : c ≠ '/' := by rintro rfl; cases hc
    cases htop : b.topIsOperand with
    | true =>
      have hlexeme := Lexeme.read_sign hc hread
      rw [← h.mpr htop] at hlexeme
      obtain ⟨t, next, hnext, hkind, htext⟩ := next_of_read hrest hslash hlexeme
      exact ⟨t, next, hnext, hkind, htext⟩
    | false =>
      have horder : s.order = .numberFirst := by
        cases ho : s.order with
        | numberFirst => rfl
        | operatorFirst => simp [h.mp ho] at htop
      have hlexeme := Lexeme.read_number hread
      rw [← horder] at hlexeme
      obtain ⟨t, next, hnext, hkind, htext⟩ := next_of_read hrest hslash hlexeme
      have htake : (c :: cs).take n.chars.length = n.chars := by
        rw [← Numeral.chars_append hread, List.take_left]
      exact ⟨t, next, hnext, hkind, htext.trans (congrArg String.ofList htake)⟩
  · obtain ⟨t, next, hnext, hkind, htext⟩ := next_of_read hrest (by decide) (Lexeme.read_bang hcs)
    refine ⟨t, next, hnext, htext, ?_⟩
    simpa only [h] using hkind

theorem Reached.order {source : List Char} (h : Reached source ts s)
    (hfine : Clean (Builder.empty.pushTokens ts).errors) :
    s.order = .operatorFirst ↔ (Builder.empty.pushTokens ts).topIsOperand = true := by
  induction h with
  | start => exact iff_of_false nofun nofun
  | @next ts s next t w h hnext ih =>
    have hpush : Builder.empty.pushTokens (ts ++ [t]) = (Builder.empty.pushTokens ts).pushToken t := by
      simp [Builder.pushTokens]
    rw [hpush] at hfine ⊢
    obtain ⟨hdummy, hbang, horder⟩ := order_next hnext
    rw [horder]
    exact Builder.topIsOperand_pushToken hdummy hbang (ih (hfine.mono Builder.pushToken_errors)) hfine

-- If a parse comes through without an error, there is none at any token.
theorem Reached.clean (h : Reached source.toList ts s) (hfine : (Tree.parse source).hasErrors = false) :
    Clean (Builder.empty.pushTokens ts).errors := by
  have hscan : (Scan.ofSource source).tokens.map Prod.fst = ts ++ s.scan.tokens.map Prod.fst := h.scan
  have hall : (Builder.empty.pushTokens ((Scan.ofSource source).tokens.map Prod.fst)) =
      (Builder.empty.pushTokens ts).pushTokens (s.scan.tokens.map Prod.fst) := by
    rw [hscan]
    exact List.foldl_append
  have hparse := Builder.clean_of_finish hfine
  refine hparse.mono ?_
  refine List.Subset.trans ?_ (Builder.leftoverErrors_subset _ _)
  refine List.Subset.trans ?_ (Builder.closeLast_errors _)
  refine List.Subset.trans (Builder.pushTokens_errors (s.scan.tokens.map Prod.fst)) ?_
  rw [← hall]
  cases (Scan.ofSource source).fatal with
  | none => exact List.Subset.refl _
  | some d => exact Builder.record_errors d

-- As long as there are no complaints, scanner and builder agree on what stands
-- before the next token.
theorem Reached.agrees (h : Reached source.toList ts s)
    (hfine : Clean (Builder.empty.pushTokens ts).errors) :
    s.Agrees (Builder.empty.pushTokens ts) :=
  .of_order (h.order hfine)

theorem Reached.agrees_behind_name : ∃ ts s, Reached "x -1".toList ts s ∧
    Clean (Builder.empty.pushTokens ts).errors ∧ s.Agrees (Builder.empty.pushTokens ts) :=
  have h : Reached "x -1".toList _ _ := .next .start rfl
  ⟨_, _, h, nofun, Reached.agrees h nofun⟩

end Scanner

end FinLang

import FinLang.Proofs.Tree.Groups

namespace FinLang

namespace Builder

variable {b : Builder} {n x : Node} {s s' : List Node} {t : Token} {op : Operator}
  {errors : List Diagnostic} {word : Keyword}

section Ending

-- A statement in place of the keyword that began it and of its operand.
theorem same_statement {operands : List Node} (hn : n.Statement) (ht : t.keyword? = some word)
    (hops : ∀ c ∈ operands, c.Value) (hlen : operands.length ≤ 1)
    (hread : n.reading = Node.readingOf operands) :
    Same (operands ++ .ofToken t :: s) (n :: s) := by
  have hcount := isCounted_of_keyword ht
  match operands, hlen with
  | [], _ =>
    refine ⟨?_, ?_⟩
    · simp [tokens_cons, hread, Node.readingOf, hcount]
    · rw [opens_of_statement hn, List.nil_append, opens_of_word ht]
  | [x], _ =>
    refine ⟨?_, ?_⟩
    · simp [tokens_cons, hread, Node.readingOf, hcount]
    · rw [opens_of_statement hn, List.singleton_append, opens_of_value (hops x (by simp)),
        opens_of_word ht]

theorem pushKeywordStatement_spec {operand : Option Node} (hs : Stacked b.stack)
    (hbound : isBoundary b.stack.head? = true) (ht : t.keyword? = some word)
    (hoperand : ∀ x ∈ operand, x.Value)
    (hclean : Clean (b.pushKeywordStatement t word operand).errors) :
    Stacked (b.pushKeywordStatement t word operand).stack ∧
      Same (operand.toList ++ .ofToken t :: b.stack)
        (b.pushKeywordStatement t word operand).stack := by
  have hvalues : ∀ c ∈ operand.toList, c.Value := fun c hc => hoperand c (by simpa using hc)
  have hlen : operand.toList.length ≤ 1 := by cases operand <;> simp
  have hjump : ∀ n : Node, n.Statement → n.reading = Node.readingOf operand.toList →
      Stacked (n :: b.stack) ∧ Same (operand.toList ++ .ofToken t :: b.stack) (n :: b.stack) :=
    fun n hn hread => ⟨.statement hn hbound hs, same_statement hn ht hvalues hlen hread⟩
  unfold pushKeywordStatement at hclean ⊢
  split at hclean
  · obtain ⟨hdeclare, hsame⟩ := declaration_spec (s := b.stack) (hoperand _ rfl) ht hclean
    exact ⟨.statement hdeclare hbound hs, hsame⟩
  · exact hclean.not_parseError.elim
  · split at hclean
    · rename_i target hname
      simp only [hname, if_true]
      exact hjump _ (.goto ht hname (hoperand _ rfl)) rfl
    · exact hclean.not_parseError.elim
  · exact hclean.not_parseError.elim
  · exact hjump _ (.leave ht (.inl rfl) hvalues) rfl
  · exact hjump _ (.leave ht (.inr rfl) hvalues) rfl
  · exact hjump _ (.stop ht (.inl rfl)) rfl
  · exact hjump _ (.stop ht (.inr rfl)) rfl
  all_goals exact hclean.not_parseError.elim

theorem headToken?_ofToken : headToken? (.ofToken t) = t.keyword?.map (t, ·) :=
  rfl

theorem headToken?_of_boundary (h : isBoundary (some n) = true) : headToken? n = none := by
  obtain ⟨kind, token, children⟩ := n
  cases kind <;> try rfl
  cases token with
  | none => rfl
  | some t =>
    have hop : Node.openBracket? ⟨.single, some t, children⟩ = some .leftBrace := by
      simpa [isBoundary, Node.isStatement] using h
    have := Token.keyword?_of_operator (Option.filter_eq_some_iff.mp hop).1
    simp [headToken?, Node.isSingle, this]

theorem finishStatement_spec (hc : Complete b.stack)
    (hin : (opens b.stack).head? = none ∨ (opens b.stack).head? = some .leftBrace)
    (ht : t.operator? = some .semicolon) (hclean : Clean (b.finishStatement t).errors) :
    Stacked (b.finishStatement t).stack ∧ Same b.stack (b.finishStatement t).stack := by
  obtain ⟨stack, errors⟩ := b
  cases hc with
  | bare hbase =>
    rcases hbase.inBlock hin with hbound | ⟨u, word, below, rfl, hu, hbound, hb⟩
    · have heq : finishStatement ⟨stack, errors⟩ t = ⟨stack, errors⟩ := by
        cases stack with
        | nil => rfl
        | cons top below =>
          have htop := hbase.room top rfl
          simp [finishStatement, htop, headToken?_of_boundary hbound]
      rw [heq]
      exact ⟨hbase.stacked, .refl⟩
    · have heq : finishStatement ⟨.ofToken u :: below, errors⟩ t =
          pushKeywordStatement ⟨below, errors⟩ u word none := by
        simp [finishStatement, Token.isValue_of_keyword hu, headToken?_ofToken, hu]
      rw [heq] at hclean ⊢
      exact pushKeywordStatement_spec (b := ⟨below, errors⟩) hb hbound hu nofun hclean
  | @value x s hx hbase =>
    have hin' : (opens s).head? = none ∨ (opens s).head? = some .leftBrace := by
      rwa [opens_of_value hx] at hin
    rcases hbase.inBlock hin' with hbound | ⟨u, word, below, rfl, hu, hbound, hb⟩
    · have heq : finishStatement ⟨x :: s, errors⟩ t =
          ⟨⟨.statement, some t, [x]⟩ :: s, errors⟩ := by
        cases s with
        | nil => simp [finishStatement, hx.isOperand]
        | cons under rest => simp [finishStatement, hx.isOperand, headToken?_of_boundary hbound]
      have hn : Node.Statement ⟨.statement, some t, [x]⟩ := .expression ht hx
      rw [heq]
      refine ⟨.statement hn hbound hbase.stacked, ?_, ?_⟩
      · simp [tokens_cons, Node.reading, Node.readingOf]
      · rw [opens_of_statement hn, opens_of_value hx]
    · have heq : finishStatement ⟨x :: .ofToken u :: below, errors⟩ t =
          pushKeywordStatement ⟨below, errors⟩ u word (some x) := by
        simp [finishStatement, hx.isOperand, headToken?_ofToken, hu]
      rw [heq] at hclean ⊢
      exact pushKeywordStatement_spec (b := ⟨below, errors⟩) hb hbound hu
        (fun y hy => by cases hy; exact hx) hclean

theorem completeStatement_spec (hs : Stacked b.stack)
    (hin : (opens b.stack).head? = none ∨ (opens b.stack).head? = some .leftBrace)
    (ht : t.operator? = some .semicolon)
    (hclean : Clean (b.completeExpression.finishStatement t).errors) :
    Stacked (b.completeExpression.finishStatement t).stack ∧
      Same b.stack (b.completeExpression.finishStatement t).stack := by
  obtain ⟨hcomplete, hsame⟩ := completeStack_spec hs (hclean.mono finishStatement_errors)
  obtain ⟨hstack, hsame'⟩ := finishStatement_spec hcomplete (hsame.opens ▸ hin) ht hclean
  exact ⟨hstack, hsame.trans hsame'⟩

theorem opensBracket_of_mem_opens (h : op ∈ opens s) : op.opensBracket = true := by
  obtain ⟨n, -, hn⟩ := List.mem_filterMap.mp h
  exact opensBracket_of_openBracket? hn

-- A semicolon ends a statement, or a part of the head of a `for`.
theorem endStatement_spec (hs : Stacked b.stack) (ht : t.operator? = some .semicolon)
    (hclean : Clean (b.endStatement t).errors) : Pushed t b.stack (b.endStatement t).stack := by
  by_cases hparen : (opens b.stack).head? = some .leftParen
  · exact endStatement_paren hs ht hparen hclean
  · unfold endStatement at hclean ⊢
    rw [innermostBracket?_eq] at hclean ⊢
    split at hclean
    · contradiction
    · exact hclean.not_parseError.elim
    · rename_i hbracket
      have hin : (opens b.stack).head? = none ∨ (opens b.stack).head? = some .leftBrace := by
        cases hhead : (opens b.stack).head? with
        | none => exact .inl rfl
        | some op =>
          right
          have hop := opensBracket_of_mem_opens (List.mem_of_mem_head? hhead)
          by_cases hbrace : op = .leftBrace
          · rw [hbrace]
          · rcases round_or_square hop hbrace with rfl | rfl
            · exact absurd hhead hparen
            · exact absurd hhead hbracket
      obtain ⟨hstack, hsame⟩ := completeStatement_spec hs hin ht hclean
      exact .silent (isCounted_of_operator ht rfl) (brackets_semicolon ht _) hstack hsame

theorem eq_ofToken_of_name (hs : Stacked (n :: s)) (hname : n.name?.isSome = true) :
    ∃ u, n = .ofToken u ∧ n.Value ∧ Stacked s := by
  have hoperand : n.isOperand = true := by
    unfold Node.name? at hname
    split at hname
    · rename_i hkind htoken
      simp [Node.isOperand, hkind, htoken, Token.isValue]
    · cases hname
  obtain ⟨hv, -, -, -, hb⟩ := hs.value_of_isOperand hoperand
  cases hv with
  | token ht => exact ⟨_, rfl, .token ht, hb⟩
  | _ => cases hname

theorem brackets_colon (ht : t.operator? = some .colon) (opened : List Operator) :
    brackets opened [t] = some opened := by
  simp [brackets, ht, Operator.opensBracket, Operator.closes?]

theorem pushLabel_spec (hs : Stacked b.stack) (ht : t.operator? = some .colon)
    (hclean : Clean (b.pushLabel t).errors) : Pushed t b.stack (b.pushLabel t).stack := by
  obtain ⟨stack, errors⟩ := b
  unfold pushLabel at hclean ⊢
  cases stack with
  | nil => exact hclean.not_parseError.elim
  | cons top below =>
    simp only at hclean ⊢
    split at hclean
    · rename_i hlabel
      rw [if_pos hlabel]
      simp only [Bool.and_eq_true] at hlabel
      obtain ⟨hname, hbound⟩ := hlabel
      obtain ⟨u, rfl, hu, hb⟩ := eq_ofToken_of_name hs hname
      have hn : Node.Statement ⟨.label, some u, []⟩ := .label
      refine .silent (isCounted_of_operator ht rfl) (brackets_colon ht _)
        (.statement hn hbound hb) ⟨?_, ?_⟩
      · simp [tokens_cons, Node.reading, Node.ofToken]
      · exact (opens_of_statement hn _).trans (opens_of_value hu _).symm
    · exact hclean.not_parseError.elim

end Ending

section Blocks

variable {block condition : Node}

theorem Stacked.of_isStatement (hs : Stacked (n :: s)) (h : n.isStatement = true) :
    n.Statement ∧ isBoundary s.head? = true ∧ Stacked s := by
  cases hs with
  | value hn => simp [hn.not_isStatement] at h
  | statement hn hbound hb => exact ⟨hn, hbound, hb⟩
  | _ => cases h

theorem Stacked.of_head (hs : Stacked (n :: s)) (h : n.head? = some word) :
    ∃ u, n = .ofToken u ∧ u.keyword? = some word ∧ allowsKeyword word s.head? = true ∧
      Stacked s := by
  cases hs with
  | value hn =>
    cases hn with
    | token ht => simp [Token.keyword?_of_isValue ht] at h
    | _ => cases h
  | leading ht | infixed ht =>
    obtain ⟨o, ho, -⟩ := Token.operator?_of_binding ht
    simp [Token.keyword?_of_operator ho] at h
  | opening ht => simp [Token.keyword?_of_operator ht] at h
  | word ht hw hb =>
    cases ht.symm.trans h
    exact ⟨_, rfl, ht, hw, hb⟩
  | separator ht => simp [Token.keyword?_of_operator ht] at h
  | statement hn => cases hn <;> cases h

theorem extendBranch_spec (hn : n.Statement) (hopen : isOpenBranch n = true)
    (hcondition : Parsed (fun _ => True) .condition condition) (hblock : block.Statement)
    (hscoped : block.isScopedBlock = true) :
    (extendBranch n condition block).Statement ∧
      (extendBranch n condition block).reading =
        n.reading ++ (condition.reading ++ block.reading) := by
  cases hn with
  | @branch token pairs hconditions hbodies hall =>
    have heq : extendBranch ⟨.branch, token, pairs.flatMap fun p => [p.1, p.2]⟩ condition block =
        ⟨.branch, token, (pairs ++ [(condition, block)]).flatMap fun p => [p.1, p.2]⟩ := by
      simp [extendBranch]
    refine ⟨?_, ?_⟩
    · rw [heq]
      refine .branch (fun p hp => ?_) (fun p hp => ?_) (fun p hp => ?_)
      · rcases List.mem_append.mp hp with hp | hp
        · exact hconditions p hp
        · obtain rfl := List.mem_singleton.mp hp
          exact hcondition
      · rcases List.mem_append.mp hp with hp | hp
        · exact hbodies p hp
        · obtain rfl := List.mem_singleton.mp hp
          exact hblock
      · rcases List.mem_append.mp hp with hp | hp
        · exact hall p hp
        · obtain rfl := List.mem_singleton.mp hp
          exact hscoped
    · simp [extendBranch, Node.reading, Node.readingOf_append, Node.readingOf]
  | _ => simp [isOpenBranch] at hopen

-- An `elif` or an `else` goes on with the branch below it.
theorem extendBranch_same (hs : Stacked (n :: s)) (hopen : isOpenBranch n = true)
    (hcondition : Parsed (fun _ => True) .condition condition) (hblock : block.Statement)
    (hscoped : block.isScopedBlock = true) :
    Stacked (extendBranch n condition block :: s) ∧
      Builder.tokens (extendBranch n condition block :: s) = Builder.tokens (n :: s) ++
        (condition.reading ++ block.reading).filter Token.isCounted ∧
      Builder.opens (extendBranch n condition block :: s) = Builder.opens (n :: s) := by
  have hstatement : n.isStatement = true := by
    simp only [isOpenBranch, Bool.and_eq_true, beq_iff_eq] at hopen
    simp [Node.isStatement, hopen.1.1]
  obtain ⟨hn, hbound, hb⟩ := hs.of_isStatement hstatement
  obtain ⟨hextended, hread⟩ := extendBranch_spec hn hopen hcondition hblock hscoped
  refine ⟨.statement hextended hbound hb, ?_, ?_⟩
  · rw [tokens_cons, tokens_cons, hread]
    simp
  · rw [opens_of_statement hextended, opens_of_statement hn]

theorem Item.slot (h : n.Item) : Parsed (fun _ => True) .slot n := by
  cases h with
  | item hv => exact .slot hv
  | strayWord ht hs => exact .slotWord ht hs
  | strayDeclaration hd => exact .slotDeclaration hd

theorem group_of_paren (hn : n.Value) (hkind : n.kind = .expression)
    (hop : n.operator? = some .leftParen) :
    ∃ u items, n = .expression u items ∧ u.operator? = some .leftParen ∧ ∀ c ∈ items, c.Item := by
  cases hn with
  | token => cases hkind
  | group ht hitems => exact ⟨_, _, rfl, ht, hitems⟩
  | leading ht | trailing ht | infixed ht =>
    obtain ⟨o, ho, hrow⟩ := Token.operator?_of_binding ht
    cases ho.symm.trans hop
    cases hrow
  | list ht | call ht | access ht => cases ht.symm.trans hop

theorem pushConditional_spec (hs : Stacked b.stack) (hbound : isBoundary b.stack.head? = true)
    (ht : t.keyword? = some word) (hword : takesCondition word = true) (hx : x.Value)
    (hblock : block.Statement) (hscoped : block.isScopedBlock = true)
    (hclean : Clean (b.pushConditional (.ofToken t) x block word).errors) :
    Stacked (b.pushConditional (.ofToken t) x block word).stack ∧
      Same (block :: x :: .ofToken t :: b.stack)
        (b.pushConditional (.ofToken t) x block word).stack := by
  have hcount := isCounted_of_keyword ht
  have hopens : opens (block :: x :: .ofToken t :: b.stack) = opens b.stack := by
    rw [opens_of_statement hblock, opens_of_value hx, opens_of_word ht]
  have htokens : tokens (block :: x :: .ofToken t :: b.stack) =
      tokens b.stack ++ (x.reading ++ block.reading).filter Token.isCounted := by
    simp [tokens_cons, hcount]
  have hnew : ∀ n : Node, n.Statement → n.reading = x.reading ++ block.reading →
      Stacked (n :: b.stack) ∧ Same (block :: x :: .ofToken t :: b.stack) (n :: b.stack) :=
    fun n hn hread => ⟨.statement hn hbound hs, by rw [tokens_cons, hread, htokens],
      by rw [opens_of_statement hn, hopens]⟩
  unfold pushConditional at hclean ⊢
  split at hclean
  · rename_i hgroup
    rw [if_pos hgroup]
    simp only [Bool.and_eq_true, beq_iff_eq] at hgroup
    split at hclean
    · refine hnew _ (@Parsed.branch _ _ [(x, block)] ?_ ?_ ?_) (by simp [Node.reading, Node.readingOf])
      · simpa using Parsed.condition hx
      · simpa using hblock
      · simpa using hscoped
    · obtain ⟨stack, errors⟩ := b
      cases stack with
      | nil => exact hclean.not_nodeError.elim
      | cons branch below =>
        simp only at hclean ⊢
        split at hclean
        · rename_i hopen
          rw [if_pos hopen]
          obtain ⟨hstack, htok, hop⟩ := extendBranch_same hs hopen (.condition hx) hblock hscoped
          exact ⟨hstack, by rw [htok, htokens], by rw [hop, hopens]⟩
        · exact hclean.not_nodeError.elim
    · exact hnew _ (.whileLoop ht hx hblock hscoped) (by simp [Node.reading, Node.readingOf])
    · rename_i hif helif hwhile
      have hfor : word = .forWord := by cases word <;> simp [takesCondition] at hword hif helif hwhile ⊢
      subst hfor
      split at hclean
      · rename_i hlen
        rw [if_pos hlen]
        refine hnew _ ?_ (by simp [Node.reading, Node.readingOf])
        obtain ⟨u, items, rfl, hu, hitems⟩ := group_of_paren hx hgroup.1 hgroup.2
        obtain ⟨start, cond, step, rfl⟩ : ∃ a c d, items = [a, c, d] := List.length_eq_three.mp hlen
        exact .forLoop ht hu (Item.slot (hitems _ (by simp))) (hitems _ (by simp))
          (Item.slot (hitems _ (by simp))) hblock hscoped
      · exact hclean.not_nodeError.elim
  · exact hclean.not_nodeError.elim

theorem call_of_operator (hn : n.Value) (hop : n.operator? = some .call) :
    ∃ callee u items, n.children = [callee, .expression u items] ∧ callee.Value ∧
      u.operator? = some .leftParen ∧ (∀ c ∈ items, c.Item) ∧
      n.reading = callee.reading ++ (Node.expression u items).reading := by
  cases hn with
  | token ht => simp [Node.operator?, Node.ofToken, Token.operator?_of_isValue ht] at hop
  | leading ht | trailing ht | infixed ht =>
    obtain ⟨o, ho, hrow⟩ := Token.operator?_of_binding ht
    cases ho.symm.trans hop
    cases hrow
  | group ht | list ht | access ht => cases ht.symm.trans hop
  | @call t callee args ht hcallee hargs hparen =>
    have hkind : args.kind = .expression := by
      cases hargs with
      | token ht => simp [Node.operator?, Node.ofToken, Token.operator?_of_isValue ht] at hparen
      | _ => rfl
    obtain ⟨u, items, rfl, hu, hitems⟩ := group_of_paren hargs hkind hparen
    have happ : Node.isApplication t = true := by simp [Node.isApplication, ht]
    exact ⟨_, _, _, rfl, hcallee, hu, hitems, (application_spec happ).2.2⟩

theorem Item.value_of_name (h : n.Item) (hname : n.name?.isSome = true) : n.Value := by
  cases h with
  | item hv => exact hv
  | @strayWord t ht =>
    unfold Node.name? at hname
    split at hname
    · rename_i htoken
      cases htoken
      cases ht
    · cases hname
  | strayDeclaration => cases hname

theorem defineFunction_spec (hs : Stacked b.stack) (hbound : isBoundary b.stack.head? = true)
    (hx : x.Value) (hop : x.operator? = some .call) (hblock : block.Statement)
    (hscoped : block.isScopedBlock = true) (hclean : Clean (b.defineFunction x block).errors) :
    Stacked (b.defineFunction x block).stack ∧
      Same (block :: x :: b.stack) (b.defineFunction x block).stack := by
  obtain ⟨name, u, params, hchildren, hname, hu, hitems, hread⟩ := call_of_operator hx hop
  unfold defineFunction at hclean ⊢
  rw [hchildren] at hclean ⊢
  simp only at hclean ⊢
  split at hclean
  · rename_i hisName
    rw [if_pos hisName]
    split at hclean
    · rename_i hparams
      rw [if_pos hparams]
      have hnames : ∀ p ∈ params, p.name?.isSome = true := List.all_eq_true.mp hparams
      have hn : Node.Statement ⟨.function, name.token, [name, .expression u params, block]⟩ :=
        .function hisName hname hu
          (fun p hp => Item.value_of_name (hitems p hp) (hnames p hp)) hnames hblock hscoped
      refine ⟨.statement hn hbound hs, ?_, ?_⟩
      · simp [push, tokens_cons, hread, Node.reading, Node.readingOf]
      · exact (opens_of_statement hn _).trans
          ((opens_of_statement hblock _).trans (opens_of_value hx _)).symm
    · exact hclean.not_nodeError.elim
  · exact hclean.not_nodeError.elim

-- A block goes to the head before it, or stands for itself.
theorem attachBlock_spec (hs : Stacked b.stack) (hblock : block.Statement)
    (hscoped : block.isScopedBlock = true) (hclean : Clean (b.attachBlock block t).errors) :
    Stacked (b.attachBlock block t).stack ∧
      Same (block :: b.stack) (b.attachBlock block t).stack := by
  obtain ⟨stack, errors⟩ := b
  cases stack with
  | nil => exact ⟨.statement hblock rfl hs, .refl⟩
  | cons top below =>
    unfold attachBlock at hclean ⊢
    simp only at hclean ⊢
    split at hclean
    · rename_i helse
      rw [if_pos helse]
      obtain ⟨u, rfl, hu, -, hb⟩ := hs.of_head (beq_iff_eq.mp helse)
      cases below with
      | nil => exact hclean.not_nodeError.elim
      | cons branch rest =>
        simp only at hclean ⊢
        split at hclean
        · rename_i hopen
          rw [if_pos hopen]
          obtain ⟨hstack, htokens, hopens⟩ := extendBranch_same hb hopen .always hblock hscoped
          refine ⟨hstack, ?_, ?_⟩
          · rw [htokens]
            simp [tokens_cons, isCounted_of_keyword hu, Node.always, Node.reading, Node.readingOf]
          · rw [hopens, opens_of_statement hblock, opens_of_word hu]
        · exact hclean.not_nodeError.elim
    · rename_i helse
      rw [if_neg helse]
      split at hclean
      · rename_i hbound
        rw [if_pos hbound]
        exact ⟨.statement hblock hbound hs, .refl⟩
      · rename_i hbound
        rw [if_neg hbound]
        split at hclean
        · exact hclean.not_parseError.elim
        · rename_i hoperand
          rw [if_neg hoperand]
          obtain ⟨hv, -, -, -, hb⟩ := hs.value_of_isOperand (by simpa using hoperand)
          split at hclean
          · rename_i under rest word hword
            split at hclean
            · rename_i htakes
              simp only [htakes, if_true]
              obtain ⟨u, rfl, hu, hallow, hrest⟩ := hb.of_head hword
              have hbound : isBoundary rest.head? = true := by
                rw [allowsKeyword_eq] at hallow
                cases word <;> simp [takesCondition] at htakes hallow <;> exact hallow
              exact pushConditional_spec (b := ⟨rest, errors⟩) hrest hbound hu htakes hv hblock hscoped
                hclean
            · exact hclean.not_parseError.elim
          · split at hclean
            · rename_i hcall
              simp only [hcall, if_true]
              simp only [Bool.and_eq_true, beq_iff_eq] at hcall
              exact defineFunction_spec (b := ⟨_, errors⟩) hb hcall.2 hv hcall.1 hblock hscoped
                hclean
            · exact hclean.not_parseError.elim

-- A block is made of the statements above its brace.
theorem takeBody_spec {body marker below errors'} (hs : Stacked s)
    (hclean : Clean errors') {result : List Node}
    (heq : takeBody errors body s = (result, errors', marker :: below))
    (hbody : ∀ c ∈ body, Node.Statement c) :
    (∀ c ∈ result, Node.Statement c) ∧ marker.openBracket? = some .leftBrace ∧
      Stacked (marker :: below) ∧ opens s = opens (marker :: below) ∧
      tokens s ++ (Node.readingOf body).filter Token.isCounted =
        tokens (marker :: below) ++ (Node.readingOf result).filter Token.isCounted := by
  fun_induction takeBody errors body s with
  | case1 => cases heq
  | case2 errors body n rest hbrace =>
    cases heq
    exact ⟨hbody, beq_iff_eq.mp hbrace, hs, rfl, rfl⟩
  | case3 errors body n rest hbrace hstatement ih =>
    obtain ⟨hn, -, hb⟩ := hs.of_isStatement hstatement
    obtain ⟨hresult, hmarker, hrest, hopens, htokens⟩ := ih hb heq (by
      intro c hc
      rcases List.mem_cons.mp hc with rfl | hc
      · exact hn
      · exact hbody c hc)
    refine ⟨hresult, hmarker, hrest, ?_, ?_⟩
    · rw [opens_of_statement hn, hopens]
    · rw [← htokens, tokens_cons]
      simp [Node.readingOf]
  | case4 errors body n rest _ _ ih =>
    have hsub := @takeBody_errors (nodeError n .incompleteInBlock :: errors) body rest
    rw [heq] at hsub
    exact (hclean.mono hsub).not_nodeError.elim

theorem closeBlock_spec (hs : Stacked b.stack) (ht : t.operator? = some .rightBrace)
    (hclean : Clean (b.closeBlock t).errors) : Pushed t b.stack (b.closeBlock t).stack := by
  unfold closeBlock at hclean ⊢
  rw [innermostBracket?_eq] at hclean ⊢
  split at hclean
  · exact hclean.not_parseError.elim
  · rename_i hin
    simp only at hclean ⊢
    have hfinish : Clean (if isBoundary b.top? = true then b
          else b.completeExpression.finishStatement
            (.semicolonAt t.position t.span.start)).errors →
        Stacked (if isBoundary b.top? = true then b
          else b.completeExpression.finishStatement
            (.semicolonAt t.position t.span.start)).stack ∧
        Same b.stack (if isBoundary b.top? = true then b
          else b.completeExpression.finishStatement
            (.semicolonAt t.position t.span.start)).stack := by
      intro hc
      split at hc
      · rename_i hbound
        simp only [hbound, if_true]
        exact ⟨hs, .refl⟩
      · rename_i hbound
        simp only [hbound, Bool.false_eq_true, if_false]
        exact completeStatement_spec hs (.inr hin) rfl hc
    generalize (if isBoundary b.top? = true then b
        else b.completeExpression.finishStatement (.semicolonAt t.position t.span.start)) = c
      at hfinish hclean ⊢
    have hsub := @takeBody_errors c.errors [] c.stack
    split at hclean
    · rename_i body errors marker below heq
      rw [heq] at hsub
      have hbody := hclean.mono (attachBlock_errors (b := ⟨below, errors⟩) _)
      obtain ⟨hc, hsame⟩ := hfinish (hbody.mono hsub)
      obtain ⟨hstatements, hbrace, hmarker, hopens, htokens⟩ := takeBody_spec hc hbody heq nofun
      obtain ⟨u, hu⟩ := token_of_openBracket? hbrace
      obtain ⟨rfl, hop, hb⟩ := hmarker.bracket hu hbrace
      have hblock : Node.Statement ⟨.statement, some u, body⟩ := .block hop hstatements
      obtain ⟨hstack, hsame'⟩ := attachBlock_spec (b := ⟨below, errors⟩) hb hblock
        (by simp [Node.isScopedBlock, Node.operator?, hop]) hclean
      refine .of_same hsame (.closed (l := below) ht rfl hstack ?_ ?_ ?_)
      · have hcount := isCounted_of_bracket hop rfl
        refine hsame'.tokens.trans ?_
        simpa [tokens_cons, Node.readingOf, Node.reading, hcount] using htokens.symm
      · rw [hopens, opens_of_opening hop rfl]
      · exact hsame'.opens.trans (opens_of_statement hblock _)
    · exact hclean.not_parseError.elim
  · exact hclean.not_parseError.elim

end Blocks

section Pushing

theorem pushValue_spec (hs : Stacked b.stack) (ht : t.isValue = true)
    (hclean : Clean (b.pushValue t).errors) : Pushed t b.stack (b.pushValue t).stack := by
  unfold pushValue at hclean ⊢
  split at hclean
  · exact hclean.not_parseError.elim
  · rename_i hroom
    have hop := Token.operator?_of_isValue ht
    simp only [hroom, Bool.false_eq_true, if_false]
    refine ⟨hs.push_value ht (room_of_topIsOperand (by simpa using hroom)),
      ⟨_, tokens_cons, ?_⟩, ?_⟩
    · cases hc : t.isCounted with
      | false => simp [hc]
      | true =>
        have hself : t.Becomes t := .inl rfl
        simpa [hc] using hself
    · simp [push, opens_cons, brackets, hop]

theorem pushKeyword_spec (hs : Stacked b.stack) (ht : t.keyword? = some word)
    (hclean : Clean (b.pushKeyword t word).errors) :
    Pushed t b.stack (b.pushKeyword t word).stack := by
  unfold pushKeyword at hclean ⊢
  split at hclean
  · rename_i hallow
    rw [if_pos hallow]
    refine .silent (isCounted_of_keyword ht)
      (brackets_of_operator? _ (Token.operator?_of_keyword ht)) (.word ht hallow hs)
      (same_of_reading ?_ ?_)
    · simp [isCounted_of_keyword ht]
    · simp [Token.operator?_of_keyword ht]
  · exact hclean.not_parseError.elim

theorem pushOpen_spec (hs : Stacked b.stack) (ht : t.operator? = some op)
    (hop : op.opensBracket = true) (hclean : Clean (b.pushOpen t op).errors) :
    Pushed t b.stack (b.pushOpen t op).stack := by
  unfold pushOpen at hclean ⊢
  split at hclean
  · exact hclean.not_parseError.elim
  · have hcount := isCounted_of_bracket ht hop
    refine ⟨.opening ht hop hs, ⟨[], ?_, ?_⟩, ?_⟩
    · simp [push, tokens_cons, hcount]
    · simp [hcount]
    · simp [push, brackets, ht, hop, opens_of_opening ht hop]

-- A token that draws no complaint keeps the stack in order and is accounted for
-- in it.
theorem pushToken_spec (hs : Stacked b.stack) (hclean : Clean (b.pushToken t).errors) :
    Pushed t b.stack (b.pushToken t).stack := by
  unfold pushToken at hclean ⊢
  split at hclean
  · rename_i hkind
    refine .silent (by simp [Token.isCounted, hkind]) ?_ hs .refl
    exact brackets_of_operator? _ (by simp [Token.operator?, hkind])
  iterate 4
    rename_i hkind
    exact pushValue_spec hs (by simp [Token.isValue, hkind]) hclean
  · rename_i word hkind
    exact pushKeyword_spec hs (by simp [Token.keyword?, hkind]) hclean
  · rename_i op hkind
    have hop : t.operator? = some op := by simp [Token.operator?, hkind]
    split at hclean
    iterate 3 exact pushOpen_spec hs hop rfl hclean
    · exact closeGroup_spec hs hop rfl (by simp) hclean
    · exact closeGroup_spec hs hop rfl (by simp) hclean
    · exact closeBlock_spec hs hop hclean
    · exact endStatement_spec hs hop hclean
    · exact pushLabel_spec hs hop hclean
    · exact pushOperator_spec hs hkind hclean

end Pushing

end Builder

end FinLang

import FinLang.Proofs.Tree.Expressions

namespace FinLang

namespace Node

variable {n : Node} {op : Operator}

theorem Item.openBracket?_eq_none (hn : n.Item) : n.openBracket? = none := by
  cases hn with
  | item hv => exact Value.openBracket?_eq_none hv
  | strayWord ht => simp [Token.operator?_of_keyword ht]
  | strayDeclaration => rfl

theorem Value.not_isSeparator (hn : n.Value) : n.isSeparator = false := by
  cases hn with
  | token ht => simp [Token.operator?_of_isValue ht]
  | _ => rfl

theorem Item.not_isSeparator (hn : n.Item) : n.isSeparator = false := by
  cases hn with
  | item hv => exact Value.not_isSeparator hv
  | strayWord ht => simp [Token.operator?_of_keyword ht]
  | strayDeclaration => rfl

theorem Statement.not_isSeparator (hn : n.Statement) : n.isSeparator = false := by
  cases hn <;> rfl

theorem Value.not_isStatement (hn : n.Value) : n.isStatement = false := by
  cases hn <;> rfl

theorem not_isOperand_of_waiting (h : n.waiting? = some op) : n.isOperand = false := by
  obtain ⟨kind, token, children⟩ := n
  cases kind <;> try cases h
  obtain ⟨hop, -⟩ := Option.filter_eq_some_iff.mp h
  obtain ⟨t, rfl, ht⟩ := Option.bind_eq_some_iff.mp hop
  exact Token.isValue_of_operator ht

section Commas

theorem Value.of_comma {token : Option Token} {children : List Node}
    (hn : Value ⟨.expression, token, children⟩)
    (hcomma : token.bind Token.operator? = some .comma) :
    ∃ t l r, token = some t ∧ children = [l, r] ∧ l.Value ∧ r.Value := by
  cases hn with
  | infixed _ _ _ hl hr => exact ⟨_, _, _, rfl, rfl, hl, hr⟩
  | leading ht hleft =>
    obtain ⟨op, hop, hrow⟩ := Token.operator?_of_binding ht
    cases hop.symm.trans hcomma
    cases hrow
    cases hleft
  | trailing ht _ hright =>
    obtain ⟨op, hop, hrow⟩ := Token.operator?_of_binding ht
    cases hop.symm.trans hcomma
    cases hrow
    cases hright
  | group ht => cases ht.symm.trans hcomma
  | list ht => cases ht.symm.trans hcomma
  | call ht => cases ht.symm.trans hcomma
  | access ht => cases ht.symm.trans hcomma

mutual

theorem commaPartsOnto_value : ∀ (n : Node) (after : List Node), n.Value →
    (∀ c ∈ after, Value c) → ∀ c ∈ commaPartsOnto n after, Value c
  | ⟨kind, token, children⟩, after, hn, hafter => by
    unfold commaPartsOnto
    split
    · rename_i hcomma
      simp only [Bool.and_eq_true, beq_iff_eq] at hcomma
      obtain ⟨rfl, hcomma⟩ := hcomma
      obtain ⟨t, l, r, rfl, rfl, hl, hr⟩ := hn.of_comma hcomma
      exact commaPartsOfOnto_value [l, r] after (by simp [hl, hr]) hafter
    · simpa [hn] using hafter

theorem commaPartsOfOnto_value : ∀ (cs after : List Node), (∀ c ∈ cs, Value c) →
    (∀ c ∈ after, Value c) → ∀ c ∈ commaPartsOfOnto cs after, Value c
  | [], after, _, hafter => hafter
  | n :: rest, after, hcs, hafter => by
    have hrest := commaPartsOfOnto_value rest after (fun c hc => hcs c (.tail _ hc)) hafter
    exact commaPartsOnto_value n _ (hcs n (.head _)) hrest

end

mutual

theorem commaPartsOnto_reading : ∀ (n : Node) (after : List Node), n.Value →
    (readingOf (commaPartsOnto n after)).filter Token.isCounted =
      (reading n ++ readingOf after).filter Token.isCounted
  | ⟨kind, token, children⟩, after, hn => by
    unfold commaPartsOnto
    split
    · rename_i hcomma
      simp only [Bool.and_eq_true, beq_iff_eq] at hcomma
      obtain ⟨rfl, hcomma⟩ := hcomma
      obtain ⟨t, l, r, rfl, rfl, hl, hr⟩ := hn.of_comma hcomma
      have hop : t.operator? = some .comma := hcomma
      have hcount : t.isCounted = false := by
        cases hk : t.kind <;> simp_all [Token.operator?, Token.isCounted]
      have hbind : t.binding? = some (.infixed 1 .left none) := by
        simp [Token.binding?, hop, Operator.binding?]
      rw [commaPartsOfOnto_reading [l, r] after (by simp [hl, hr])]
      simp [reading, readingOf, hbind, hcount]
    · simp [readingOf]

theorem commaPartsOfOnto_reading : ∀ (cs after : List Node), (∀ c ∈ cs, Value c) →
    (readingOf (commaPartsOfOnto cs after)).filter Token.isCounted =
      (readingOf cs ++ readingOf after).filter Token.isCounted
  | [], after, _ => by simp [commaPartsOfOnto, readingOf]
  | n :: rest, after, hcs => by
    have hrest := commaPartsOfOnto_reading rest after (fun c hc => hcs c (.tail _ hc))
    rw [commaPartsOfOnto, commaPartsOnto_reading n _ (hcs n (.head _)), List.filter_append, hrest]
    simp [readingOf]

end

theorem Value.commaParts (hn : n.Value) : ∀ c ∈ n.commaParts, Value c :=
  commaPartsOnto_value n [] hn nofun

theorem Value.commaParts_reading (hn : n.Value) :
    (readingOf n.commaParts).filter Token.isCounted = n.reading.filter Token.isCounted := by
  have h := commaPartsOnto_reading n [] hn
  rwa [readingOf, List.append_nil] at h

theorem readingOf_append (as bs : List Node) :
    readingOf (as ++ bs) = readingOf as ++ readingOf bs := by
  induction as with
  | nil => rfl
  | cons n rest ih => simp [readingOf, ih]

end Commas

end Node

namespace Builder

variable {b : Builder} {n x : Node} {s s' cs : List Node} {t : Token} {op : Operator}
  {errors : List Diagnostic} {word : Keyword}

section Counting

theorem isCounted_of_keyword (ht : t.keyword? = some word) : t.isCounted = false := by
  cases hk : t.kind <;> simp_all [Token.keyword?, Token.isCounted]

theorem isCounted_of_operator (ht : t.operator? = some op) (hop : op.binding? = none) :
    t.isCounted = false := by
  cases hk : t.kind <;> simp_all [Token.operator?, Token.isCounted]

theorem isCounted_of_bracket (ht : t.operator? = some op) (hop : op.opensBracket = true) :
    t.isCounted = false :=
  isCounted_of_operator ht (by cases op <;> first | rfl | cases hop)

end Counting

section Inside

theorem not_isBoundary_of_value (hn : n.Value) : isBoundary (some n) = false := by
  simp [isBoundary, hn.not_isStatement, hn.openBracket?_eq_none]

-- A statement begins at the bottom or in a block.
theorem Stacked.boundary (hs : Stacked s) (h : isBoundary s.head? = true) :
    (opens s).head? = none ∨ (opens s).head? = some .leftBrace := by
  induction hs with
  | nil => exact .inl rfl
  | value hn => simp [not_isBoundary_of_value hn] at h
  | leading ht => simp [isBoundary, Node.openBracket?_of_binding ht, -Node.openBracket?_ofToken] at h
  | infixed ht => simp [isBoundary, Node.openBracket?_of_binding ht, -Node.openBracket?_ofToken] at h
  | opening ht hop =>
    right
    simpa [isBoundary, opens_cons, ht, Option.filter, hop] using h
  | word ht => simp [isBoundary, Token.operator?_of_keyword ht] at h
  | separator ht => simp [isBoundary, ht, Option.filter, Operator.opensBracket] at h
  | statement hn hbelow _ ih => simpa [opens_cons, hn.openBracket?_eq_none] using ih hbelow

-- A part of a group begins in parentheses.
theorem Stacked.part (hs : Stacked s) (h : opensPart s = true) :
    (opens s).head? = some .leftParen := by
  induction hs with
  | nil => cases h
  | value hn => simp [opensPart, hn.not_isSeparator, hn.openBracket?_eq_none] at h
  | leading ht | infixed ht =>
    obtain ⟨o, ho, hrow⟩ := Token.operator?_of_binding ht
    cases o <;> cases hrow <;> simp [opensPart, ho, Option.filter, Operator.opensBracket] at h
  | @opening _ o _ ht hop =>
    cases o <;> cases hop <;>
      simp [opensPart, ht, Option.filter, Operator.opensBracket] at h
    simp [opens_cons, ht, Option.filter, Operator.opensBracket]
  | word ht => simp [opensPart, Token.operator?_of_keyword ht] at h
  | separator ht hpart hbelow _ ih =>
    simpa [opens_cons, hpart.openBracket?_eq_none, ht, Option.filter,
      Operator.opensBracket] using ih hbelow
  | statement hn => simp [opensPart, hn.not_isSeparator, hn.openBracket?_eq_none] at h

theorem allowsKeyword_eq (below : List Node) : allowsKeyword word below.head? =
    (isBoundary below.head? || word == .varWord && opensPart below) := by
  cases below with
  | nil => rfl
  | cons n below => simp [allowsKeyword, opensPart, Bool.or_comm]

theorem opens_of_word (ht : t.keyword? = some word) (s : List Node) :
    opens (.ofToken t :: s) = opens s := by
  simp [opens_cons, Token.operator?_of_keyword ht]

theorem opens_of_opening (ht : t.operator? = some op) (hop : op.opensBracket = true)
    (s : List Node) : opens (.ofToken t :: s) = op :: opens s := by
  simp [opens_cons, ht, Option.filter, hop]

theorem opens_of_statement (hn : n.Statement) (s : List Node) : opens (n :: s) = opens s := by
  simp [opens_cons, hn.openBracket?_eq_none]

theorem opens_of_value (hn : n.Value) (s : List Node) : opens (n :: s) = opens s := by
  simp [opens_cons, hn.openBracket?_eq_none]

theorem Base.inParen (h : Base s) (hin : (opens s).head? = some .leftParen) :
    opensPart s = true ∨ ∃ t below, s = .ofToken t :: below ∧ t.keyword? = some .varWord ∧
      opensPart below = true ∧ Stacked below := by
  cases h with
  | nil => cases hin
  | opening ht hop =>
    left
    rw [opens_of_opening ht hop] at hin
    cases hin
    simp [opensPart, ht, Option.filter, Operator.opensBracket]
  | word ht hw hb =>
    rw [opens_of_word ht] at hin
    rw [allowsKeyword_eq] at hw
    rcases Bool.or_eq_true_iff.mp hw with hbound | hw
    · rcases hb.boundary hbound with h | h <;> cases h.symm.trans hin
    · simp only [Bool.and_eq_true, beq_iff_eq] at hw
      obtain ⟨rfl, hpart⟩ := hw
      exact .inr ⟨_, _, rfl, ht, hpart, hb⟩
  | separator ht =>
    left
    simp [opensPart, ht]
  | statement hn hbound hb =>
    rw [opens_of_statement hn] at hin
    rcases hb.boundary hbound with h | h <;> cases h.symm.trans hin

theorem Base.inBracket (h : Base s) (hin : (opens s).head? = some .leftBracket) :
    ∃ t below, s = .ofToken t :: below ∧ t.operator? = some .leftBracket ∧ Stacked below := by
  cases h with
  | nil => cases hin
  | opening ht hop hb =>
    rw [opens_of_opening ht hop] at hin
    cases hin
    exact ⟨_, _, rfl, ht, hb⟩
  | word ht hw hb =>
    rw [opens_of_word ht] at hin
    rw [allowsKeyword_eq] at hw
    rcases Bool.or_eq_true_iff.mp hw with hbound | hw
    · rcases hb.boundary hbound with h | h <;> cases h.symm.trans hin
    · cases (hb.part (Bool.and_eq_true_iff.mp hw).2).symm.trans hin
  | separator ht hp ho hb =>
    rw [(Stacked.separator ht hp ho hb).part (by simp [opensPart, ht])] at hin
    cases hin
  | statement hn hbound hb =>
    rw [opens_of_statement hn] at hin
    rcases hb.boundary hbound with h | h <;> cases h.symm.trans hin

theorem Base.inBlock (h : Base s)
    (hin : (opens s).head? = none ∨ (opens s).head? = some .leftBrace) :
    isBoundary s.head? = true ∨ ∃ t word below, s = .ofToken t :: below ∧
      t.keyword? = some word ∧ isBoundary below.head? = true ∧ Stacked below := by
  cases h with
  | nil => exact .inl rfl
  | opening ht hop =>
    left
    simpa [opens_of_opening ht hop, isBoundary, ht, Option.filter, hop] using hin
  | word ht hw hb =>
    rw [opens_of_word ht] at hin
    rw [allowsKeyword_eq] at hw
    rcases Bool.or_eq_true_iff.mp hw with hbound | hw
    · exact .inr ⟨_, _, _, rfl, ht, hbound, hb⟩
    · rw [hb.part (Bool.and_eq_true_iff.mp hw).2] at hin
      rcases hin with h | h <;> cases h
  | separator ht hp ho hb =>
    rw [(Stacked.separator ht hp ho hb).part (by simp [opensPart, ht])] at hin
    rcases hin with h | h <;> cases h
  | statement hn =>
    left
    cases hn <;> rfl

end Inside

section Heads

theorem isDeclarator_of_clean {parts : List Node}
    (hclean : Clean (declarationErrors errors parts)) :
    ∀ c ∈ parts, isDeclarator c = true := by
  induction parts generalizing errors with
  | nil => exact nofun
  | cons part rest ih =>
    have hpart : isDeclarator part = true := by
      by_contra hnot
      refine (hclean.mono ?_ : Clean (nodeError part .declarationName :: errors)).not_nodeError
      have := @declarationErrors_subset (nodeError part .declarationName :: errors) rest
      simpa [declarationErrors, hnot] using this
    intro c hc
    rcases List.mem_cons.mp hc with rfl | hc
    · exact hpart
    · refine @ih errors ?_ c hc
      simpa [declarationErrors, hpart] using hclean

theorem declaration_spec (hx : x.Value) (ht : t.keyword? = some .varWord)
    (hclean : Clean (declarationErrors errors x.commaParts)) :
    Node.Statement ⟨.declare, some t, x.commaParts⟩ ∧
      Same (x :: .ofToken t :: s) (⟨.declare, some t, x.commaParts⟩ :: s) := by
  have hdeclare : Node.Statement ⟨.declare, some t, x.commaParts⟩ :=
    .declaration ht hx.commaParts (isDeclarator_of_clean hclean)
  refine ⟨hdeclare, ?_, ?_⟩
  · simp [tokens_cons, Node.reading, hx.commaParts_reading, isCounted_of_keyword ht]
  · rw [opens_of_statement hdeclare, opens_of_value hx, opens_of_word ht]

-- A part of a group on what it may begin behind.
structure OnPart (n : Node) (s : List Node) : Prop where
  item : n.Item
  part : opensPart s = true
  stacked : Stacked s

theorem keyword?_of_opensPart (h : opensPart (n :: s) = true) : n.keyword? = none := by
  obtain ⟨kind, token, children⟩ := n
  cases kind <;> try cases h
  cases token with
  | none => rfl
  | some t =>
    simp only [opensPart, List.head?_cons, Option.any_some, Bool.or_eq_true] at h
    have hop : ∃ op, t.operator? = some op := by
      rcases h with h | h
      · exact ⟨_, by simpa [Node.isSeparator, Node.isSingle, Node.operator?] using h⟩
      · have := (Option.filter_eq_some_iff.mp (beq_iff_eq.mp h)).1
        exact ⟨_, this⟩
    obtain ⟨op, hop⟩ := hop
    exact Token.keyword?_of_operator hop

-- A declaration in the head of a `for` is put together; all else is left alone.
theorem finishHeadDeclaration_spec (hc : Complete b.stack)
    (hin : (opens b.stack).head? = some .leftParen)
    (hclean : Clean b.finishHeadDeclaration.errors) :
    (b.finishHeadDeclaration = b ∧ opensPart b.stack = true ∧ Stacked b.stack) ∨
      ∃ n s, b.finishHeadDeclaration.stack = n :: s ∧ OnPart n s ∧ Same b.stack (n :: s) := by
  obtain ⟨stack, errors⟩ := b
  cases hc with
  | bare hbase =>
    -- Nothing follows a keyword that stands on top.
    have hsame : finishHeadDeclaration ⟨stack, errors⟩ = ⟨stack, errors⟩ := by
      cases stack with
      | nil => rfl
      | cons top rest =>
        have htop := hbase.room top rfl
        cases rest with
        | nil => rfl
        | cons under rest =>
          simp only [finishHeadDeclaration, htop]
          split <;> rfl
    rcases hbase.inParen hin with hpart | ⟨t, below, rfl, ht, hpart, hb⟩
    · exact .inl ⟨hsame, hpart, hbase.stacked⟩
    · rw [hsame]
      exact .inr ⟨_, _, rfl, ⟨.strayWord ht trivial, hpart, hb⟩, .refl⟩
  | @value x s hx hbase =>
    rw [opens_of_value hx] at hin
    right
    rcases hbase.inParen hin with hpart | ⟨t, below, rfl, ht, hpart, hb⟩
    · refine ⟨x, s, ?_, ⟨.item hx, hpart, hbase.stacked⟩, .refl⟩
      cases s with
      | nil => cases hpart
      | cons under rest =>
        simp only [finishHeadDeclaration, keyword?_of_opensPart hpart]
        split <;> first | rfl | contradiction
    · have heq : finishHeadDeclaration ⟨x :: .ofToken t :: below, errors⟩ =
          ⟨⟨.declare, some t, x.commaParts⟩ :: below, declarationErrors errors x.commaParts⟩ := by
        simp [finishHeadDeclaration, ht, hx.isOperand, Node.ofToken, Node.keyword?,
          pushKeywordStatement]
      rw [heq] at hclean ⊢
      obtain ⟨hdeclare, hsame⟩ := declaration_spec (s := below) hx ht hclean
      exact ⟨_, _, rfl, ⟨.strayDeclaration hdeclare trivial, hpart, hb⟩, hsame⟩

-- A comma at the end of a part stands before an empty slot.
theorem completePart_spec (hs : Stacked b.stack) (hclean : Clean (b.completePart t).errors) :
    Complete (b.completePart t).stack ∧ Same b.stack (b.completePart t).stack := by
  have hslot : Stacked (if b.topWaiting? == some .comma then b.pushDummy t else b).stack ∧
      Same b.stack (if b.topWaiting? == some .comma then b.pushDummy t else b).stack := by
    split
    · rename_i hcomma
      refine pushDummy_spec hs fun n hn => ?_
      have hwait : b.topWaiting? = some .comma := beq_iff_eq.mp hcomma
      rw [topWaiting?, top?, Option.mem_def.mp hn] at hwait
      exact Node.not_isOperand_of_waiting hwait
    · exact ⟨hs, .refl⟩
  unfold completePart at hclean ⊢
  generalize (if b.topWaiting? == some .comma then b.pushDummy t else b) = c at hslot hclean ⊢
  obtain ⟨hcomplete, hsame⟩ := completeStack_spec hslot.1 hclean
  exact ⟨hcomplete, hslot.2.trans hsame⟩

theorem brackets_semicolon (ht : t.operator? = some .semicolon) (opened : List Operator) :
    brackets opened [t] = some opened := by
  simp [brackets, ht, Operator.opensBracket, Operator.closes?]

-- A semicolon in parentheses ends a part of the head of a `for`.
theorem endStatement_paren (hs : Stacked b.stack) (ht : t.operator? = some .semicolon)
    (hin : (opens b.stack).head? = some .leftParen) (hclean : Clean (b.endStatement t).errors) :
    Pushed t b.stack (b.endStatement t).stack := by
  have hcount := isCounted_of_operator ht rfl
  unfold endStatement at hclean ⊢
  rw [innermostBracket?_eq, hin] at hclean ⊢
  simp only [push, ite_pushDummy_errors] at hclean ⊢
  obtain ⟨hcomplete, hsame⟩ :=
    completePart_spec (t := t) hs (hclean.mono finishHeadDeclaration_errors)
  generalize b.completePart t = c at hclean hcomplete hsame ⊢
  rw [← hsame.opens] at hin
  have hsemicolon : ∀ {n s}, OnPart n s → Same b.stack (n :: s) →
      Pushed t b.stack (.ofToken t :: n :: s) := by
    intro n s hpart hn
    refine .silent hcount (brackets_semicolon ht _)
      (.separator ht hpart.item hpart.part hpart.stacked) (hn.trans (same_of_reading ?_ ?_))
    · simp [hcount]
    · simp [ht, Option.filter, Operator.opensBracket]
  rcases finishHeadDeclaration_spec hcomplete hin hclean with
    ⟨heq, hpart, hc⟩ | ⟨n, s, heq, hpart, hn⟩
  · have htop : c.topOpensPart = true := by
      obtain ⟨stack, errors⟩ := c
      cases stack with
      | nil => rfl
      | cons n s =>
        simp only [opensPart, List.head?_cons, Option.any_some, Bool.or_eq_true] at hpart
        simp only [topOpensPart, top?, List.head?_cons, Option.all_some, Bool.or_eq_true]
        exact hpart.imp_right fun h => by simp [beq_iff_eq.mp h]
    rw [heq, if_pos htop]
    exact hsemicolon ⟨.item (.token rfl), hpart, hc⟩ (hsame.trans (same_of_reading rfl rfl))
  · have htop : c.finishHeadDeclaration.topOpensPart = false := by
      simp [topOpensPart, top?, heq, hpart.item.not_isSeparator, hpart.item.openBracket?_eq_none]
    rw [if_neg (by simp [htop]), heq]
    exact hsemicolon hpart (hsame.trans hn)

end Heads

section Closing

variable {opening : Operator}

-- What may stand in a group: items in parentheses, values in brackets.
def Fill (op : Operator) (cs : List Node) : Prop :=
  op = .leftParen ∧ (∀ c ∈ cs, c.Item) ∨ op = .leftBracket ∧ ∀ c ∈ cs, c.Value

theorem binding?_of_bracket (ht : t.operator? = some op) (hop : op.binding? = none) :
    t.binding? = none := by
  rw [Token.binding?_of_operator ht, hop]

theorem Fill.group (h : Fill op cs) (ht : t.operator? = some op) :
    (Node.expression t cs).Value ∧ (Node.expression t cs).rightOps = [] ∧
      (Node.expression t cs).leftOps = [] ∧ (Node.expression t cs).reading = Node.readingOf cs := by
  have hbind : t.binding? = none := by
    rcases h with ⟨rfl, -⟩ | ⟨rfl, -⟩ <;> exact binding?_of_bracket ht rfl
  have happ : Node.isApplication t = false := by
    rcases h with ⟨rfl, -⟩ | ⟨rfl, -⟩ <;> simp [Node.isApplication, ht]
  refine ⟨?_, ?_, ?_, ?_⟩
  · rcases h with ⟨rfl, hcs⟩ | ⟨rfl, hcs⟩
    · exact .group ht hcs
    · exact .list ht hcs
  · unfold Node.rightOps Node.expression
    split <;> simp_all
  · unfold Node.leftOps Node.expression
    split <;> simp_all
  · unfold Node.expression
    simp [Node.reading, hbind]

theorem application_spec {x y : Node} (happ : Node.isApplication t = true) :
    (Node.expression t [x, y]).rightOps = [] ∧ (Node.expression t [x, y]).leftOps = x.leftOps ∧
      (Node.expression t [x, y]).reading = x.reading ++ y.reading := by
  have hbind : t.binding? = none := by
    simp only [Node.isApplication, Bool.or_eq_true, beq_iff_eq] at happ
    rcases happ with ht | ht <;> exact binding?_of_bracket ht rfl
  simp [Node.rightOps, Node.leftOps, Node.reading, Node.readingOf, Node.expression, hbind, happ]

theorem application_fits {x y : Node} (happ : Node.isApplication t = true)
    (hx : x.rightOps = []) : (Node.expression t [x, y]).Fits := by
  have hbind : t.binding? = none := by
    simp only [Node.isApplication, Bool.or_eq_true, beq_iff_eq] at happ
    rcases happ with ht | ht <;> exact binding?_of_bracket ht rfl
  simp [Node.Fits, Node.expression, hbind, hx]

-- Behind a value a group is a call or an access, elsewhere it is a value of its
-- own.
theorem pushGroup_spec (hs : Stacked b.stack) (ht : t.operator? = some op) (hfill : Fill op cs)
    (hclean : Clean (b.pushGroup t op cs).errors) :
    Stacked (b.pushGroup t op cs).stack ∧
      tokens (b.pushGroup t op cs).stack =
        tokens b.stack ++ (Node.readingOf cs).filter Token.isCounted ∧
      opens (b.pushGroup t op cs).stack = opens b.stack := by
  obtain ⟨stack, errors⟩ := b
  obtain ⟨hgroup, hright, hleft, hread⟩ := hfill.group ht
  have hnew : Room stack → Stacked (.expression t cs :: stack) ∧
      tokens (.expression t cs :: stack) =
        tokens stack ++ (Node.readingOf cs).filter Token.isCounted ∧
      opens (.expression t cs :: stack) = opens stack := fun hroom =>
    ⟨.value hgroup hright hroom (by simp [Clear, hleft]) hs, by rw [tokens_cons, hread],
      opens_of_value hgroup _⟩
  unfold pushGroup at hclean ⊢
  cases stack with
  | nil => exact hnew Room.nil
  | cons target below =>
    simp only at hclean ⊢
    cases htarget : target.isOperand with
    | false => exact hnew fun n hn => by cases hn; exact htarget
    | true =>
      obtain ⟨hv, hops, hroom, hclear, hb⟩ := hs.value_of_isOperand htarget
      simp only [htarget, if_true] at hclean ⊢
      rcases hfill with ⟨rfl, -⟩ | ⟨rfl, hcs⟩
      · have happ : Node.isApplication { t with kind := .operator .call } = true := rfl
        obtain ⟨hr, hl, hrd⟩ :=
          application_spec (x := target) (y := .expression t cs) happ
        have hcall : (Node.expression { t with kind := .operator .call }
            [target, .expression t cs]).Value :=
          .call rfl hv hgroup ht (application_fits happ hops)
        refine ⟨.value hcall hr hroom (fun o ho q hq => hclear o ho q (hl ▸ hq)) hb, ?_, ?_⟩
        · simp [tokens_cons, hrd, hread]
        · exact (opens_of_value hcall _).trans (opens_of_value hv _).symm
      · simp only [beq_iff_eq, reduceCtorEq, if_false] at hclean ⊢
        split at hclean
        · rename_i index
          have happ : Node.isApplication { t with kind := .operator .access } = true := rfl
          obtain ⟨hr, hl, hrd⟩ := application_spec (x := target) (y := index) happ
          have haccess : (Node.expression { t with kind := .operator .access }
              [target, index]).Value :=
            .access rfl hv (hcs index (by simp)) (application_fits happ hops)
          refine ⟨.value haccess hr hroom (fun o ho q hq => hclear o ho q (hl ▸ hq)) hb, ?_, ?_⟩
          · simp [tokens_cons, hrd, Node.readingOf]
          · exact (opens_of_value haccess _).trans (opens_of_value hv _).symm
        · exact hclean.not_parseError.elim

-- The innermost bracket of a stack with a separator above it is a parenthesis.
theorem Stacked.inner_of_separator (hs : Stacked s)
    (h : (s.takeWhile isInner).any Node.isSeparator = true) :
    (opens s).head? = some .leftParen := by
  induction hs with
  | nil => cases h
  | value hn _ _ _ _ ih =>
    rw [opens_of_value hn]
    refine ih ?_
    simpa [List.takeWhile_cons, isInner, hn.openBracket?_eq_none, hn.not_isSeparator] using h
  | @leading t _ below ht _ _ _ ih =>
    obtain ⟨o, ho, hrow⟩ := Token.operator?_of_binding ht
    have hne : o ≠ .semicolon := fun h => by subst h; cases hrow
    have hopen := Node.openBracket?_of_binding ht
    rw [opens_cons, hopen]
    refine ih ?_
    simpa [-Node.openBracket?_ofToken, List.takeWhile_cons, isInner, hopen, ho, hne] using h
  | @infixed t _ l below ht _ _ hm _ ih =>
    obtain ⟨o, ho, hrow⟩ := Token.operator?_of_binding ht
    have hne : o ≠ .semicolon := fun h => by subst h; cases hrow
    have hopen := Node.openBracket?_of_binding ht
    rw [opens_cons, hopen, Option.toList, List.nil_append, opens_of_value hm.value]
    refine ih ?_
    simpa [-Node.openBracket?_ofToken, List.takeWhile_cons, isInner, hopen, ho, hne,
      hm.value.openBracket?_eq_none, hm.value.not_isSeparator] using h
  | opening ht hop =>
    simp [isInner, ht, Option.filter, hop] at h
  | word ht _ _ ih =>
    rw [opens_of_word ht]
    refine ih ?_
    simpa [List.takeWhile_cons, isInner, Token.operator?_of_keyword ht] using h
  | separator ht hp ho hb => exact (Stacked.separator ht hp ho hb).part (by simp [opensPart, ht])
  | statement hn _ _ ih =>
    rw [opens_of_statement hn]
    refine ih ?_
    simpa [List.takeWhile_cons, isInner, hn.openBracket?_eq_none, hn.not_isSeparator] using h

theorem Complete.inner_of_separator (hs : Complete s)
    (h : (s.takeWhile isInner).any Node.isSeparator = true) :
    (opens s).head? = some .leftParen := by
  cases hs with
  | bare hbase => exact hbase.stacked.inner_of_separator h
  | value hn hbase =>
    rw [opens_of_value hn]
    refine hbase.stacked.inner_of_separator ?_
    simpa [List.takeWhile_cons, isInner, hn.openBracket?_eq_none, hn.not_isSeparator] using h

-- The finished parts of the head of a `for`, down to its parenthesis.
theorem Stacked.heads (hs : Stacked s) (h : opensPart s = true) :
    ∃ above t rest parts, s = above ++ .ofToken t :: rest ∧ t.operator? = some .leftParen ∧
      Stacked rest ∧ (∀ n ∈ above, isInner n = true) ∧ (∀ c ∈ parts, Node.Item c) ∧
      (∀ close errors last, headParts close errors [] (above.reverse ++ last) =
        (parts ++ (headParts close errors [] last).1, (headParts close errors [] last).2)) ∧
      tokens s = tokens rest ++ (Node.readingOf parts).filter Token.isCounted ∧
      opens s = .leftParen :: opens rest := by
  induction hs with
  | nil => cases h
  | value hn => simp [opensPart, hn.not_isSeparator, hn.openBracket?_eq_none] at h
  | leading ht | infixed ht =>
    obtain ⟨o, ho, hrow⟩ := Token.operator?_of_binding ht
    cases o <;> cases hrow <;> simp [opensPart, ho, Option.filter, Operator.opensBracket] at h
  | @opening t o below ht hop hb =>
    have hparen : o = .leftParen := by
      cases o <;> cases hop <;> simp [opensPart, ht, Option.filter, Operator.opensBracket] at h
      rfl
    subst hparen
    have hcount := isCounted_of_operator ht rfl
    refine ⟨[], t, below, [], rfl, ht, hb, by simp, by simp, fun _ _ _ => rfl, ?_, ?_⟩
    · simp [tokens_cons, Node.readingOf, hcount]
    · exact opens_of_opening ht hop _
  | word ht => simp [opensPart, Token.operator?_of_keyword ht] at h
  | @separator t part below ht hpart ho hb ih =>
    obtain ⟨above, t', rest, parts, rfl, ht', hrest, hinner, hitems, heads, htokens, hopens⟩ := ih ho
    have hcount := isCounted_of_operator ht rfl
    have hsep : (Node.ofToken t).isSeparator = true := by simp [ht]
    refine ⟨.ofToken t :: part :: above, t', rest, parts ++ [part], rfl, ht', hrest, ?_, ?_, ?_,
      ?_, ?_⟩
    · intro n hn
      simp only [List.mem_cons] at hn
      rcases hn with rfl | rfl | hn
      · simp [isInner, ht, Option.filter, Operator.opensBracket]
      · simp [isInner, hpart.openBracket?_eq_none]
      · exact hinner n hn
    · intro c hc
      simp only [List.mem_append, List.mem_singleton] at hc
      rcases hc with hc | rfl
      · exact hitems c hc
      · exact hpart
    · intro close errors last
      have hlist : (Node.ofToken t :: part :: above).reverse ++ last =
          above.reverse ++ (part :: .ofToken t :: last) := by simp
      rw [hlist, heads]
      simp [headParts, headPart, hpart.not_isSeparator, hsep]
    · rw [tokens_cons, tokens_cons, htokens, Node.readingOf_append]
      simp [Node.readingOf, hcount]
    · rw [opens_cons, opens_cons, hpart.openBracket?_eq_none, hopens]
      simp [ht, Option.filter, Operator.opensBracket]
  | statement hn => simp [opensPart, hn.not_isSeparator, hn.openBracket?_eq_none] at h

theorem groupChildren_of_clean {items : List Node}
    (hclean : Clean (groupChildren errors items).2) :
    items = [] ∧ (groupChildren errors items).1 = [] ∨
      ∃ first, items = [first] ∧ (groupChildren errors items).1 = first.commaParts := by
  cases items with
  | nil => exact .inl ⟨rfl, rfl⟩
  | cons first extra =>
    cases extra with
    | nil => exact .inr ⟨first, rfl, rfl⟩
    | cons n rest =>
      refine (hclean.mono ?_ : Clean (nodeError n .missingOperator :: errors)).not_nodeError.elim
      exact groupChildren_errors (first :: rest)

theorem opensBracket_of_openBracket? (h : n.openBracket? = some op) : op.opensBracket = true := by
  unfold Node.openBracket? at h
  split at h
  · exact (Option.filter_eq_some_iff.mp h).2
  · cases h

theorem token_of_openBracket? (h : n.openBracket? = some op) : ∃ t, n.token = some t := by
  unfold Node.openBracket? at h
  split at h
  · obtain ⟨t, ht, -⟩ := Option.bind_eq_some_iff.mp (Option.filter_eq_some_iff.mp h).1
    exact ⟨t, ht⟩
  · cases h

theorem round_or_square (hop : op.opensBracket = true) (hne : op ≠ .leftBrace) :
    op = .leftParen ∨ op = .leftBracket := by
  cases op <;> simp [Operator.opensBracket] at hop hne ⊢

theorem Stacked.bracket (hs : Stacked (n :: s)) (htoken : n.token = some t)
    (hop : n.openBracket? = some op) :
    n = .ofToken t ∧ t.operator? = some op ∧ Stacked s := by
  cases hs with
  | value hn => simp [hn.openBracket?_eq_none] at hop
  | leading ht => cases (Node.openBracket?_of_binding ht).symm.trans hop
  | infixed ht => cases (Node.openBracket?_of_binding ht).symm.trans hop
  | opening ht ho hb =>
    cases htoken
    obtain ⟨hop', -⟩ := Option.filter_eq_some_iff.mp hop
    exact ⟨rfl, hop', hb⟩
  | word ht => simp [Token.operator?_of_keyword ht] at hop
  | separator ht => simp [ht, Option.filter, Operator.opensBracket] at hop
  | statement hn => simp [hn.openBracket?_eq_none] at hop

-- The one expression of a group without separators.
theorem plainGroup_spec {marker : Node} {below : List Node} (hs : Complete s)
    (hplain : (s.takeWhile isInner).any Node.isSeparator = false)
    (hdrop : s.dropWhile isInner = marker :: below) (htoken : marker.token = some t)
    (hop : marker.openBracket? = some op) (hne : op ≠ .leftBrace)
    (hclean : Clean (groupChildren errors (s.takeWhile isInner).reverse).2) :
    t.operator? = some op ∧ Stacked below ∧
      Fill op (groupChildren errors (s.takeWhile isInner).reverse).1 ∧
      tokens s = tokens below ++ (Node.readingOf
        (groupChildren errors (s.takeWhile isInner).reverse).1).filter Token.isCounted ∧
      opens s = op :: opens below := by
  have happend : s = s.takeWhile isInner ++ marker :: below := by
    rw [← hdrop, List.takeWhile_append_dropWhile]
  have hinner : (s.takeWhile isInner).all isInner = true := List.all_takeWhile
  have ho := opensBracket_of_openBracket? hop
  generalize s.takeWhile isInner = items at happend hplain hinner hclean ⊢
  subst happend
  rcases groupChildren_of_clean hclean with ⟨hitems, hcs⟩ | ⟨first, hitems, hcs⟩
  · obtain rfl : items = [] := by simpa using hitems
    have hstacked : Stacked (marker :: below) := by
      cases hs with
      | bare hbase => exact hbase.stacked
      | value hn => simp [hn.openBracket?_eq_none] at hop
    obtain ⟨rfl, ht, hb⟩ := hstacked.bracket htoken hop
    have hcount := isCounted_of_bracket ht ho
    rw [hcs]
    refine ⟨ht, hb, ?_, ?_, opens_of_opening ht ho _⟩
    · exact (round_or_square ho hne).imp (fun h => ⟨h, nofun⟩) (fun h => ⟨h, nofun⟩)
    · simp [tokens_cons, Node.readingOf, hcount]
  · obtain rfl : items = [first] := by simpa using hitems
    rw [hcs]
    have hopen : first.openBracket? = none := by simpa [isInner] using hinner
    cases hs with
    | value hn hbase =>
      obtain ⟨rfl, ht, hb⟩ := hbase.stacked.bracket htoken hop
      have hcount := isCounted_of_bracket ht ho
      refine ⟨ht, hb, ?_, ?_, ?_⟩
      · exact (round_or_square ho hne).imp (fun h => ⟨h, fun c hc => .item (hn.commaParts c hc)⟩)
          (fun h => ⟨h, hn.commaParts⟩)
      · simp [tokens_cons, hn.commaParts_reading, hcount]
      · exact (opens_of_value hn _).trans (opens_of_opening ht ho _)
    | bare hbase =>
      have hin : (opens ([first] ++ marker :: below)).head? = some op := by
        simp [opens_cons, hopen, hop]
      rcases round_or_square ho hne with rfl | rfl
      · rcases hbase.inParen hin with hpart | ⟨u, below', heq, hu, hpart, hb⟩
        · simp only [List.any_cons, List.any_nil, Bool.or_false] at hplain
          simp [opensPart, hplain, hopen] at hpart
        · cases heq
          obtain ⟨rfl, ht, hb⟩ := hb.bracket htoken hop
          have hcount := isCounted_of_bracket ht ho
          have hparts : (Node.ofToken u).commaParts = [.ofToken u] := rfl
          rw [hparts]
          refine ⟨ht, hb, .inl ⟨rfl, ?_⟩, ?_, ?_⟩
          · intro c hc
            obtain rfl := List.mem_singleton.mp hc
            exact .strayWord hu trivial
          · simp [tokens_cons, Node.readingOf, hcount]
          · exact (opens_of_word hu _).trans (opens_of_opening ht ho _)
      · obtain ⟨u, below', heq, hu, -⟩ := hbase.inBracket hin
        cases heq
        simp [hu, Option.filter, Operator.opensBracket] at hopen

theorem brackets_close (ht : t.operator? = some op) (hcloses : op.closes? = some opening)
    (rest : List Operator) : brackets (opening :: rest) [t] = some rest := by
  have hop : op.opensBracket = false := by
    cases op <;> first | rfl | cases hcloses
  simp [brackets, ht, hop, hcloses]

theorem Pushed.closed {l : List Node} (ht : t.operator? = some op)
    (hcloses : op.closes? = some opening) (hs : Stacked s')
    (htokens : Builder.tokens s' = Builder.tokens s)
    (hopens : Builder.opens s = opening :: Builder.opens l)
    (hopens' : Builder.opens s' = Builder.opens l) : Pushed t s s' := by
  have hcount := isCounted_of_operator ht (by cases op <;> first | rfl | cases hcloses)
  refine ⟨hs, ⟨[], by simp [htokens], by simp [hcount]⟩, ?_⟩
  rw [hopens, hopens']
  exact brackets_close ht hcloses _

-- The parts of a head, when the last of them is on top.
theorem OnPart.headParts (h : OnPart n s) (close : Token) :
    ∃ u rest parts, (n :: s).dropWhile isInner = .ofToken u :: rest ∧
      u.operator? = some .leftParen ∧ Stacked rest ∧ Fill .leftParen parts ∧
      Builder.headParts close errors [] ((n :: s).takeWhile isInner).reverse = (parts, errors) ∧
      tokens (n :: s) = tokens rest ++ (Node.readingOf parts).filter Token.isCounted ∧
      opens (n :: s) = .leftParen :: opens rest := by
  obtain ⟨above, u, rest, parts, rfl, hu, hrest, hinner, hitems, heads, htokens, hopens⟩ :=
    h.stacked.heads h.part
  have hopen := h.item.openBracket?_eq_none
  have hall : ∀ m ∈ n :: above, isInner m = true := by
    intro m hm
    rcases List.mem_cons.mp hm with rfl | hm
    · simp [isInner, hopen]
    · exact hinner m hm
  have hstop : isInner (.ofToken u) = false := by
    simp [isInner, hu, Option.filter, Operator.opensBracket]
  have htake : (n :: (above ++ .ofToken u :: rest)).takeWhile isInner = n :: above := by
    rw [← List.cons_append, List.takeWhile_append_of_pos hall]
    simp [hstop]
  have hdrop : (n :: (above ++ .ofToken u :: rest)).dropWhile isInner = .ofToken u :: rest := by
    rw [← List.cons_append, List.dropWhile_append_of_pos hall]
    simp [hstop]
  refine ⟨u, rest, parts ++ [n], hdrop, hu, hrest, .inl ⟨rfl, ?_⟩, ?_, ?_, ?_⟩
  · intro c hc
    simp only [List.mem_append, List.mem_singleton] at hc
    rcases hc with hc | rfl
    · exact hitems c hc
    · exact h.item
  · rw [htake, List.reverse_cons, heads]
    simp [Builder.headParts, headPart, h.item.not_isSeparator]
  · rw [tokens_cons, htokens, Node.readingOf_append]
    simp [Node.readingOf]
  · rw [opens_cons, hopen, hopens]
    rfl

theorem takeGroup_plain (hcomplete : Complete b.stack)
    (hplain : (b.stack.takeWhile isInner).any Node.isSeparator = false)
    (ht : t.operator? = some op) (hcloses : op.closes? = some opening) (hne : opening ≠ .leftBrace)
    (hclean : Clean (b.takeGroup t opening false).errors) :
    Pushed t b.stack (b.takeGroup t opening false).stack := by
  unfold takeGroup at hclean ⊢
  split at hclean
  · exact hclean.not_parseError.elim
  · rename_i marker below hdrop
    split at hclean
    · rename_i u o htoken ho
      split at hclean
      · rename_i heq
        obtain rfl : o = opening := beq_iff_eq.mp heq
        obtain ⟨hu, hb, hfill, htokens, hopens⟩ := plainGroup_spec hcomplete
          hplain hdrop htoken ho hne (hclean.mono (pushGroup_errors (b := ⟨below, _⟩) _ _))
        obtain ⟨hstack, htokens', hopens'⟩ := pushGroup_spec (b := ⟨below, _⟩) hb hu hfill hclean
        simp only [heq, if_true]
        exact .closed ht hcloses hstack (htokens'.trans htokens.symm) hopens hopens'
      · exact hclean.not_parseError.elim
    · rename_i hnone
      have hmarker : isInner marker = false := by
        have := List.head?_dropWhile_not isInner b.stack
        simpa [hdrop] using this
      obtain ⟨o, ho⟩ := Option.isSome_iff_exists.mp (by simpa [isInner] using hmarker)
      obtain ⟨u, hu⟩ := token_of_openBracket? ho
      exact (hnone u o hu ho).elim

theorem takeGroup_head (hpart : OnPart n s) (hstack : b.stack = n :: s)
    (ht : t.operator? = some op) (hcloses : op.closes? = some opening)
    (hclean : Clean (b.takeGroup t opening true).errors) :
    Pushed t b.stack (b.takeGroup t opening true).stack := by
  obtain ⟨u, rest, parts, hdrop, hu, hrest, hfill, hheads, htokens, hopens⟩ :=
    @OnPart.headParts _ _ b.errors hpart t
  unfold takeGroup at hclean ⊢
  have hopen : (Node.ofToken u).openBracket? = some .leftParen := by
    simp [hu, Option.filter, Operator.opensBracket]
  have htoken : (Node.ofToken u).token = some u := rfl
  rw [hstack] at hclean ⊢
  simp only [hdrop, htoken, hopen, hheads, if_true] at hclean ⊢
  split at hclean
  · rename_i heq
    obtain rfl : .leftParen = opening := beq_iff_eq.mp heq
    obtain ⟨hgroup, htokens', hopens'⟩ := pushGroup_spec (b := ⟨rest, _⟩) hrest hu hfill hclean
    simp only [heq, if_true]
    exact .closed ht hcloses hgroup (htokens'.trans htokens.symm) hopens hopens'
  · exact hclean.not_parseError.elim

-- A closing bracket takes its group off the stack.
theorem closeGroup_spec (hs : Stacked b.stack) (ht : t.operator? = some op)
    (hcloses : op.closes? = some opening) (hne : opening ≠ .leftBrace)
    (hclean : Clean (b.closeGroup t opening).errors) :
    Pushed t b.stack (b.closeGroup t opening).stack := by
  unfold closeGroup at hclean ⊢
  simp only at hclean ⊢
  split at hclean
  · rename_i hhead
    have hfinish := hclean.mono (takeGroup_errors _ _)
    rw [ite_pushDummy_errors] at hfinish
    obtain ⟨hcomplete, hsame⟩ :=
      completePart_spec hs (hfinish.mono finishHeadDeclaration_errors)
    rw [if_pos hhead]
    refine .of_same hsame ?_
    have hin := hcomplete.inner_of_separator hhead
    generalize b.completePart t = c at hclean hfinish hcomplete hhead hin ⊢
    rcases finishHeadDeclaration_spec hcomplete hin hfinish with
      ⟨heq, hpart, hc⟩ | ⟨n, s, heq, hpart, hn⟩
    · have htop : c.top?.any Node.isSeparator = true := by
        obtain ⟨stack, errors⟩ := c
        cases stack with
        | nil => cases hpart
        | cons n s =>
          simp only [opensPart, List.head?_cons, Option.any_some, Bool.or_eq_true, beq_iff_eq] at hpart
          rcases hpart with hsep | hopen
          · exact hsep
          · simp [isInner, hopen] at hhead
      rw [heq, if_pos htop] at hclean ⊢
      refine .of_same (same_of_reading rfl rfl) (takeGroup_head
        (n := .ofToken t.slotBefore) (s := c.stack) ⟨.item (.token rfl), hpart, hc⟩ rfl ht hcloses hclean)
    · have htop : c.finishHeadDeclaration.top?.any Node.isSeparator = false := by
        simp [top?, heq, hpart.item.not_isSeparator]
      rw [if_neg (by simp [htop])] at hclean ⊢
      rw [← heq] at hn
      exact .of_same hn (takeGroup_head hpart heq ht hcloses hclean)
  · rename_i hplain
    rw [if_neg hplain]
    obtain ⟨hcomplete, hsame⟩ := completePart_spec hs (hclean.mono (takeGroup_errors _ _))
    exact .of_same hsame (takeGroup_plain hcomplete (by simpa using hplain) ht hcloses hne hclean)

end Closing

end Builder

end FinLang

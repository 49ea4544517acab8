import FinLang.Proofs.Tree.Expressions

namespace FinLang

-- Places that tokens stand at, and with each of them the first byte there: the
-- builder puts empty slots and missing semicolons at it.
structure Places where
  holds : Position → Span → Prop
  single : ∀ {p s}, holds p s → holds p (.single s.start)

def Places.all : Places :=
  ⟨fun _ _ => True, id⟩

def Token.In (L : Places) (t : Token) : Prop :=
  L.holds t.position t.span

def Diagnostic.In (L : Places) (d : Diagnostic) : Prop :=
  L.holds d.position d.span

namespace Token.In

variable {L : Places} {t : Token}

theorem retag (h : t.In L) (k : TokenKind) : Token.In L { t with kind := k } :=
  h

theorem slotBefore (h : t.In L) : t.slotBefore.In L :=
  L.single h

theorem semicolonAt (h : t.In L) : (semicolonAt t.position t.span.start).In L :=
  L.single h

end Token.In

namespace Node

-- A group in round brackets.
def isGroup (n : Node) : Bool :=
  n.kind == .expression && n.operator? == some .leftParen

theorem isGroup_always : always.isGroup = false :=
  rfl

-- What the builder makes of any tokens at all. Where it goes on behind an error,
-- anything may stand in a bracket, but no node is left half done.
inductive Made (L : Places) : Node → Prop
  -- A postfix operator never waits.
  | single {t} : t.In L → (∀ row ∈ t.binding?, row.needsRight = true) → Made L (.ofToken t)
  | operation {t row cs} : t.In L → t.binding? = some row →
      cs.length = row.needsLeft.toNat + row.needsRight.toNat → (∀ c ∈ cs, Made L c) →
      Made L (.expression t cs)
  | group {t op cs} : t.In L → t.operator? = some op → op.opensBracket = true →
      (∀ c ∈ cs, Made L c) → Made L (.expression t cs)
  | call {t callee args} : t.In L → t.operator? = some .call → Made L callee → Made L args →
      args.isGroup = true → Made L (.expression t [callee, args])
  | access {t target index} : t.In L → t.operator? = some .access → Made L target →
      Made L index → Made L (.expression t [target, index])
  | ended {t e} : t.In L → t.operator? = some .semicolon → Made L e → e.isOperand = true →
      Made L ⟨.statement, some t, [e]⟩
  | block {t body} : t.In L → t.operator? = some .leftBrace → (∀ c ∈ body, Made L c) →
      (∀ c ∈ body, c.isStatement = true) → Made L ⟨.statement, some t, body⟩
  | declaration {t parts} : t.In L → (∀ c ∈ parts, Made L c) → Made L ⟨.declare, some t, parts⟩
  | goto {t target} : t.In L → t.keyword? = some .gotoWord → Made L target →
      target.name?.isSome = true → Made L ⟨.jump, some t, [target]⟩
  | leave {t word} {operand : Option Node} : t.In L → t.keyword? = some word →
      word = .returnWord ∨ word = .exitWord → (∀ e ∈ operand, Made L e) →
      (∀ e ∈ operand, e.isOperand = true) → Made L ⟨.jump, some t, operand.toList⟩
  | stop {t word} : t.In L → t.keyword? = some word → word = .breakWord ∨ word = .continueWord →
      Made L ⟨.jump, some t, []⟩
  | label {t} : t.In L → t.kind = .variable → Made L ⟨.label, some t, []⟩
  -- Only the last condition may be the one of an `else`.
  | branch {t} {arms : List (Node × Node)} {last : Node × Node} : t.In L →
      (∀ p ∈ arms, p.1.isGroup = true) → last.1 = .always ∨ last.1.isGroup = true →
      (∀ p ∈ arms ++ [last], p.1.isGroup = true → Made L p.1) →
      (∀ p ∈ arms ++ [last], Made L p.2) → (∀ p ∈ arms ++ [last], p.2.isScopedBlock = true) →
      Made L ⟨.branch, some t, (arms ++ [last]).flatMap fun p => [p.1, p.2]⟩
  | loop {t head body} : t.In L →
      t.keyword? = some .whileWord ∨ t.keyword? = some .forWord ∧ head.children.length = 3 →
      head.isGroup = true → Made L head → body.isScopedBlock = true → Made L body →
      Made L ⟨.loop, some t, [head, body]⟩
  | function {t params body} : t.In L → t.kind = .variable → params.isGroup = true → Made L params →
      (∀ p ∈ params.children, p.name?.isSome = true) → body.isScopedBlock = true → Made L body →
      Made L ⟨.function, some t, [.ofToken t, params, body]⟩

end Node

variable {L : Places} {t : Token} {n m x : Node} {ns cs stack : List Node} {row : Binding}
  {op : Operator} {word : Keyword} {errors : List Diagnostic} {b : Builder}

namespace Node.Made

-- Only the condition of an `else` and the program itself have no token.
theorem exists_token (h : Made L n) : ∃ t, n.token = some t ∧ t.In L := by
  cases h <;> exact ⟨_, rfl, ‹_›⟩

theorem place (h : Made L n) : L.holds n.position (n.span?.getD Span.zero) := by
  obtain ⟨t, ht, hin⟩ := h.exists_token
  obtain ⟨kind, token, children⟩ := n
  obtain rfl : token = some t := ht
  rw [position, span?]
  exact hin

theorem of_isSingle (h : Made L n) (hn : n.isSingle = true) :
    ∃ t, n = .ofToken t ∧ t.In L ∧ ∀ row ∈ t.binding?, row.needsRight = true := by
  cases h with
  | single ht hright => exact ⟨_, rfl, ht, hright⟩
  | _ => cases hn

theorem of_name (h : Made L n) (hn : n.name?.isSome = true) :
    ∃ t, n = .ofToken t ∧ t.In L ∧ t.kind = .variable := by
  have hsingle : n.isSingle = true := by
    unfold name? at hn
    split at hn
    · rename_i hkind _
      simp [isSingle, hkind]
    · cases hn
  obtain ⟨t, rfl, ht, -⟩ := h.of_isSingle hsingle
  refine ⟨t, rfl, ht, ?_⟩
  obtain ⟨kind, text, p, span⟩ := t
  cases kind <;> first | rfl | cases hn

theorem of_openBracket (h : Made L n) (hop : n.openBracket? = some op) :
    ∃ t, n = .ofToken t ∧ t.In L ∧ t.operator? = some op ∧ op.opensBracket = true := by
  have hsingle : n.isSingle = true := by
    unfold openBracket? at hop
    split at hop
    · assumption
    · cases hop
  obtain ⟨t, rfl, ht, -⟩ := h.of_isSingle hsingle
  rw [openBracket?_ofToken, Option.filter_eq_some_iff] at hop
  exact ⟨t, rfl, ht, hop⟩

-- What waits for a right operand is an operator that has one.
theorem of_waiting (h : Made L n) (hrow : n.waiting?.bind Operator.binding? = some row) :
    ∃ t, n = .ofToken t ∧ t.In L ∧ t.binding? = some row ∧ row.needsRight = true := by
  obtain ⟨op, hwait, hop⟩ := Option.bind_eq_some_iff.mp hrow
  unfold waiting? at hwait
  split at hwait
  · obtain ⟨t, rfl, ht, hright⟩ := h.of_isSingle ‹_›
    have hbind : t.binding? = some row :=
      Option.bind_eq_some_iff.mpr ⟨op, (Option.filter_eq_some_iff.mp hwait).1, hop⟩
    exact ⟨t, rfl, ht, hbind, hright row hbind⟩
  · cases hwait

theorem of_head (h : Made L n) (hword : n.head? = some word) :
    ∃ t, n = .ofToken t ∧ t.In L ∧ t.keyword? = some word := by
  unfold head? at hword
  split at hword
  · obtain ⟨t, rfl, ht, -⟩ := h.of_isSingle ‹_›
    exact ⟨t, rfl, ht, hword⟩
  · cases hword

theorem of_call (h : Made L n) (hoperand : n.isOperand = true) (hcall : n.operator? = some .call) :
    ∃ t callee args, n = .expression t [callee, args] ∧ Made L callee ∧ Made L args ∧
      args.isGroup = true := by
  cases h with
  | @single t ht hright =>
    have hop : t.operator? = some .call := hcall
    simp [Token.isValue_of_operator hop] at hoperand
  | @operation t row cs ht hbind =>
    have hop : t.operator? = some .call := hcall
    rw [Token.binding?_of_operator hop] at hbind
    cases hbind
  | @group t op cs ht hop hopens =>
    cases hop.symm.trans hcall
    cases hopens
  | call _ _ hcallee hargs hround => exact ⟨_, _, _, rfl, hcallee, hargs, hround⟩
  | access _ hop => cases hop.symm.trans hcall
  | _ => cases hoperand

-- A value stands for itself, and so do a keyword and a bracket.
theorem unbound (ht : t.In L) (hno : t.binding? = none) : Made L (.ofToken t) :=
  .single ht (by simp [hno])

theorem value (ht : t.In L) (hvalue : t.isValue = true) : Made L (.ofToken t) :=
  unbound ht (by simp [Token.binding?, Token.operator?_of_isValue hvalue])

theorem dummy (ht : t.In L) : Made L (.ofToken t.slotBefore) :=
  value ht.slotBefore rfl

-- The operands of a chain of commas.
theorem of_comma (h : Made L n)
    (hcomma : (n.kind == .expression && n.token.bind Token.operator? == some .comma) = true) :
    ∀ c ∈ n.children, Made L c := by
  cases h with
  | operation _ _ _ hcs => exact hcs
  | group _ _ _ hcs => exact hcs
  | call _ hop => simp [expression, hop] at hcomma
  | access _ hop => simp [expression, hop] at hcomma
  | _ => cases hcomma

mutual

theorem commaPartsOnto : ∀ {n : Node} {after : List Node}, Made L n → (∀ m ∈ after, Made L m) →
    ∀ m ∈ n.commaPartsOnto after, Made L m
  | ⟨kind, token, children⟩, after, h, hafter => by
    unfold Node.commaPartsOnto
    split
    · exact commaPartsOfOnto (h.of_comma ‹_›) hafter
    · exact List.forall_mem_cons.mpr ⟨h, hafter⟩

theorem commaPartsOfOnto : ∀ {ns after : List Node}, (∀ n ∈ ns, Made L n) →
    (∀ m ∈ after, Made L m) → ∀ m ∈ Node.commaPartsOfOnto ns after, Made L m
  | [], _, _, hafter => hafter
  | _ :: _, _, hns, hafter => by
    rw [List.forall_mem_cons] at hns
    exact commaPartsOnto hns.1 (commaPartsOfOnto hns.2 hafter)

end

theorem commaParts (h : Made L n) : ∀ m ∈ n.commaParts, Made L m :=
  h.commaPartsOnto (by simp)

end Node.Made

-- What holds of the builder after any tokens at all.
structure Builder.Made (L : Places) (b : Builder) : Prop where
  stack : ∀ n ∈ b.stack, n.Made L
  errors : ∀ d ∈ b.errors, d.In L

namespace Builder

theorem nodeError_in (h : n.Made L) (c : Complaint) : (nodeError n c).In L :=
  h.place

theorem nodeError_ofToken (t : Token) (c : Complaint) :
    nodeError (.ofToken t) c = .parseError t.position t.span c := by
  rw [nodeError, Node.ofToken, Node.position, Node.span?]
  rfl

namespace Made

theorem empty : Made L .empty :=
  ⟨by simp [Builder.empty], by simp [Builder.empty]⟩

theorem record {d : Diagnostic} (h : b.Made L) (hd : d.In L) : (b.record d).Made L :=
  ⟨h.stack, List.forall_mem_cons.mpr ⟨hd, h.errors⟩⟩

theorem errorAtToken (h : b.Made L) (ht : t.In L) (c : Complaint) : (b.errorAtToken t c).Made L :=
  h.record ht

theorem errorAtNode (h : b.Made L) (hn : n.Made L) (c : Complaint) : (b.errorAtNode n c).Made L :=
  h.record (nodeError_in hn c)

theorem push (h : b.Made L) (hn : n.Made L) : (b.push n).Made L :=
  ⟨List.forall_mem_cons.mpr ⟨hn, h.stack⟩, h.errors⟩

theorem pushDummy (h : b.Made L) (ht : t.In L) : (b.pushDummy t).Made L :=
  h.push (.dummy ht)

-- The node on top and what lies below it.
theorem uncons (h : Made L ⟨n :: stack, errors⟩) : n.Made L ∧ Made L ⟨stack, errors⟩ :=
  ⟨h.stack n (.head _), fun m hm => h.stack m (.tail _ hm), h.errors⟩

theorem fold {precedence : Nat} {assoc : Assoc} (hx : x.Made L) (h : Made L ⟨stack, errors⟩) :
    (fold precedence assoc errors x stack).Made L := by
  fun_induction Builder.fold precedence assoc errors x stack with
  | case1 => exact h.push hx
  | case2 => exact h.push hx
  | case3 x op row hwait hfolds hleft =>
    obtain ⟨hop, hbelow⟩ := h.uncons
    exact (hbelow.record (nodeError_in hop _)).push hx
  | case4 x op row hwait hfolds hleft left rest hoperand ih =>
    obtain ⟨hop, hbelow⟩ := h.uncons
    obtain ⟨t, rfl, ht, hbind, hright⟩ := hop.of_waiting hwait
    obtain ⟨hl, hrest⟩ := hbelow.uncons
    refine ih (.operation ht hbind ?_ ?_) hrest
    · simp [hleft, hright]
    · simpa using ⟨hl, hx⟩
  | case5 x op row hwait hfolds hleft left rest hoperand =>
    obtain ⟨hop, hbelow⟩ := h.uncons
    exact (hbelow.record (nodeError_in hop _)).push hx
  | case6 x op below row hwait hfolds hleft ih =>
    obtain ⟨hop, hbelow⟩ := h.uncons
    obtain ⟨t, rfl, ht, hbind, hright⟩ := hop.of_waiting hwait
    refine ih (.operation ht hbind ?_ ?_) hbelow
    · simp [hleft, hright]
    · simpa using hx
  | case7 => exact h.push hx

theorem reduce {precedence : Nat} {assoc : Assoc} (h : b.Made L) :
    (b.reduce precedence assoc).Made L := by
  obtain ⟨stack, errors⟩ := b
  unfold Builder.reduce
  cases stack with
  | nil => exact h
  | cons operand below =>
    simp only
    split
    · exact .fold h.uncons.1 h.uncons.2
    · exact h

theorem completeStack (h : Made L ⟨stack, errors⟩) : (completeStack errors stack).Made L := by
  fun_induction Builder.completeStack errors stack with
  | case1 => exact h
  | case2 errors top below _ => exact .fold h.uncons.1 h.uncons.2
  | case3 errors top below _ _ ih => exact ih (h.uncons.2.record (nodeError_in h.uncons.1 _))
  | case4 => exact h

theorem completeExpression (h : b.Made L) : b.completeExpression.Made L :=
  completeStack h

theorem pushValue (h : b.Made L) (ht : t.In L) (hvalue : t.isValue = true) :
    (b.pushValue t).Made L := by
  unfold Builder.pushValue
  split
  · exact h.errorAtToken ht _
  · exact h.push (.value ht hvalue)

theorem pushKeyword (h : b.Made L) (ht : t.In L) (hword : t.keyword? = some word) :
    (b.pushKeyword t word).Made L := by
  unfold Builder.pushKeyword
  split
  · exact h.push (.unbound ht (by simp [Token.binding?, Token.operator?_of_keyword hword]))
  · exact h.errorAtToken ht _

theorem pushOpen (h : b.Made L) (ht : t.In L) (hop : t.operator? = some op)
    (hno : op.binding? = none) : (b.pushOpen t op).Made L := by
  unfold Builder.pushOpen
  split
  · exact h.errorAtToken ht _
  · exact h.push (.unbound ht (by rw [Token.binding?_of_operator hop, hno]))

theorem foldTrailing (h : b.Made L) (ht : t.In L) (hbind : t.binding? = some row)
    (hleft : row.needsLeft = true) (hright : row.needsRight = false) :
    (b.foldTrailing (.ofToken t)).Made L := by
  have herror : ∀ c, (b.errorAtNode (.ofToken t) c).Made L := fun c => by
    refine h.record ?_
    rw [nodeError_ofToken]
    exact ht
  obtain ⟨stack, errors⟩ := b
  unfold Builder.foldTrailing
  cases stack with
  | nil => exact herror _
  | cons left below =>
    simp only
    split
    · refine h.uncons.2.push (.operation ht hbind ?_ ?_)
      · simp [hleft, hright]
      · simpa using h.uncons.1
    · exact herror _

theorem shift (h : b.Made L) (ht : t.In L) (hbind : t.binding? = some row) :
    (b.shift t row).Made L := by
  obtain ⟨op, -, hop⟩ := Token.operator?_of_binding hbind
  have hreduced : (if row.needsLeft = true then b.reduce row.precedence row.assoc else b).Made L := by
    split
    · exact h.reduce
    · exact h
  unfold Builder.shift
  simp only
  cases hright : row.needsRight with
  | true => exact hreduced.push (.single ht (by simp [hbind, hright]))
  | false =>
    refine hreduced.foldTrailing ht hbind ?_ hright
    by_contra hleft
    rw [needsRight_of_needsLeft hop (by simpa using hleft)] at hright
    cases hright

theorem pushOperator (h : b.Made L) (ht : t.In L) (hop : t.operator? = some op) :
    (b.pushOperator t op).Made L := by
  unfold Builder.pushOperator
  split
  · exact h.errorAtToken ht _
  · rename_i row hrow
    have hfilled :
        (if (op == .comma && b.opensEmptySlot) = true then b.pushDummy t else b).Made L := by
      split
      · exact h.pushDummy ht
      · exact h
    simp only
    generalize (if (op == .comma && b.opensEmptySlot) = true then b.pushDummy t else b) = c
      at hfilled ⊢
    split
    · split
      · rename_i unary unaryRow hleading
        obtain ⟨_, -, hmap⟩ := Option.bind_eq_some_iff.mp hleading
        obtain ⟨_, hbind, heq⟩ := Option.map_eq_some_iff.mp hmap
        cases heq
        exact hfilled.shift (ht.retag _) hbind
      · exact hfilled.errorAtToken ht _
    · split
      · exact hfilled.errorAtToken ht _
      · exact hfilled.shift ht (Option.bind_eq_some_iff.mpr ⟨op, hop, hrow⟩)

theorem declarationErrors (herrors : ∀ d ∈ errors, d.In L) (hns : ∀ n ∈ ns, n.Made L) :
    ∀ d ∈ declarationErrors errors ns, d.In L := by
  unfold Builder.declarationErrors
  induction ns generalizing errors with
  | nil => exact herrors
  | cons n ns ih =>
    rw [List.forall_mem_cons] at hns
    refine ih ?_ hns.2
    simp only
    split
    · exact herrors
    · exact List.forall_mem_cons.mpr ⟨nodeError_in hns.1 _, herrors⟩

theorem pushKeywordStatement {operand : Option Node} (h : b.Made L) (ht : t.In L)
    (hword : t.keyword? = some word) (hmade : ∀ e ∈ operand, e.Made L)
    (hoperand : ∀ e ∈ operand, e.isOperand = true) :
    (b.pushKeywordStatement t word operand).Made L := by
  unfold Builder.pushKeywordStatement
  split
  · rename_i e
    have hparts := (hmade e rfl).commaParts
    exact ⟨List.forall_mem_cons.mpr ⟨.declaration ht hparts, h.stack⟩,
      declarationErrors h.errors hparts⟩
  · exact h.errorAtToken ht _
  · rename_i target
    split
    · exact h.push (.goto ht hword (hmade target rfl) ‹_›)
    · exact h.errorAtToken ht _
  · exact h.errorAtToken ht _
  · exact h.push (.leave ht hword (.inl rfl) hmade hoperand)
  · exact h.push (.leave ht hword (.inr rfl) hmade hoperand)
  · exact h.push (.stop ht hword (.inl rfl))
  · exact h.push (.stop ht hword (.inr rfl))
  all_goals exact h.errorAtToken ht _

theorem headToken {p : Token × Keyword} (h : n.Made L) (hn : headToken? n = some p) :
    p.1.In L ∧ p.1.keyword? = some p.2 := by
  unfold headToken? at hn
  split at hn
  · obtain ⟨t, rfl, ht, -⟩ := h.of_isSingle ‹_›
    obtain ⟨word, hword, rfl⟩ := Option.map_eq_some_iff.mp hn
    exact ⟨ht, hword⟩
  · cases hn

-- The semicolon of a finished statement may stand anywhere: nothing is said about it.
theorem finishStatement_cases (h : b.Made L) : (b.finishStatement t).Made L ∨
    ∃ e below, e.Made L ∧ e.isOperand = true ∧ Made L ⟨below, b.errors⟩ ∧
      b.finishStatement t = ⟨⟨.statement, some t, [e]⟩ :: below, b.errors⟩ := by
  obtain ⟨stack, errors⟩ := b
  unfold Builder.finishStatement
  cases stack with
  | nil => exact .inl h
  | cons top below =>
    obtain ⟨htop, hbelow⟩ := h.uncons
    simp only
    split
    · rename_i hoperand
      cases below with
      | nil => exact .inr ⟨top, [], htop, hoperand, hbelow, rfl⟩
      | cons under rest =>
        obtain ⟨hunder, hrest⟩ := hbelow.uncons
        simp only
        cases hhead : headToken? under with
        | none => exact .inr ⟨top, _, htop, hoperand, hbelow, rfl⟩
        | some p =>
          obtain ⟨ht, hword⟩ := headToken hunder hhead
          exact .inl (hrest.pushKeywordStatement ht hword (by simpa using htop) (by simpa using hoperand))
    · cases hhead : headToken? top with
      | none => exact .inl h
      | some p =>
        obtain ⟨ht, hword⟩ := headToken htop hhead
        exact .inl (hbelow.pushKeywordStatement ht hword (by simp) (by simp))

theorem finishStatement (h : b.Made L) (ht : t.In L) (hop : t.operator? = some .semicolon) :
    (b.finishStatement t).Made L := by
  rcases h.finishStatement_cases (t := t) with hmade | ⟨e, below, he, hoperand, hbelow, heq⟩
  · exact hmade
  · rw [heq]
    exact hbelow.push (.ended ht hop he hoperand)

theorem finishHeadDeclaration (h : b.Made L) : b.finishHeadDeclaration.Made L := by
  obtain ⟨stack, errors⟩ := b
  unfold Builder.finishHeadDeclaration
  split
  · rename_i top under rest hstack
    obtain rfl : stack = top :: under :: rest := hstack
    obtain ⟨htop, hbelow⟩ := h.uncons
    obtain ⟨hunder, hrest⟩ := hbelow.uncons
    split
    · rename_i t htoken hword
      obtain ⟨u, hu, hin⟩ := hunder.exists_token
      cases hu.symm.trans htoken
      rw [Node.keyword?, htoken, Option.bind_some] at hword
      split
      · rename_i hoperand
        exact hrest.pushKeywordStatement hin hword (by simpa using htop) (by simpa using hoperand)
      · exact h
    · exact h
  · exact h

theorem completePart (h : b.Made L) (ht : t.In L) : (b.completePart t).Made L := by
  unfold Builder.completePart
  split
  · exact (h.pushDummy ht).completeExpression
  · exact h.completeExpression

theorem ite_pushDummy {p : Prop} [Decidable p] (h : b.Made L) (ht : t.In L) :
    (if p then b.pushDummy t else b).Made L := by
  split
  · exact h.pushDummy ht
  · exact h

theorem endStatement (h : b.Made L) (ht : t.In L) (hop : t.operator? = some .semicolon) :
    (b.endStatement t).Made L := by
  unfold Builder.endStatement
  split
  · have hpart := (h.completePart ht).finishHeadDeclaration
    exact (hpart.ite_pushDummy ht).push (.unbound ht (by rw [Token.binding?_of_operator hop]; rfl))
  · exact h.errorAtToken ht _
  · exact h.completeExpression.finishStatement ht hop

theorem groupChildren (h : Made L ⟨ns, errors⟩) :
    Made L ⟨(groupChildren errors ns).1, (groupChildren errors ns).2⟩ := by
  cases ns with
  | nil => exact h
  | cons first extra =>
    obtain ⟨hfirst, hextra⟩ := h.uncons
    refine ⟨hfirst.commaParts, ?_⟩
    unfold Builder.groupChildren
    simp only
    induction extra generalizing errors with
    | nil => exact h.errors
    | cons n extra ih =>
      obtain ⟨hn, hrest⟩ := hextra.uncons
      have hnext := hrest.record (nodeError_in hn .missingOperator)
      exact ih (hnext.push hfirst) hnext

theorem headPart (h : Made L ⟨ns, errors⟩) (ht : t.In L) :
    Made L ⟨[(headPart errors t ns).1], (headPart errors t ns).2⟩ := by
  unfold Builder.headPart
  split
  · exact h.push (.dummy ht)
  · exact h
  · exact ⟨by simpa using h.uncons.1, List.forall_mem_cons.mpr ⟨ht, h.errors⟩⟩

theorem headParts (h : Made L ⟨cs, errors⟩) (hns : ∀ n ∈ ns, n.Made L) (ht : t.In L) :
    Made L ⟨(headParts t errors cs ns).1, (headParts t errors cs ns).2⟩ := by
  induction ns generalizing errors cs with
  | nil => exact headPart ⟨by simpa using h.stack, h.errors⟩ ht
  | cons n rest ih =>
    rw [List.forall_mem_cons] at hns
    unfold Builder.headParts
    split
    · obtain ⟨u, hu, hin⟩ := hns.1.exists_token
      have hpart : Made L ⟨cs.reverse, errors⟩ := ⟨by simpa using h.stack, h.errors⟩
      have hfirst := hpart.headPart (t := n.token.getD t) (by simpa [hu] using hin)
      have hnone : Made L ⟨[], (Builder.headPart errors (n.token.getD t) cs.reverse).2⟩ :=
        ⟨by simp, hfirst.errors⟩
      exact (ih hnone hns.2).push (hfirst.stack _ (.head _))
    · exact ih (h.push hns.1) hns.2

theorem pushGroup (h : b.Made L) (ht : t.In L) (hop : t.operator? = some op)
    (hopens : op.opensBracket = true) (hcs : ∀ c ∈ cs, c.Made L) : (b.pushGroup t op cs).Made L := by
  have hgroup : (Node.expression t cs).Made L := .group ht hop hopens hcs
  obtain ⟨stack, errors⟩ := b
  unfold Builder.pushGroup
  cases stack with
  | nil => exact h.push hgroup
  | cons target below =>
    obtain ⟨htarget, hbelow⟩ := h.uncons
    simp only
    split
    · split
      · rename_i hparen
        have hround : (Node.expression t cs).isGroup = true := by
          rw [beq_iff_eq] at hparen
          simp [Node.isGroup, Node.expression, Node.operator?, hop, hparen]
        exact hbelow.push (.call (ht.retag _) rfl htarget hgroup hround)
      · split
        · rename_i index
          exact hbelow.push (.access (ht.retag _) rfl htarget (hcs index (.head _)))
        · exact h.errorAtToken ht _
    · exact h.push hgroup

theorem takeGroup {isHead : Bool} (h : b.Made L) (ht : t.In L) :
    (b.takeGroup t op isHead).Made L := by
  unfold Builder.takeGroup
  split
  · exact h.errorAtToken ht _
  · rename_i marker below hdrop
    have hrest : Made L ⟨marker :: below, b.errors⟩ :=
      ⟨fun n hn => h.stack n ((List.dropWhile_sublist _).subset (hdrop ▸ hn)), h.errors⟩
    obtain ⟨hmarker, hbelow⟩ := hrest.uncons
    split
    · rename_i opening o htoken hbracket
      obtain ⟨u, rfl, hu, huop, hopens⟩ := hmarker.of_openBracket hbracket
      cases htoken
      split
      · have hitems : Made L ⟨(b.stack.takeWhile isInner).reverse, b.errors⟩ :=
          ⟨fun n hn => h.stack n ((List.takeWhile_sublist _).subset (List.mem_reverse.mp hn)), h.errors⟩
        have hpush : ∀ {parts es}, Made L ⟨parts, es⟩ →
            (Builder.pushGroup ⟨below, es⟩ opening o parts).Made L := fun hparts =>
          Made.pushGroup ⟨hbelow.stack, hparts.errors⟩ hu huop hopens hparts.stack
        cases isHead with
        | true =>
          have hnone : Made L ⟨[], b.errors⟩ := ⟨by simp, h.errors⟩
          exact hpush (hnone.headParts hitems.stack ht)
        | false => exact hpush hitems.groupChildren
      · exact h.errorAtToken ht _
    · exact h

theorem closeGroup (h : b.Made L) (ht : t.In L) : (b.closeGroup t op).Made L := by
  have hpart := h.completePart ht
  unfold Builder.closeGroup
  simp only
  split
  · exact (hpart.finishHeadDeclaration.ite_pushDummy ht).takeGroup ht
  · exact hpart.takeGroup ht

theorem pushLabel (h : b.Made L) (ht : t.In L) : (b.pushLabel t).Made L := by
  obtain ⟨stack, errors⟩ := b
  unfold Builder.pushLabel
  cases stack with
  | nil => exact h.errorAtToken ht _
  | cons top below =>
    simp only
    split
    · rename_i hlabel
      rw [Bool.and_eq_true] at hlabel
      obtain ⟨u, rfl, hu, hname⟩ := h.uncons.1.of_name hlabel.1
      exact h.uncons.2.push (.label hu hname)
    · exact h.errorAtToken ht _

-- A branch that is still open has had no `else`.
theorem extendBranch {condition block : Node} (h : n.Made L) (hopen : isOpenBranch n = true)
    (hcondition : condition = .always ∨ condition.isGroup = true)
    (hmade : condition.isGroup = true → condition.Made L) (hblock : block.Made L)
    (hscoped : block.isScopedBlock = true) : (extendBranch n condition block).Made L := by
  unfold isOpenBranch at hopen
  cases h with
  | @branch t arms last ht hgroups hlast hconditions hblocks hbodies =>
    have hpen : ((arms ++ [last]).flatMap fun p => [p.1, p.2]).reverse[1]? = some last.1 := by
      simp
    have hgroup : last.1.isGroup = true := by
      refine hlast.resolve_left fun halways => ?_
      simp only [hpen, halways] at hopen
      simp [Node.always] at hopen
    have heq : extendBranch ⟨.branch, some t, (arms ++ [last]).flatMap fun p => [p.1, p.2]⟩ condition block =
        ⟨.branch, some t, ((arms ++ [last]) ++ [(condition, block)]).flatMap fun p => [p.1, p.2]⟩ := by
      simp [Builder.extendBranch]
    rw [heq]
    refine .branch ht ?_ hcondition ?_ ?_ ?_
    · exact List.forall_mem_append.mpr ⟨hgroups, by simpa using hgroup⟩
    · exact List.forall_mem_append.mpr ⟨hconditions, by simpa using hmade⟩
    · exact List.forall_mem_append.mpr ⟨hblocks, by simpa using hblock⟩
    · exact List.forall_mem_append.mpr ⟨hbodies, by simpa using hscoped⟩
  | _ => cases hopen

theorem pushConditional {condition block : Node} (h : b.Made L) (ht : t.In L)
    (hword : t.keyword? = some word) (htakes : takesCondition word = true)
    (hcondition : condition.Made L) (hblock : block.Made L) (hscoped : block.isScopedBlock = true) :
    (b.pushConditional (.ofToken t) condition block word).Made L := by
  have herror : ∀ c, (b.errorAtNode (.ofToken t) c).Made L := fun c => by
    refine h.record ?_
    rw [nodeError_ofToken]
    exact ht
  unfold Builder.pushConditional
  split
  · rename_i hround
    split
    · refine h.push (@Node.Made.branch L t [] (condition, block) ht ?_ (.inr hround) ?_ ?_ ?_)
      · simp
      · simpa using fun _ => hcondition
      · simpa using hblock
      · simpa using hscoped
    · obtain ⟨stack, errors⟩ := b
      cases stack with
      | nil => exact herror _
      | cons branch below =>
        obtain ⟨hbranch, hbelow⟩ := h.uncons
        simp only
        split
        · exact hbelow.push (extendBranch hbranch ‹_› (.inr hround) (fun _ => hcondition) hblock hscoped)
        · exact herror _
    · exact h.push (.loop ht (.inl hword) hround hcondition hscoped hblock)
    · rename_i hif helif hwhile
      split
      · have hfor : word = .forWord := by
          cases word <;> simp_all [takesCondition]
        exact h.push (.loop ht (.inr ⟨hfor ▸ hword, ‹_›⟩) hround hcondition hscoped hblock)
      · exact herror _
  · exact herror _

theorem defineFunction {block : Node} (h : b.Made L) (hn : n.Made L) (hoperand : n.isOperand = true)
    (hcall : n.operator? = some .call) (hblock : block.Made L) (hscoped : block.isScopedBlock = true) :
    (b.defineFunction n block).Made L := by
  obtain ⟨t, name, params, rfl, hname, hparams, hround⟩ := hn.of_call hoperand hcall
  unfold Builder.defineFunction
  simp only [Node.expression]
  split
  · split
    · rename_i hsome hall
      obtain ⟨u, rfl, hu, hkind⟩ := hname.of_name hsome
      exact h.push (.function hu hkind hround hparams (List.all_eq_true.mp hall) hscoped hblock)
    · exact h.errorAtNode hname _
  · exact h.errorAtNode hname _

theorem attachBlock {block : Node} (h : b.Made L) (ht : t.In L) (hblock : block.Made L)
    (hscoped : block.isScopedBlock = true) : (b.attachBlock block t).Made L := by
  obtain ⟨stack, errors⟩ := b
  unfold Builder.attachBlock
  cases stack with
  | nil => exact h.push hblock
  | cons top below =>
    obtain ⟨htop, hbelow⟩ := h.uncons
    simp only
    split
    · cases below with
      | nil => exact hbelow.errorAtNode htop _
      | cons branch rest =>
        obtain ⟨hbranch, hrest⟩ := hbelow.uncons
        simp only
        split
        · exact hrest.push (extendBranch hbranch ‹_› (.inl rfl) (by simp [Node.isGroup_always]) hblock hscoped)
        · exact hbelow.errorAtNode htop _
    · split
      · exact h.push hblock
      · split
        · exact h.errorAtToken ht _
        · rename_i hoperand
          have hoperand : top.isOperand = true := by simpa using hoperand
          split
          · rename_i keywordNode rest word hhead
            obtain ⟨hkeyword, hrest⟩ := hbelow.uncons
            obtain ⟨u, rfl, hu, hword⟩ := hkeyword.of_head hhead
            split
            · exact hrest.pushConditional hu hword ‹_› htop hblock hscoped
            · exact h.errorAtToken ht _
          · split
            · rename_i hcall
              rw [Bool.and_eq_true, beq_iff_eq] at hcall
              exact hbelow.defineFunction htop hoperand hcall.1 hblock hscoped
            · exact h.errorAtToken ht _

-- The statements of a block, and the brace they are taken down to.
theorem takeBody {body : List Node} (h : Made L ⟨stack, errors⟩)
    (hbody : ∀ n ∈ body, n.Made L ∧ n.isStatement = true) :
    (∀ n ∈ (takeBody errors body stack).1, n.Made L ∧ n.isStatement = true) ∧
      Made L ⟨(takeBody errors body stack).2.2, (takeBody errors body stack).2.1⟩ ∧
      ∀ n ∈ (takeBody errors body stack).2.2.head?, n.openBracket? = some .leftBrace := by
  induction stack generalizing body errors with
  | nil => exact ⟨hbody, h, by simp [Builder.takeBody]⟩
  | cons n rest ih =>
    obtain ⟨hn, hrest⟩ := h.uncons
    unfold Builder.takeBody
    split
    · rename_i hbrace
      exact ⟨hbody, h, by simpa using hbrace⟩
    · split
      · exact ih hrest (List.forall_mem_cons.mpr ⟨⟨hn, ‹_›⟩, hbody⟩)
      · exact ih (hrest.record (nodeError_in hn _)) hbody

theorem closeBlock (h : b.Made L) (ht : t.In L) : (b.closeBlock t).Made L := by
  unfold Builder.closeBlock
  split
  · exact h.errorAtToken ht _
  · have hfinished : (if isBoundary b.top? = true then b
        else b.completeExpression.finishStatement (.semicolonAt t.position t.span.start)).Made L := by
      split
      · exact h
      · exact h.completeExpression.finishStatement ht.semicolonAt rfl
    simp only
    generalize (if isBoundary b.top? = true then b
        else b.completeExpression.finishStatement (.semicolonAt t.position t.span.start)) = c
      at hfinished ⊢
    have hnone : ∀ n ∈ ([] : List Node), n.Made L ∧ n.isStatement = true := by simp
    obtain ⟨hbody, hrest, hbrace⟩ := takeBody hfinished hnone
    split
    · rename_i body errors marker below heq
      rw [heq] at hbody hrest hbrace
      obtain ⟨hmarker, hbelow⟩ := hrest.uncons
      obtain ⟨u, rfl, hu, hop, -⟩ := hmarker.of_openBracket (hbrace marker rfl)
      refine hbelow.attachBlock ht (.block hu hop (fun c hc => (hbody c hc).1) fun c hc => (hbody c hc).2) ?_
      simp [Node.isScopedBlock, Node.operator?, Node.ofToken, hop]
    · rename_i body errors heq
      rw [heq] at hbody hrest
      have hleft : Made L ⟨body.reverse, errors⟩ :=
        ⟨fun n hn => (hbody n (List.mem_reverse.mp hn)).1, hrest.errors⟩
      exact hleft.errorAtToken ht _
  · exact h.errorAtToken ht _

-- One token more,
theorem pushToken (h : b.Made L) (ht : t.In L) : (b.pushToken t).Made L := by
  unfold Builder.pushToken
  split
  · exact h
  · exact h.pushValue ht (by simp [Token.isValue, *])
  · exact h.pushValue ht (by simp [Token.isValue, *])
  · exact h.pushValue ht (by simp [Token.isValue, *])
  · exact h.pushValue ht (by simp [Token.isValue, *])
  · exact h.pushKeyword ht (by simp [Token.keyword?, *])
  · rename_i op hkind
    have hop : t.operator? = some op := by simp [Token.operator?, hkind]
    split
    · exact h.pushOpen ht hop rfl
    · exact h.pushOpen ht hop rfl
    · exact h.pushOpen ht hop rfl
    · exact h.closeGroup ht
    · exact h.closeGroup ht
    · exact h.closeBlock ht
    · exact h.endStatement ht hop
    · exact h.pushLabel ht
    · exact h.pushOperator ht hop

-- and, by induction, any number of them.
theorem pushTokens {ts : List Token} (h : b.Made L) (hts : ∀ t ∈ ts, t.In L) :
    (b.pushTokens ts).Made L := by
  induction ts generalizing b with
  | nil => exact h
  | cons t ts ih =>
    rw [List.forall_mem_cons] at hts
    exact ih (h.pushToken hts.1) hts.2

-- The semicolon that the end of a source stands for lies behind it.
theorem closeLast_cases (h : b.Made L) (sourceLength : Nat) : (b.closeLast sourceLength).Made L ∨
    ∃ t e below errors, e.Made L ∧ e.isOperand = true ∧ Made L ⟨below, errors⟩ ∧
      t.operator? = some .semicolon ∧
      b.closeLast sourceLength = ⟨⟨.statement, some t, [e]⟩ :: below, errors⟩ := by
  unfold Builder.closeLast
  split
  · rcases h.completeExpression.finishStatement_cases with hmade | ⟨e, below, he, hoperand, hbelow, heq⟩
    · exact .inl hmade
    · exact .inr ⟨_, e, below, _, he, hoperand, hbelow, rfl, heq⟩
  · exact .inl h

end Made

end Builder

end FinLang

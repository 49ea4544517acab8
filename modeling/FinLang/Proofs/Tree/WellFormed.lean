import FinLang.Proofs.Tree.Assembly
import FinLang.Proofs.Tree.Lockstep
import Mathlib.Logic.Relation

namespace FinLang

-- Two complaints have no occasion: an operator that waits has the left operand that it needs, and
-- so has one that stands behind its operand.
def Complaint.arises : Complaint → Bool
  | .missingLeftOperand | .missingPostfixOperand => false
  | _ => true

namespace Builder

variable {b b' : Builder} {n x op : Node} {below stack rest ns cs : List Node}
  {errors : List Diagnostic} {t : Token} {row : Binding} {o : Operator} {word : Keyword}
  {precedence : Nat} {assoc : Assoc}

def valueOnTop (below : List Node) : Bool :=
  below.head?.any Node.isOperand

-- How a node may stand on those below it: a value not on a value, and a waiting operator on a value
-- exactly if it needs one there.
structure Sits (n : Node) (below : List Node) : Prop where
  operand : n.isOperand = true → valueOnTop below = false
  waiting : ∀ o, n.waiting? = some o →
    ∃ row, o.binding? = some row ∧ row.needsLeft = valueOnTop below

def WellFormed (stack : List Node) : Prop :=
  ∀ above n below, stack = above ++ n :: below → Sits n below

theorem wellFormed_cons : WellFormed (n :: below) ↔ Sits n below ∧ WellFormed below := by
  constructor
  · refine fun h => ⟨h [] n below rfl, fun above m rest heq => h (n :: above) m rest ?_⟩
    rw [heq]
    rfl
  · rintro ⟨hn, h⟩ above m rest heq
    cases above with
    | nil =>
      cases heq
      exact hn
    | cons k above =>
      cases heq
      exact h above m rest rfl

theorem WellFormed.suffix (h : WellFormed stack) (hs : rest <:+ stack) : WellFormed rest := by
  obtain ⟨front, rfl⟩ := hs
  intro above n below heq
  exact h (front ++ above) n below (by rw [heq, List.append_assoc])

-- What may stand anywhere.
def Neutral (n : Node) : Prop :=
  n.isOperand = false ∧ n.waiting? = none

theorem Neutral.sits (h : Neutral n) : Sits n below :=
  ⟨fun hn => by simp [h.1] at hn, fun o ho => by simp [h.2] at ho⟩

theorem neutral_of_isStatement (h : n.isStatement = true) : Neutral n := by
  refine ⟨Node.isOperand_of_isStatement h, ?_⟩
  obtain ⟨kind, token, children⟩ := n
  cases kind <;> first | rfl | cases h

theorem neutral_of_keyword (h : t.keyword? = some word) : Neutral (.ofToken t) :=
  ⟨Token.isValue_of_keyword h, by
    simp [Node.waiting?, Node.isSingle, Node.ofToken, Node.operator?, Token.operator?_of_keyword h]⟩

theorem neutral_of_operator (h : t.operator? = some o)
    (ho : (!o.opensBracket && o != .semicolon) = false) : Neutral (.ofToken t) :=
  ⟨Token.isValue_of_operator h, by
    simp [Node.waiting?, Node.isSingle, Node.ofToken, Node.operator?, h, Option.filter, ho]⟩

theorem wellFormed_of_statements (h : ∀ n ∈ stack, n.isStatement = true) : WellFormed stack := by
  rintro above n below rfl
  exact (neutral_of_isStatement (h n (by simp))).sits

theorem waiting?_of_isOperand (h : n.isOperand = true) : n.waiting? = none := by
  obtain ⟨kind, token, children⟩ := n
  cases kind with
  | single =>
    cases token with
    | none => cases h
    | some t =>
      have ht : t.isValue = true := h
      simp [Node.waiting?, Node.isSingle, Node.operator?, Token.operator?_of_isValue ht]
  | expression => rfl
  | _ => cases h

theorem sits_operand (hbelow : valueOnTop below = false) (h : n.isOperand = true) : Sits n below :=
  ⟨fun _ => hbelow, fun o ho => by simp [waiting?_of_isOperand h] at ho⟩

theorem sits_waiting (h : t.operator? = some o) (hrow : o.binding? = some row)
    (hleft : row.needsLeft = valueOnTop below) : Sits (.ofToken t) below where
  operand hn := by simp [Token.isValue_of_operator h] at hn
  waiting o' ho' := by
    have hfilter : t.operator?.filter (fun op => !op.opensBracket && op != .semicolon) = some o' := ho'
    rw [h] at hfilter
    cases (Option.filter_eq_some_iff.mp hfilter).1
    exact ⟨row, hrow, hleft⟩

def Arisen (errors : List Diagnostic) : Prop :=
  ∀ d ∈ errors, d.complaint.arises = true

theorem Arisen.cons {d : Diagnostic} (h : Arisen errors) (hd : d.complaint.arises = true) :
    Arisen (d :: errors) :=
  List.forall_mem_cons.mpr ⟨hd, h⟩

-- What holds of the builder after any tokens at all.
structure Orderly (b : Builder) : Prop where
  stack : WellFormed b.stack
  errors : Arisen b.errors

namespace Orderly

theorem empty : Orderly .empty :=
  ⟨wellFormed_of_statements nofun, nofun⟩

theorem record {d : Diagnostic} (h : b.Orderly) (hd : d.complaint.arises = true) :
    (b.record d).Orderly :=
  ⟨h.stack, h.errors.cons hd⟩

theorem errorAtToken {c : Complaint} (h : b.Orderly) (hc : c.arises = true) :
    (b.errorAtToken t c).Orderly :=
  h.record hc

theorem errorAtNode {c : Complaint} (h : b.Orderly) (hc : c.arises = true) :
    (b.errorAtNode n c).Orderly :=
  h.record hc

theorem push (h : b.Orderly) (hn : Sits n b.stack) : (b.push n).Orderly :=
  ⟨wellFormed_cons.2 ⟨hn, h.stack⟩, h.errors⟩

theorem pushStatement (h : b.Orderly) (hn : n.isStatement = true) : (b.push n).Orderly :=
  h.push (neutral_of_isStatement hn).sits

theorem uncons (h : Orderly ⟨n :: stack, errors⟩) : Sits n stack ∧ Orderly ⟨stack, errors⟩ :=
  have hcons := wellFormed_cons.1 h.stack
  ⟨hcons.1, hcons.2, h.errors⟩

theorem pushDummy (h : b.Orderly) (ht : b.topIsOperand = false) : (b.pushDummy t).Orderly :=
  h.push (sits_operand ht rfl)

end Orderly

-- One round of folding below the value on top. In the last case nothing is folded.
inductive Folds (precedence : Nat) (assoc : Assoc) : Builder → Builder → Prop
  | infixed {op l x : Node} {rest : List Node} {errors : List Diagnostic} {row : Binding} :
      x.isOperand = true → op.row? = some row → row.foldsBefore precedence assoc = true →
      row.needsLeft = true → l.isOperand = true →
      Folds precedence assoc ⟨x :: op :: l :: rest, errors⟩
        ⟨⟨.expression, op.token, [l, x]⟩ :: rest, errors⟩
  | leading {op x : Node} {below : List Node} {errors : List Diagnostic} {row : Binding} :
      x.isOperand = true → op.row? = some row → row.foldsBefore precedence assoc = true →
      row.needsLeft = false →
      Folds precedence assoc ⟨x :: op :: below, errors⟩ ⟨⟨.expression, op.token, [x]⟩ :: below, errors⟩
  | missing {op x : Node} {below : List Node} {errors : List Diagnostic} {row : Binding} :
      x.isOperand = true → op.row? = some row → row.foldsBefore precedence assoc = true →
      row.needsLeft = true → valueOnTop below = false →
      Folds precedence assoc ⟨x :: op :: below, errors⟩
        ⟨x :: below, nodeError op .missingLeftOperand :: errors⟩

-- One round of completing: folding, or dropping an operator that nothing follows.
inductive Completes : Builder → Builder → Prop
  | folds {b b' : Builder} : Folds lowest .left b b' → Completes b b'
  | drops {top : Node} {below : List Node} {errors : List Diagnostic} :
      top.isOperand = false → top.waiting?.isSome = true →
      Completes ⟨top :: below, errors⟩
        ⟨below, nodeError top (.expectedExpressionAfter top.tokenText) :: errors⟩

-- The loops are made of these rounds.
theorem fold_rounds (hx : x.isOperand = true) :
    Relation.ReflTransGen (Folds precedence assoc) ⟨x :: stack, errors⟩
      (fold precedence assoc errors x stack) := by
  fun_induction fold precedence assoc errors x stack with
  | case1 => exact .refl
  | case2 => exact .refl
  | case3 x op row hwait hfolds hleft => exact .single (.missing hx hwait hfolds hleft rfl)
  | case4 x op row hwait hfolds hleft left rest hoperand ih =>
    exact .head (.infixed hx hwait hfolds hleft hoperand) (ih rfl)
  | case5 x op row hwait hfolds hleft left rest hoperand =>
    exact .single (.missing hx hwait hfolds hleft (by simpa [valueOnTop] using hoperand))
  | case6 x op below row hwait hfolds hleft ih =>
    exact .head (.leading hx hwait hfolds (by simpa using hleft)) (ih rfl)
  | case7 => exact .refl

theorem reduce_rounds : Relation.ReflTransGen (Folds precedence assoc) b (b.reduce precedence assoc) := by
  obtain ⟨stack, errors⟩ := b
  unfold reduce
  cases stack with
  | nil => exact .refl
  | cons operand below =>
    simp only
    split
    · exact fold_rounds ‹_›
    · exact .refl

theorem completeStack_rounds :
    Relation.ReflTransGen Completes ⟨stack, errors⟩ (completeStack errors stack) := by
  fun_induction completeStack errors stack with
  | case1 => exact .refl
  | case2 errors top below hoperand =>
    exact (fold_rounds hoperand).lift id fun _ _ => .folds
  | case3 errors top below hoperand hwait ih =>
    exact .head (.drops (by simpa using hoperand) hwait) ih
  | case4 => exact .refl

namespace Orderly

theorem needsLeft (h : Orderly ⟨x :: op :: below, errors⟩) (hrow : op.row? = some row) :
    row.needsLeft = valueOnTop below := by
  obtain ⟨o, ho, hbind⟩ := Option.bind_eq_some_iff.mp hrow
  obtain ⟨row', hrow', hleft⟩ := h.uncons.2.uncons.1.waiting o ho
  cases hbind.symm.trans hrow'
  exact hleft

-- What a round keeps. The operator finds its left operand.
theorem folds (h : b.Orderly) (hstep : Folds precedence assoc b b') : b'.Orderly := by
  cases hstep with
  | infixed _ _ _ _ hl =>
    obtain ⟨hsits, hrest⟩ := h.uncons.2.uncons.2.uncons
    exact hrest.push (sits_operand (hsits.operand hl) rfl)
  | leading _ hrow _ hleft =>
    exact h.uncons.2.uncons.2.push (sits_operand ((h.needsLeft hrow).symm.trans hleft) rfl)
  | missing _ hrow _ hleft hnone =>
    cases hleft.symm.trans ((h.needsLeft hrow).trans hnone)

theorem completes (h : b.Orderly) (hstep : Completes b b') : b'.Orderly := by
  cases hstep with
  | folds hfolds => exact h.folds hfolds
  | drops => exact h.uncons.2.record rfl

-- So do any number of them.
theorem folds_run (h : b.Orderly) (hrun : Relation.ReflTransGen (Folds precedence assoc) b b') :
    b'.Orderly := by
  induction hrun with
  | refl => exact h
  | tail _ hstep ih => exact ih.folds hstep

theorem completes_run (h : b.Orderly) (hrun : Relation.ReflTransGen Completes b b') : b'.Orderly := by
  induction hrun with
  | refl => exact h
  | tail _ hstep ih => exact ih.completes hstep

theorem reduce (h : b.Orderly) : (b.reduce precedence assoc).Orderly :=
  h.folds_run reduce_rounds

theorem completeExpression (h : b.Orderly) : b.completeExpression.Orderly :=
  h.completes_run completeStack_rounds

theorem pushValue (h : b.Orderly) (ht : t.isValue = true) : (b.pushValue t).Orderly := by
  unfold Builder.pushValue
  split
  · exact h.errorAtToken rfl
  · rename_i htop
    exact h.push (sits_operand (Bool.eq_false_iff.mpr htop) ht)

theorem pushKeyword (h : b.Orderly) (hword : t.keyword? = some word) : (b.pushKeyword t word).Orderly := by
  unfold Builder.pushKeyword
  split
  · exact h.push (neutral_of_keyword hword).sits
  · exact h.errorAtToken rfl

theorem pushOpen (h : b.Orderly) (ht : t.operator? = some o) (ho : o.opensBracket = true) :
    (b.pushOpen t o).Orderly := by
  unfold Builder.pushOpen
  split
  · exact h.errorAtToken rfl
  · exact h.push (neutral_of_operator ht (by simp [ho])).sits

theorem foldTrailing (h : b.Orderly) (hb : b.topIsOperand = true) : (b.foldTrailing n).Orderly := by
  obtain ⟨stack, errors⟩ := b
  cases stack with
  | nil => cases hb
  | cons left below =>
    have hleft : left.isOperand = true := hb
    simp only [Builder.foldTrailing, hleft, if_true]
    exact h.uncons.2.push (sits_operand (h.uncons.1.operand hleft) rfl)

end Orderly

-- An operator has its left operand on top exactly if it needs one.
structure Shifts (b : Builder) (t : Token) (row : Binding) : Prop where
  binding : ∃ o, t.operator? = some o ∧ o.binding? = some row
  left : row.needsLeft = b.topIsOperand

-- A comma may come to stand behind an empty slot.
def slotted (b : Builder) (t : Token) (o : Operator) : Builder :=
  if o == .comma && b.opensEmptySlot then b.pushDummy t else b

-- Only such operators are shifted.
theorem pushOperator_cases (ht : t.operator? = some o) :
    (∃ c : Complaint, c.arises = true ∧ b.pushOperator t o = (b.slotted t o).errorAtToken t c) ∨
      ∃ kind row, (b.slotted t o).Shifts { t with kind } row ∧
        b.pushOperator t o = (b.slotted t o).shift { t with kind } row := by
  unfold pushOperator slotted
  cases hrow : o.binding? with
  | none =>
    have hne : o ≠ .comma := by
      rintro rfl
      cases hrow
    exact .inl ⟨.unexpectedToken t.text, rfl, by simp [hne]⟩
  | some row =>
    have hbinding : ∃ o, t.operator? = some o ∧ o.binding? = some row := ⟨o, ht, hrow⟩
    simp only
    generalize (if (o == .comma && b.opensEmptySlot) = true then b.pushDummy t else b) = c
    cases htop : c.topIsOperand <;> cases hleft : row.needsLeft
    · exact .inr ⟨t.kind, row, ⟨hbinding, hleft.trans htop.symm⟩, by simp⟩
    · simp only [Bool.not_false, Bool.and_true, if_true]
      split
      · rename_i unary urow hlead
        obtain ⟨unary', hunary, hmap⟩ := Option.bind_eq_some_iff.mp hlead
        obtain ⟨urow', hurow, heq⟩ := Option.map_eq_some_iff.mp hmap
        cases heq
        have hfirst := (binding?_leading hrow hunary hurow).2.2
        exact .inr ⟨_, _, ⟨⟨_, rfl, hurow⟩, hfirst.trans htop.symm⟩, rfl⟩
      · exact .inl ⟨_, rfl, rfl⟩
    · exact .inl ⟨.unexpectedAfterValue t.text, rfl, by simp⟩
    · exact .inr ⟨t.kind, row, ⟨hbinding, hleft.trans htop.symm⟩, by simp⟩

namespace Orderly

theorem slotted (h : b.Orderly) : (b.slotted t o).Orderly := by
  unfold Builder.slotted
  split
  · rename_i hslot
    simp only [opensEmptySlot, Bool.and_eq_true, Bool.not_eq_true'] at hslot
    exact h.pushDummy hslot.2.1.1
  · exact h

-- The operator on the values that have been folded for it.
theorem reduced (h : b.Orderly) (hshift : b.Shifts t row) (hneeds : row.needsLeft = true) :
    ((b.reduce row.precedence row.assoc).push (.ofToken t)).Orderly := by
  obtain ⟨⟨o, ht, hrow⟩, hleft⟩ := hshift
  have htop : (b.reduce row.precedence row.assoc).topIsOperand = true :=
    topIsOperand_reduce (hleft.symm.trans hneeds)
  exact h.reduce.push (sits_waiting ht hrow (hneeds.trans htop.symm))

theorem shift (h : b.Orderly) (hshift : b.Shifts t row) : (b.shift t row).Orderly := by
  unfold Builder.shift
  obtain ⟨⟨o, ht, hrow⟩, hleft⟩ := id hshift
  cases hneeds : row.needsLeft with
  | true =>
    simp only [if_true]
    split
    · exact h.reduced hshift hneeds
    · exact h.reduce.foldTrailing (topIsOperand_reduce (hleft.symm.trans hneeds))
  | false =>
    have hright : row.needsRight = true := needsRight_of_needsLeft hrow hneeds
    simp only [Bool.false_eq_true, if_false, hright, if_true]
    exact h.push (sits_waiting ht hrow hleft)

theorem pushOperator (h : b.Orderly) (ht : t.operator? = some o) : (b.pushOperator t o).Orderly := by
  rcases pushOperator_cases ht with ⟨c, hc, heq⟩ | ⟨kind, row, hshift, heq⟩
  · rw [heq]
    exact h.slotted.errorAtToken hc
  · rw [heq]
    exact h.slotted.shift hshift

end Orderly

theorem Arisen.declarationErrors (h : Arisen errors) : Arisen (declarationErrors errors ns) := by
  unfold Builder.declarationErrors
  induction ns generalizing errors with
  | nil => exact h
  | cons n ns ih =>
    refine ih ?_
    simp only
    split
    · exact h
    · exact h.cons rfl

namespace Orderly

theorem pushKeywordStatement {operand : Option Node} (h : b.Orderly) :
    (b.pushKeywordStatement t word operand).Orderly := by
  unfold Builder.pushKeywordStatement
  split
  · exact ⟨(h.pushStatement rfl).stack, h.errors.declarationErrors⟩
  · exact h.errorAtToken rfl
  · split
    · exact h.pushStatement rfl
    · exact h.errorAtToken rfl
  · exact h.errorAtToken rfl
  · exact h.pushStatement rfl
  · exact h.pushStatement rfl
  · exact h.pushStatement rfl
  · exact h.pushStatement rfl
  all_goals exact h.errorAtToken rfl

theorem finishStatement (h : b.Orderly) : (b.finishStatement t).Orderly := by
  obtain ⟨stack, errors⟩ := b
  unfold Builder.finishStatement
  cases stack with
  | nil => exact h
  | cons top below =>
    have hbelow := h.uncons.2
    simp only
    split
    · cases below with
      | nil => exact hbelow.pushStatement rfl
      | cons under rest =>
        simp only
        split
        · exact hbelow.uncons.2.pushKeywordStatement
        · exact hbelow.pushStatement rfl
    · split
      · exact hbelow.pushKeywordStatement
      · exact h

theorem finishHeadDeclaration (h : b.Orderly) : b.finishHeadDeclaration.Orderly := by
  obtain ⟨stack, errors⟩ := b
  unfold Builder.finishHeadDeclaration
  split
  · rename_i top under rest hstack
    obtain rfl : stack = top :: under :: rest := hstack
    split
    · split
      · exact h.uncons.2.uncons.2.pushKeywordStatement
      · exact h
    · exact h
  · exact h

end Orderly

theorem topIsOperand_of_topWaiting? (h : b.topWaiting? = some o) : b.topIsOperand = false := by
  obtain ⟨n, hn, hwait⟩ := Option.bind_eq_some_iff.mp h
  rw [topIsOperand, hn, Option.any_some]
  by_contra hoperand
  simp [waiting?_of_isOperand (by simpa using hoperand)] at hwait

theorem isOperand_of_isSeparator (h : n.isSeparator = true) : n.isOperand = false := by
  obtain ⟨kind, token, children⟩ := n
  cases kind with
  | single =>
    obtain ⟨t, rfl, ht⟩ := Option.bind_eq_some_iff.mp (beq_iff_eq.mp (Bool.and_eq_true_iff.mp h).2)
    exact Token.isValue_of_operator ht
  | _ => cases h

theorem isOperand_of_openBracket? (h : n.openBracket?.isSome = true) : n.isOperand = false := by
  obtain ⟨kind, token, children⟩ := n
  cases kind with
  | single =>
    obtain ⟨o, ho⟩ := Option.isSome_iff_exists.mp h
    obtain ⟨t, rfl, ht⟩ := Option.bind_eq_some_iff.mp (Option.filter_eq_some_iff.mp ho).1
    exact Token.isValue_of_operator ht
  | _ => cases h

theorem topIsOperand_of_isSeparator (h : b.top?.any Node.isSeparator = true) :
    b.topIsOperand = false := by
  unfold topIsOperand
  cases htop : b.top? with
  | none => rfl
  | some n =>
    rw [htop] at h
    exact isOperand_of_isSeparator h

theorem topIsOperand_of_topOpensPart (h : b.topOpensPart = true) : b.topIsOperand = false := by
  unfold topOpensPart at h
  unfold topIsOperand
  cases htop : b.top? with
  | none => rfl
  | some n =>
    rw [htop, Option.all_some, Bool.or_eq_true] at h
    exact h.elim isOperand_of_isSeparator isOperand_of_openBracket?

namespace Orderly

-- An empty slot before the end of a part.
theorem padded (h : b.Orderly) :
    (if b.topWaiting? == some .comma then b.pushDummy t else b).Orderly := by
  split
  · rename_i hcomma
    exact h.pushDummy (topIsOperand_of_topWaiting? (beq_iff_eq.mp hcomma))
  · exact h

theorem completePart (h : b.Orderly) : (b.completePart t).Orderly :=
  h.padded.completeExpression

-- Another one, where nothing else stands in a part.
theorem filled (h : b.Orderly) : (if b.topOpensPart then b.pushDummy t else b).Orderly := by
  split
  · exact h.pushDummy (topIsOperand_of_topOpensPart ‹_›)
  · exact h

theorem endStatement (h : b.Orderly) (ht : t.operator? = some .semicolon) :
    (b.endStatement t).Orderly := by
  unfold Builder.endStatement
  split
  · exact h.completePart.finishHeadDeclaration.filled.push (neutral_of_operator ht rfl).sits
  · exact h.errorAtToken rfl
  · exact h.completeExpression.finishStatement

end Orderly

namespace Arisen

theorem groupChildren (h : Arisen errors) : Arisen (groupChildren errors ns).2 := by
  cases ns with
  | nil => exact h
  | cons first extra =>
    unfold Builder.groupChildren
    simp only
    induction extra generalizing errors with
    | nil => exact h
    | cons n extra ih => exact ih (h.cons rfl)

theorem headPart (h : Arisen errors) : Arisen (headPart errors t ns).2 := by
  unfold Builder.headPart
  split
  · exact h
  · exact h
  · exact h.cons rfl

theorem headParts (h : Arisen errors) : Arisen (headParts t errors cs ns).2 := by
  induction ns generalizing errors cs with
  | nil => exact h.headPart
  | cons n rest ih =>
    unfold Builder.headParts
    split
    · exact ih h.headPart
    · exact ih h

end Arisen

namespace Orderly

theorem pushGroup (h : b.Orderly) : (b.pushGroup t o cs).Orderly := by
  obtain ⟨stack, errors⟩ := b
  unfold Builder.pushGroup
  cases stack with
  | nil => exact h.push (sits_operand rfl rfl)
  | cons target below =>
    obtain ⟨htarget, hbelow⟩ := h.uncons
    simp only
    split
    · have hroom := htarget.operand ‹_›
      split
      · exact hbelow.push (sits_operand hroom rfl)
      · split
        · exact hbelow.push (sits_operand hroom rfl)
        · exact h.errorAtToken rfl
    · rename_i hno
      exact h.push (sits_operand (Bool.eq_false_iff.mpr hno) rfl)

theorem takeGroup {isHead : Bool} (h : b.Orderly) : (b.takeGroup t o isHead).Orderly := by
  unfold Builder.takeGroup
  split
  · exact h.errorAtToken rfl
  · rename_i marker below hdrop
    have hrest : WellFormed (marker :: below) := h.stack.suffix (hdrop ▸ List.dropWhile_suffix _)
    have hbelow : WellFormed below := (wellFormed_cons.1 hrest).2
    split
    · split
      · refine pushGroup ⟨hbelow, ?_⟩
        cases isHead with
        | true => exact h.errors.headParts
        | false => exact h.errors.groupChildren
      · exact h.errorAtToken rfl
    · exact h

theorem closeGroup (h : b.Orderly) : (b.closeGroup t o).Orderly := by
  have hpart := h.completePart (t := t)
  unfold Builder.closeGroup
  simp only
  split
  · refine takeGroup ?_
    split
    · exact hpart.finishHeadDeclaration.pushDummy (topIsOperand_of_isSeparator ‹_›)
    · exact hpart.finishHeadDeclaration
  · exact hpart.takeGroup

theorem pushLabel (h : b.Orderly) : (b.pushLabel t).Orderly := by
  obtain ⟨stack, errors⟩ := b
  unfold Builder.pushLabel
  cases stack with
  | nil => exact h.errorAtToken rfl
  | cons top below =>
    simp only
    split
    · exact h.uncons.2.pushStatement rfl
    · exact h.errorAtToken rfl

end Orderly

theorem isStatement_extendBranch {condition block : Node} (h : isOpenBranch n = true) :
    (extendBranch n condition block).isStatement = true := by
  obtain ⟨kind, token, children⟩ := n
  cases kind with
  | branch => rfl
  | _ => cases h

namespace Orderly

theorem pushConditional {condition block : Node} (h : b.Orderly) :
    (b.pushConditional n condition block word).Orderly := by
  unfold Builder.pushConditional
  split
  · split
    · exact h.pushStatement rfl
    · obtain ⟨stack, errors⟩ := b
      cases stack with
      | nil => exact h.errorAtNode rfl
      | cons branch below =>
        simp only
        split
        · exact h.uncons.2.pushStatement (isStatement_extendBranch ‹_›)
        · exact h.errorAtNode rfl
    · exact h.pushStatement rfl
    · split
      · exact h.pushStatement rfl
      · exact h.errorAtNode rfl
  · exact h.errorAtNode rfl

theorem defineFunction {call block : Node} (h : b.Orderly) : (b.defineFunction call block).Orderly := by
  unfold Builder.defineFunction
  split
  · split
    · split
      · exact h.pushStatement rfl
      · exact h.errorAtNode rfl
    · exact h.errorAtNode rfl
  · refine h.errorAtNode ?_
    split <;> rfl
  · exact h.record rfl

theorem attachBlock {block : Node} (h : b.Orderly) (hblock : block.isStatement = true) :
    (b.attachBlock block t).Orderly := by
  obtain ⟨stack, errors⟩ := b
  unfold Builder.attachBlock
  cases stack with
  | nil => exact h.pushStatement hblock
  | cons top below =>
    have hbelow := h.uncons.2
    simp only
    split
    · cases below with
      | nil => exact hbelow.errorAtNode rfl
      | cons branch rest =>
        simp only
        split
        · exact hbelow.uncons.2.pushStatement (isStatement_extendBranch ‹_›)
        · exact hbelow.errorAtNode rfl
    · split
      · exact h.pushStatement hblock
      · split
        · exact h.errorAtToken rfl
        · split
          · split
            · exact hbelow.uncons.2.pushConditional
            · exact h.errorAtToken rfl
          · split
            · exact hbelow.defineFunction
            · exact h.errorAtToken rfl

-- Nothing but statements is taken into a block, and what is left lies below them.
theorem takeBody {body : List Node} (h : Orderly ⟨stack, errors⟩)
    (hbody : ∀ n ∈ body, n.isStatement = true) :
    (∀ n ∈ (takeBody errors body stack).1, n.isStatement = true) ∧
      Orderly ⟨(takeBody errors body stack).2.2, (takeBody errors body stack).2.1⟩ := by
  induction stack generalizing body errors with
  | nil => exact ⟨hbody, h⟩
  | cons n rest ih =>
    have hrest := h.uncons.2
    unfold Builder.takeBody
    split
    · exact ⟨hbody, h⟩
    · split
      · exact ih hrest (List.forall_mem_cons.mpr ⟨‹_›, hbody⟩)
      · exact ih (hrest.record rfl) hbody

theorem closeBlock (h : b.Orderly) : (b.closeBlock t).Orderly := by
  unfold Builder.closeBlock
  split
  · exact h.errorAtToken rfl
  · have hfinished : (if isBoundary b.top? = true then b
        else b.completeExpression.finishStatement (.semicolonAt t.position t.span.start)).Orderly := by
      split
      · exact h
      · exact h.completeExpression.finishStatement
    simp only
    generalize (if isBoundary b.top? = true then b
        else b.completeExpression.finishStatement (.semicolonAt t.position t.span.start)) = c
      at hfinished ⊢
    have hnone : ∀ n ∈ ([] : List Node), n.isStatement = true := nofun
    obtain ⟨hbody, hrest⟩ := takeBody hfinished hnone
    split
    · rename_i body errors marker below heq
      rw [heq] at hrest
      exact hrest.uncons.2.attachBlock rfl
    · rename_i body errors heq
      rw [heq] at hbody hrest
      have hleft : Orderly ⟨body.reverse, errors⟩ :=
        ⟨wellFormed_of_statements fun n hn => hbody n (List.mem_reverse.mp hn), hrest.errors⟩
      exact hleft.errorAtToken rfl
  · exact h.errorAtToken rfl

-- One token more,
theorem pushToken (h : b.Orderly) : (b.pushToken t).Orderly := by
  unfold Builder.pushToken
  split
  · exact h
  · exact h.pushValue (by simp [Token.isValue, *])
  · exact h.pushValue (by simp [Token.isValue, *])
  · exact h.pushValue (by simp [Token.isValue, *])
  · exact h.pushValue (by simp [Token.isValue, *])
  · exact h.pushKeyword (by simp [Token.keyword?, *])
  · rename_i op hkind
    have hop : t.operator? = some op := by simp [Token.operator?, hkind]
    split
    · exact h.pushOpen hop rfl
    · exact h.pushOpen hop rfl
    · exact h.pushOpen hop rfl
    · exact h.closeGroup
    · exact h.closeGroup
    · exact h.closeBlock
    · exact h.endStatement hop
    · exact h.pushLabel
    · exact h.pushOperator hop

-- and, by induction, any number of them.
theorem pushTokens {ts : List Token} (h : b.Orderly) : (b.pushTokens ts).Orderly := by
  induction ts generalizing b with
  | nil => exact h
  | cons t ts ih => exact ih h.pushToken

theorem closeLast (h : b.Orderly) (sourceLength : Nat) : (b.closeLast sourceLength).Orderly := by
  unfold Builder.closeLast
  split
  · exact h.completeExpression.finishStatement
  · exact h

end Orderly

-- The stacks that come up on the way from one token to the next, and where the source ends: between
-- the parts of a step, after each round of a loop, and while nodes are being taken off.
inductive Passing (b : Builder) (t : Token) : List Node → Prop
  | before : Passing b t b.stack
  | pushed : Passing b t (b.pushToken t).stack
  | closed {sourceLength : Nat} : Passing b t (b.closeLast sourceLength).stack
  -- for an operator
  | folding {o : Operator} {kind : TokenKind} {row : Binding} {c : Builder} :
      t.operator? = some o → (b.slotted t o).Shifts { t with kind } row → row.needsLeft = true →
      Relation.ReflTransGen (Folds row.precedence row.assoc) (b.slotted t o) c → Passing b t c.stack
  | shifted {o : Operator} {kind : TokenKind} {row : Binding} :
      t.operator? = some o → (b.slotted t o).Shifts { t with kind } row → row.needsLeft = true →
      Passing b t (.ofToken { t with kind } :: ((b.slotted t o).reduce row.precedence row.assoc).stack)
  -- for the end of a part of a group
  | ending {c : Builder} :
      Relation.ReflTransGen Completes (if b.topWaiting? == some .comma then b.pushDummy t else b) c →
      Passing b t c.stack
  | ended : Passing b t (b.completePart t).finishHeadDeclaration.stack
  | filled :
      (b.completePart t).finishHeadDeclaration.topOpensPart = true →
      Passing b t ((b.completePart t).finishHeadDeclaration.pushDummy t).stack
  -- for the end of a statement
  | completing {c : Builder} : Relation.ReflTransGen Completes b c → Passing b t c.stack
  | finished {semicolon : Token} : Passing b t (b.completeExpression.finishStatement semicolon).stack
  | taken {n : Node} {below : List Node} : Passing b t (n :: below) → Passing b t below

theorem Orderly.passing (h : b.Orderly) (hpass : b.Passing t stack) : WellFormed stack := by
  induction hpass with
  | before => exact h.stack
  | pushed => exact h.pushToken.stack
  | closed => exact (h.closeLast _).stack
  | folding _ _ _ hrun => exact (h.slotted.folds_run hrun).stack
  | shifted _ hshift hneeds => exact (h.slotted.reduced hshift hneeds).stack
  | ending hrun => exact (h.padded.completes_run hrun).stack
  | ended => exact h.completePart.finishHeadDeclaration.stack
  | filled hopens =>
    exact (h.completePart.finishHeadDeclaration.pushDummy (topIsOperand_of_topOpensPart hopens)).stack
  | completing hrun => exact (h.completes_run hrun).stack
  | finished => exact h.completeExpression.finishStatement.stack
  | taken _ ih => exact ih.suffix (List.suffix_cons _ _)

-- Whatever is pushed, the stack is well-formed at every moment, and nothing is reported that would
-- come of its not being so.
theorem stays_wellFormed (ts : List Token) :
    (∀ t stack, (empty.pushTokens ts).Passing t stack → WellFormed stack) ∧
      ∀ sourceLength, ∀ d ∈ ((empty.pushTokens ts).closeLast sourceLength).errors,
        d.complaint ≠ .missingLeftOperand ∧ d.complaint ≠ .missingPostfixOperand := by
  have h : (empty.pushTokens ts).Orderly := Orderly.empty.pushTokens
  refine ⟨fun t stack => h.passing, fun sourceLength d hd => ?_⟩
  have harises := (h.closeLast sourceLength).errors d hd
  constructor
  · rintro hc
    rw [hc] at harises
    cases harises
  · rintro hc
    rw [hc] at harises
    cases harises

end Builder

end FinLang

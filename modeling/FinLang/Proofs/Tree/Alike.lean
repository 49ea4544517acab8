import FinLang.Tree.Basic
import Mathlib.Data.List.Forall2

namespace FinLang

-- Tokens that may stand for one another: they differ in their place only, and
-- go on doing so where the builder makes a token out of another one.
structure Likeness where
  rel : Token → Token → Prop
  kind : ∀ {t u}, rel t u → t.kind = u.kind
  text : ∀ {t u}, rel t u → t.text = u.text
  retag : ∀ {t u} k, rel t u → rel { t with kind := k } { u with kind := k }
  slot : ∀ {t u}, rel t u → rel t.slotBefore u.slotBefore
  semicolon : ∀ {t u}, rel t u →
    rel (.semicolonAt t.position t.span.start) (.semicolonAt u.position u.span.start)

namespace Node

mutual

-- Trees of one shape with such tokens in them. A branch has the token of its
-- first keyword.
def Alike (R : Likeness) : Node → Node → Prop
  | ⟨k, t, cs⟩, ⟨k', t', cs'⟩ =>
    (k = k' ∧ (k = .branch → t.isSome = true)) ∧ Option.Rel R.rel t t' ∧ AlikeAll R cs cs'

def AlikeAll (R : Likeness) : List Node → List Node → Prop
  | [], [] => True
  | n :: ns, m :: ms => Alike R n m ∧ AlikeAll R ns ms
  | _, _ => False

end

end Node

-- What a complaint says, wherever it is about.
def Diagnostic.gist (d : Diagnostic) : Stage × Level × Complaint :=
  (d.stage, d.level, d.complaint)

variable {R : Likeness} {t u : Token} {n m : Node} {ns ms : List Node}

theorem alikeAll_iff : Node.AlikeAll R ns ms ↔ List.Forall₂ (Node.Alike R) ns ms := by
  induction ns generalizing ms with
  | nil => cases ms <;> simp [Node.AlikeAll]
  | cons n ns ih => cases ms <;> simp [Node.AlikeAll, ih]

namespace Likeness

theorem operator? (h : R.rel t u) : t.operator? = u.operator? := by
  unfold Token.operator?
  rw [R.kind h]

theorem keyword? (h : R.rel t u) : t.keyword? = u.keyword? := by
  unfold Token.keyword?
  rw [R.kind h]

theorem isValue (h : R.rel t u) : t.isValue = u.isValue := by
  unfold Token.isValue
  rw [R.kind h]

end Likeness

namespace Node.Alike

theorem alike_iff : Alike R n m ↔
    (n.kind = m.kind ∧ (n.kind = .branch → n.token.isSome = true)) ∧
      Option.Rel R.rel n.token m.token ∧ List.Forall₂ (Alike R) n.children m.children := by
  cases n; cases m
  rw [Alike, alikeAll_iff]

theorem mk {k : NodeKind} {t u : Option Token} {ns ms : List Node} (hk : k = .branch → t.isSome = true)
    (ht : Option.Rel R.rel t u) (hs : List.Forall₂ (Alike R) ns ms) : Alike R ⟨k, t, ns⟩ ⟨k, u, ms⟩ :=
  alike_iff.2 ⟨⟨rfl, hk⟩, ht, hs⟩

theorem some {k : NodeKind} {t u : Token} {ns ms : List Node} (ht : R.rel t u)
    (hs : List.Forall₂ (Alike R) ns ms) : Alike R ⟨k, .some t, ns⟩ ⟨k, .some u, ms⟩ :=
  mk (fun _ => rfl) (.some ht) hs

theorem kind (h : Alike R n m) : n.kind = m.kind :=
  (alike_iff.1 h).1.1

theorem branch (h : Alike R n m) : n.kind = .branch → n.token.isSome = true :=
  (alike_iff.1 h).1.2

theorem token (h : Alike R n m) : Option.Rel R.rel n.token m.token :=
  (alike_iff.1 h).2.1

theorem children (h : Alike R n m) : List.Forall₂ (Alike R) n.children m.children :=
  (alike_iff.1 h).2.2

theorem ofToken (h : R.rel t u) : Alike R (.ofToken t) (.ofToken u) :=
  .some h .nil

theorem operator? (h : Alike R n m) : n.operator? = m.operator? := by
  have ht := h.token
  unfold Node.operator?
  revert ht
  cases n.token <;> cases m.token <;> rintro (_ | _)
  · rfl
  · exact Likeness.operator? ‹_›

theorem keyword? (h : Alike R n m) : n.keyword? = m.keyword? := by
  have ht := h.token
  unfold Node.keyword?
  revert ht
  cases n.token <;> cases m.token <;> rintro (_ | _)
  · rfl
  · exact Likeness.keyword? ‹_›

theorem isSingle (h : Alike R n m) : n.isSingle = m.isSingle := by
  unfold Node.isSingle
  rw [h.kind]

theorem isOperand (h : Alike R n m) : n.isOperand = m.isOperand := by
  have ht := h.token
  unfold Node.isOperand
  rw [h.kind]
  revert ht
  cases n.token <;> cases m.token <;> rintro (_ | _)
  · rfl
  · rw [Option.any_some, Option.any_some, Likeness.isValue ‹_›]

theorem waiting? (h : Alike R n m) : n.waiting? = m.waiting? := by
  unfold Node.waiting?
  rw [h.isSingle, h.operator?]

theorem openBracket? (h : Alike R n m) : n.openBracket? = m.openBracket? := by
  unfold Node.openBracket?
  rw [h.isSingle, h.operator?]

theorem isSeparator (h : Alike R n m) : n.isSeparator = m.isSeparator := by
  unfold Node.isSeparator
  rw [h.isSingle, h.operator?]

theorem head? (h : Alike R n m) : n.head? = m.head? := by
  unfold Node.head?
  rw [h.isSingle, h.keyword?]

theorem isStatement (h : Alike R n m) : n.isStatement = m.isStatement := by
  unfold Node.isStatement
  rw [h.kind]

theorem tokenText (h : Alike R n m) : n.tokenText = m.tokenText := by
  have ht := h.token
  unfold Node.tokenText
  revert ht
  cases n.token <;> cases m.token <;> rintro (_ | _)
  · rfl
  · exact R.text ‹_›

theorem name? (h : Alike R n m) : n.name? = m.name? := by
  have ht := h.token
  unfold Node.name?
  rw [h.kind]
  revert ht
  rcases n.token with _ | ⟨k, s, p, sp⟩ <;> rcases m.token with _ | ⟨k', s', p', sp'⟩ <;>
    rintro (_ | _)
  · rfl
  · obtain rfl : k = k' := R.kind ‹_›
    obtain rfl : s = s' := R.text ‹_›
    cases m.kind <;> cases k <;> rfl

mutual

theorem commaPartsOnto : ∀ {n m : Node} {after after' : List Node}, Alike R n m →
    List.Forall₂ (Alike R) after after' →
    List.Forall₂ (Alike R) (n.commaPartsOnto after) (m.commaPartsOnto after')
  | ⟨k, t, cs⟩, ⟨k', t', cs'⟩, after, after', h, hs => by
    have hop : t.bind Token.operator? = t'.bind Token.operator? := h.operator?
    obtain rfl : k = k' := h.kind
    unfold Node.commaPartsOnto
    rw [hop]
    split
    · exact commaPartsOfOnto h.children hs
    · exact .cons h hs

theorem commaPartsOfOnto : ∀ {ns ms after after' : List Node}, List.Forall₂ (Alike R) ns ms →
    List.Forall₂ (Alike R) after after' →
    List.Forall₂ (Alike R) (Node.commaPartsOfOnto ns after) (Node.commaPartsOfOnto ms after')
  | [], _, _, _, .nil, hs => by
    unfold Node.commaPartsOfOnto
    exact hs
  | n :: ns, _, _, _, .cons h hns, hs => by
    unfold Node.commaPartsOfOnto
    exact commaPartsOnto h (commaPartsOfOnto hns hs)

end

theorem commaParts (h : Alike R n m) : List.Forall₂ (Alike R) n.commaParts m.commaParts :=
  h.commaPartsOnto .nil

end Node.Alike

-- Builders with such stacks that have said the same.
structure Builder.Alike (R : Likeness) (b c : Builder) : Prop where
  stack : List.Forall₂ (Node.Alike R) b.stack c.stack
  errors : b.errors.map Diagnostic.gist = c.errors.map Diagnostic.gist

namespace Builder

open List (Forall₂)

variable {b c : Builder} {ns' ms' : List Node} {es es' : List Diagnostic} {n' m' : Node}

theorem rel_head? (h : Forall₂ (Node.Alike R) ns ms) :
    Option.Rel (Node.Alike R) ns.head? ms.head? := by
  cases h with
  | nil => exact .none
  | cons h _ => exact .some h

theorem any_rel {p : Node → Bool} {o o' : Option Node} (hp : ∀ {n m}, n.Alike R m → p n = p m)
    (h : Option.Rel (Node.Alike R) o o') : o.any p = o'.any p := by
  cases h with
  | none => rfl
  | some h => exact hp h

theorem bind_rel {β : Type} {f : Node → Option β} {o o' : Option Node}
    (hf : ∀ {n m}, n.Alike R m → f n = f m) (h : Option.Rel (Node.Alike R) o o') :
    o.bind f = o'.bind f := by
  cases h with
  | none => rfl
  | some h => exact hf h

theorem any_alike {p : Node → Bool} (hp : ∀ {n m}, n.Alike R m → p n = p m)
    (h : Forall₂ (Node.Alike R) ns ms) : ns.any p = ms.any p := by
  induction h with
  | nil => rfl
  | cons h _ ih => rw [List.any_cons, List.any_cons, hp h, ih]

namespace Alike

theorem record {d e : Diagnostic} (h : b.Alike R c) (hd : d.gist = e.gist) :
    (b.record d).Alike R (c.record e) :=
  ⟨h.stack, by simp [Builder.record, h.errors, hd]⟩

theorem push (h : b.Alike R c) (hn : n.Alike R m) : (b.push n).Alike R (c.push m) :=
  ⟨.cons hn h.stack, h.errors⟩

theorem errorAtToken {k k' : Complaint} (h : b.Alike R c) (hk : k = k') :
    (b.errorAtToken t k).Alike R (c.errorAtToken u k') :=
  h.record (hk ▸ rfl)

theorem errorAtNode {k : Complaint} (h : b.Alike R c) :
    (b.errorAtNode n k).Alike R (c.errorAtNode m k) :=
  h.record rfl

theorem top? (h : b.Alike R c) : Option.Rel (Node.Alike R) b.top? c.top? :=
  rel_head? h.stack

theorem topIsOperand (h : b.Alike R c) : b.topIsOperand = c.topIsOperand :=
  any_rel (fun h => h.isOperand) h.top?

theorem topWaiting? (h : b.Alike R c) : b.topWaiting? = c.topWaiting? :=
  bind_rel (fun h => h.waiting?) h.top?

theorem innermostBracket? (h : b.Alike R c) : b.innermostBracket? = c.innermostBracket? := by
  unfold Builder.innermostBracket?
  have hs := h.stack
  revert hs
  generalize b.stack = ns, c.stack = ms
  intro hs
  induction hs with
  | nil => rfl
  | cons h _ ih => rw [List.findSome?_cons, List.findSome?_cons, h.openBracket?, ih]

theorem pushDummy (h : b.Alike R c) (ht : R.rel t u) : (b.pushDummy t).Alike R (c.pushDummy u) :=
  h.push (.ofToken (R.slot ht))

theorem isBoundary {o o' : Option Node} (h : Option.Rel (Node.Alike R) o o') :
    isBoundary o = isBoundary o' := by
  cases h with
  | none => rfl
  | some h => simp only [Builder.isBoundary, h.isStatement, h.openBracket?]

theorem fold {precedence : Nat} {assoc : Assoc} (he : es.map Diagnostic.gist = es'.map Diagnostic.gist)
    (hn : n.Alike R m) (hs : Forall₂ (Node.Alike R) ns ms) :
    (fold precedence assoc es n ns).Alike R (fold precedence assoc es' m ms) := by
  fun_induction Builder.fold precedence assoc es n ns generalizing es' m ms with
  | case1 n =>
    cases hs
    exact ⟨.cons hn .nil, he⟩
  | case2 n op below hno =>
    obtain _ | ⟨hop, hbelow⟩ := hs
    rw [hop.waiting?] at hno
    unfold Builder.fold
    simp only [hno]
    exact ⟨.cons hn (.cons hop hbelow), he⟩
  | case3 n op row hrow hfold hleft =>
    obtain _ | ⟨hop, _ | _⟩ := hs
    rw [hop.waiting?] at hrow
    unfold Builder.fold
    simp only [hrow, hfold, hleft, if_true]
    exact ⟨.cons hn .nil, by simp [he]; rfl⟩
  | case4 n op row hrow hfold hleft left rest hoperand ih =>
    obtain _ | ⟨hop, _ | ⟨hl, hrest⟩⟩ := hs
    rw [hop.waiting?] at hrow
    rw [hl.isOperand] at hoperand
    conv => arg 3; unfold Builder.fold
    simp only [hrow, hfold, hleft, hoperand, if_true]
    exact ih he (.mk (by simp) hop.token (.cons hl (.cons hn .nil))) hrest
  | case5 n op row hrow hfold hleft left rest hoperand =>
    obtain _ | ⟨hop, _ | ⟨hl, hrest⟩⟩ := hs
    rw [hop.waiting?] at hrow
    rw [hl.isOperand] at hoperand
    unfold Builder.fold
    simp only [hrow, hfold, hleft, hoperand, if_true]
    exact ⟨.cons hn (.cons hl hrest), by simp [he]; rfl⟩
  | case6 n op below row hrow hfold hleft ih =>
    obtain _ | ⟨hop, hbelow⟩ := hs
    rw [hop.waiting?] at hrow
    conv => arg 3; unfold Builder.fold
    simp only [hrow, hfold, hleft, if_true]
    exact ih he (.mk (by simp) hop.token (.cons hn .nil)) hbelow
  | case7 n op below row hrow hfold =>
    obtain _ | ⟨hop, hbelow⟩ := hs
    rw [hop.waiting?] at hrow
    unfold Builder.fold
    simp only [hrow, hfold]
    exact ⟨.cons hn (.cons hop hbelow), he⟩

theorem reduce {precedence : Nat} {assoc : Assoc} (h : b.Alike R c) :
    (b.reduce precedence assoc).Alike R (c.reduce precedence assoc) := by
  have hs := h.stack
  unfold Builder.reduce
  revert hs
  rcases hb : b.stack with _ | ⟨n, ns⟩ <;> rcases hc : c.stack with _ | ⟨m, ms⟩ <;> rintro (_ | _)
  · exact h
  · rename_i hn hns
    simp only [hn.isOperand]
    split
    · exact fold h.errors hn hns
    · exact h

theorem completeStack (he : es.map Diagnostic.gist = es'.map Diagnostic.gist)
    (hs : Forall₂ (Node.Alike R) ns ms) :
    (completeStack es ns).Alike R (completeStack es' ms) := by
  induction hs generalizing es es' with
  | nil => exact ⟨.nil, he⟩
  | cons h hs ih =>
    unfold Builder.completeStack
    simp only [h.isOperand, h.waiting?, h.tokenText]
    split
    · exact fold he h hs
    · split
      · exact ih (by simp [he]; rfl)
      · exact ⟨.cons h hs, he⟩

theorem completeExpression (h : b.Alike R c) :
    b.completeExpression.Alike R c.completeExpression :=
  completeStack h.errors h.stack

theorem pushValue (h : b.Alike R c) (ht : R.rel t u) : (b.pushValue t).Alike R (c.pushValue u) := by
  unfold Builder.pushValue
  rw [h.topIsOperand]
  split
  · exact h.errorAtToken (by rw [R.text ht])
  · exact h.push (.ofToken ht)

theorem allowsKeyword {word : Keyword} {o o' : Option Node} (h : Option.Rel (Node.Alike R) o o') :
    allowsKeyword word o = allowsKeyword word o' := by
  cases h with
  | none => rfl
  | some h => simp only [Builder.allowsKeyword, isBoundary (.some h), h.openBracket?, h.isSeparator]

theorem pushKeyword {word : Keyword} (h : b.Alike R c) (ht : R.rel t u) :
    (b.pushKeyword t word).Alike R (c.pushKeyword u word) := by
  unfold Builder.pushKeyword
  rw [allowsKeyword h.top?]
  split
  · exact h.push (.ofToken ht)
  · exact h.errorAtToken rfl

theorem pushOpen {op : Operator} (h : b.Alike R c) (ht : R.rel t u) :
    (b.pushOpen t op).Alike R (c.pushOpen u op) := by
  unfold Builder.pushOpen
  rw [h.topWaiting?]
  split
  · exact h.errorAtToken rfl
  · exact h.push (.ofToken ht)

theorem opensEmptySlot (h : b.Alike R c) : b.opensEmptySlot = c.opensEmptySlot := by
  unfold Builder.opensEmptySlot
  rw [h.topIsOperand, h.innermostBracket?]
  congr 1
  refine any_rel (fun hn => ?_) h.top?
  rw [hn.isSeparator, hn.openBracket?, hn.waiting?]

theorem foldTrailing (h : b.Alike R c) (hn : n.Alike R m) :
    (b.foldTrailing n).Alike R (c.foldTrailing m) := by
  have hs := h.stack
  unfold Builder.foldTrailing
  revert hs
  rcases hb : b.stack with _ | ⟨l, ns⟩ <;> rcases hc : c.stack with _ | ⟨l', ms⟩ <;> rintro (_ | _)
  · exact h.errorAtNode
  · rename_i hl hns
    simp only [hl.isOperand]
    split
    · exact ⟨.cons (.mk (by simp) hn.token (.cons hl .nil)) hns, h.errors⟩
    · exact h.errorAtNode

theorem shift {row : Binding} (h : b.Alike R c) (ht : R.rel t u) :
    (b.shift t row).Alike R (c.shift u row) := by
  unfold Builder.shift
  have hb : (if row.needsLeft then b.reduce row.precedence row.assoc else b).Alike R
      (if row.needsLeft then c.reduce row.precedence row.assoc else c) := by
    split
    · exact h.reduce
    · exact h
  simp only
  split
  · exact hb.push (.ofToken ht)
  · exact hb.foldTrailing (.ofToken ht)

theorem pushOperator {op : Operator} (h : b.Alike R c) (ht : R.rel t u) :
    (b.pushOperator t op).Alike R (c.pushOperator u op) := by
  unfold Builder.pushOperator
  rw [h.opensEmptySlot]
  split
  · exact h.errorAtToken (by rw [R.text ht])
  have hb : (if op == .comma && c.opensEmptySlot then b.pushDummy t else b).Alike R
      (if op == .comma && c.opensEmptySlot then c.pushDummy u else c) := by
    split
    · exact h.pushDummy ht
    · exact h
  generalize (if op == .comma && c.opensEmptySlot then b.pushDummy t else b) = b' at hb ⊢
  generalize (if op == .comma && c.opensEmptySlot then c.pushDummy u else c) = c' at hb ⊢
  simp only [hb.topIsOperand]
  split
  · split
    · exact hb.shift (R.retag _ ht)
    · exact hb.errorAtToken (by rw [R.text ht])
  · split
    · exact hb.errorAtToken (by rw [R.text ht])
    · exact hb.shift ht

theorem isDeclarator (h : n.Alike R m) : isDeclarator n = isDeclarator m := by
  unfold Builder.isDeclarator
  rw [h.name?, h.operator?, bind_rel (fun h => h.name?) (rel_head? h.children)]

theorem declarationErrors (he : es.map Diagnostic.gist = es'.map Diagnostic.gist)
    (hs : Forall₂ (Node.Alike R) ns ms) : (declarationErrors es ns).map Diagnostic.gist =
      (declarationErrors es' ms).map Diagnostic.gist := by
  unfold Builder.declarationErrors
  induction hs generalizing es es' with
  | nil => exact he
  | cons h _ ih =>
    simp only [List.foldl_cons, isDeclarator h]
    refine ih ?_
    split
    · exact he
    · simp only [List.map_cons, he]
      rfl

theorem pushKeywordStatement {word : Keyword} {o o' : Option Node} (h : b.Alike R c)
    (ht : R.rel t u) (ho : Option.Rel (Node.Alike R) o o') :
    (b.pushKeywordStatement t word o).Alike R (c.pushKeywordStatement u word o') := by
  have hjump : ∀ {ns ms}, Forall₂ (Node.Alike R) ns ms →
      (b.push ⟨.jump, some t, ns⟩).Alike R (c.push ⟨.jump, some u, ms⟩) := fun hs =>
    h.push (.some ht hs)
  cases ho with
  | none =>
    cases word <;> first | exact h.errorAtToken rfl | exact hjump .nil
  | some ho =>
    unfold Builder.pushKeywordStatement
    cases word with
    | varWord =>
      exact ⟨.cons (.some ht ho.commaParts) h.stack, declarationErrors h.errors ho.commaParts⟩
    | gotoWord =>
      simp only [ho.name?]
      split
      · exact hjump (.cons ho .nil)
      · exact h.errorAtToken rfl
    | returnWord | exitWord => exact hjump (.cons ho .nil)
    | _ => exact h.errorAtToken rfl

-- Ends the statement of a keyword, if there is one.
theorem headToken? (h : n.Alike R m) :
    headToken? n = none ∧ headToken? m = none ∨
      ∃ t u word, headToken? n = some (t, word) ∧ headToken? m = some (u, word) ∧ R.rel t u := by
  have ht := h.token
  unfold Builder.headToken?
  rw [h.isSingle]
  split
  · revert ht
    rcases n.token with _ | t <;> rcases m.token with _ | u <;> rintro (_ | _)
    · exact .inl ⟨rfl, rfl⟩
    · rename_i ht
      simp only [Option.bind_some, Likeness.keyword? ht]
      cases u.keyword? with
      | none => exact .inl ⟨rfl, rfl⟩
      | some word => exact .inr ⟨t, u, word, rfl, rfl, ht⟩
  · exact .inl ⟨rfl, rfl⟩

theorem finishStatement (h : b.Alike R c) (ht : R.rel t u) :
    (b.finishStatement t).Alike R (c.finishStatement u) := by
  obtain ⟨stack, errors⟩ := b
  obtain ⟨stack', errors'⟩ := c
  obtain ⟨hs, he⟩ := h
  unfold Builder.finishStatement
  cases hs with
  | nil => exact ⟨.nil, he⟩
  | @cons n m ns ms hn hns =>
    simp only [hn.isOperand]
    split
    · cases hns with
      | nil => exact ⟨.cons (.some ht (.cons hn .nil)) .nil, he⟩
      | @cons under under' rest rest' hunder hrest =>
        rcases headToken? hunder with ⟨h₁, h₂⟩ | ⟨t', u', word, h₁, h₂, ht'⟩
        · simp only [h₁, h₂]
          exact ⟨.cons (.some ht (.cons hn .nil)) (.cons hunder hrest), he⟩
        · simp only [h₁, h₂]
          exact pushKeywordStatement ⟨hrest, he⟩ ht' (.some hn)
    · rcases headToken? hn with ⟨h₁, h₂⟩ | ⟨t', u', word, h₁, h₂, ht'⟩
      · simp only [h₁, h₂]
        exact ⟨.cons hn hns, he⟩
      · simp only [h₁, h₂]
        exact pushKeywordStatement ⟨hns, he⟩ ht' .none

theorem finishHeadDeclaration (h : b.Alike R c) :
    b.finishHeadDeclaration.Alike R c.finishHeadDeclaration := by
  obtain ⟨stack, errors⟩ := b
  obtain ⟨stack', errors'⟩ := c
  obtain ⟨hs, he⟩ := h
  unfold Builder.finishHeadDeclaration
  rcases hs with _ | ⟨hn, _ | @⟨under, under', rest, rest', hunder, hrest⟩⟩
  · exact ⟨.nil, he⟩
  · exact ⟨.cons hn .nil, he⟩
  · have htoken := hunder.token
    have hstay : Builder.Alike R ⟨_ :: under :: rest, errors⟩ ⟨_ :: under' :: rest', errors'⟩ :=
      ⟨.cons hn (.cons hunder hrest), he⟩
    simp only [hunder.keyword?, hn.isOperand]
    revert htoken
    rcases under.token with _ | t <;> rcases under'.token with _ | u <;> rintro (_ | _)
    · exact hstay
    · rename_i ht
      cases under'.keyword? with
      | none => exact hstay
      | some word =>
        cases word with
        | varWord =>
          simp only
          split
          · exact pushKeywordStatement (b := ⟨rest, errors⟩) (c := ⟨rest', errors'⟩) ⟨hrest, he⟩ ht
              (.some hn)
          · exact hstay
        | _ => exact hstay

theorem completePart (h : b.Alike R c) (ht : R.rel t u) :
    (b.completePart t).Alike R (c.completePart u) := by
  unfold Builder.completePart
  rw [h.topWaiting?]
  split
  · exact (h.pushDummy ht).completeExpression
  · exact h.completeExpression

theorem topOpensPart (h : b.Alike R c) : b.topOpensPart = c.topOpensPart := by
  have ht := h.top?
  unfold Builder.topOpensPart
  revert ht
  cases b.top? <;> cases c.top? <;> rintro (_ | _)
  · rfl
  · rename_i hn
    simp only [Option.all_some, hn.isSeparator, hn.openBracket?]

theorem endStatement (h : b.Alike R c) (ht : R.rel t u) :
    (b.endStatement t).Alike R (c.endStatement u) := by
  unfold Builder.endStatement
  rw [h.innermostBracket?]
  split
  · have hpart := (h.completePart ht).finishHeadDeclaration
    simp only [hpart.topOpensPart]
    split
    · exact (hpart.pushDummy ht).push (.ofToken ht)
    · exact hpart.push (.ofToken ht)
  · exact h.errorAtToken rfl
  · exact h.completeExpression.finishStatement ht

-- Lists of nodes with what was said while they were made.
def PartsAlike (R : Likeness) (p q : List Node × List Diagnostic) : Prop :=
  Forall₂ (Node.Alike R) p.1 q.1 ∧ p.2.map Diagnostic.gist = q.2.map Diagnostic.gist

theorem groupChildren (he : es.map Diagnostic.gist = es'.map Diagnostic.gist)
    (hs : Forall₂ (Node.Alike R) ns ms) :
    PartsAlike R (groupChildren es ns) (groupChildren es' ms) := by
  cases hs with
  | nil => exact ⟨.nil, he⟩
  | cons h hs =>
    refine ⟨h.commaParts, ?_⟩
    simp only [Builder.groupChildren]
    induction hs generalizing es es' with
    | nil => exact he
    | cons _ _ ih => exact ih (by simp [he]; rfl)

theorem headPart (he : es.map Diagnostic.gist = es'.map Diagnostic.gist) (ht : R.rel t u)
    (hs : Forall₂ (Node.Alike R) ns ms) :
    (headPart es t ns).1.Alike R (headPart es' u ms).1 ∧
      (headPart es t ns).2.map Diagnostic.gist = (headPart es' u ms).2.map Diagnostic.gist := by
  rcases hs with _ | ⟨hn, _ | _⟩
  · exact ⟨.ofToken (R.slot ht), he⟩
  · exact ⟨hn, he⟩
  · exact ⟨hn, by simp [Builder.headPart, he]; rfl⟩

theorem getD_rel {o o' : Option Token} (ho : Option.Rel R.rel o o') (ht : R.rel t u) :
    R.rel (o.getD t) (o'.getD u) := by
  cases ho with
  | none => exact ht
  | some h => exact h

theorem headParts (he : es.map Diagnostic.gist = es'.map Diagnostic.gist) (ht : R.rel t u)
    (hcurrent : Forall₂ (Node.Alike R) ns ms) (hs : Forall₂ (Node.Alike R) ns' ms') :
    PartsAlike R (headParts t es ns ns') (headParts u es' ms ms') := by
  induction hs generalizing es es' ns ms with
  | nil =>
    obtain ⟨hn, he⟩ := headPart he ht (List.rel_reverse hcurrent)
    exact ⟨.cons hn .nil, he⟩
  | cons h _ ih =>
    unfold Builder.headParts
    rw [h.isSeparator]
    split
    · obtain ⟨hn, he⟩ := headPart he (getD_rel h.token ht) (List.rel_reverse hcurrent)
      obtain ⟨hparts, he⟩ := ih he .nil
      exact ⟨.cons hn hparts, he⟩
    · exact ih he (.cons h hcurrent)

theorem pushGroup {op : Operator} (h : b.Alike R c) (ht : R.rel t u)
    (hs : Forall₂ (Node.Alike R) ns ms) :
    (b.pushGroup t op ns).Alike R (c.pushGroup u op ms) := by
  have hgroup : (Node.expression t ns).Alike R (.expression u ms) := .some ht hs
  have hpush := h.push hgroup
  obtain ⟨stack, errors⟩ := b
  obtain ⟨stack', errors'⟩ := c
  obtain ⟨hstack, he⟩ := h
  unfold Builder.pushGroup
  cases hstack with
  | nil => exact hpush
  | cons htarget hbelow =>
    simp only [htarget.isOperand]
    split
    · split
      · exact ⟨.cons (.some (R.retag _ ht) (.cons htarget (.cons hgroup .nil))) hbelow, he⟩
      · rcases hs with _ | ⟨hn, _ | _⟩
        · exact errorAtToken ⟨.cons htarget hbelow, he⟩ rfl
        · exact ⟨.cons (.some (R.retag _ ht) (.cons htarget (.cons hn .nil))) hbelow, he⟩
        · exact errorAtToken ⟨.cons htarget hbelow, he⟩ rfl
    · exact hpush

theorem isInner (h : n.Alike R m) : isInner n = isInner m := by
  unfold Builder.isInner
  rw [h.openBracket?]

theorem dropWhile_isInner (hs : Forall₂ (Node.Alike R) ns ms) :
    Forall₂ (Node.Alike R) (ns.dropWhile Builder.isInner) (ms.dropWhile Builder.isInner) := by
  induction hs with
  | nil => exact .nil
  | cons h hs ih =>
    simp only [List.dropWhile_cons, isInner h]
    split
    · exact ih
    · exact .cons h hs

theorem takeWhile_isInner (hs : Forall₂ (Node.Alike R) ns ms) :
    Forall₂ (Node.Alike R) (ns.takeWhile Builder.isInner) (ms.takeWhile Builder.isInner) := by
  induction hs with
  | nil => exact .nil
  | cons h _ ih =>
    simp only [List.takeWhile_cons, isInner h]
    split
    · exact .cons h ih
    · exact .nil

theorem takeGroup {op : Operator} {isHead : Bool} (h : b.Alike R c) (ht : R.rel t u) :
    (b.takeGroup t op isHead).Alike R (c.takeGroup u op isHead) := by
  have hdrop := dropWhile_isInner h.stack
  have hitems := List.rel_reverse (takeWhile_isInner h.stack)
  unfold Builder.takeGroup
  revert hdrop
  rcases b.stack.dropWhile Builder.isInner with _ | ⟨marker, below⟩ <;>
    rcases c.stack.dropWhile Builder.isInner with _ | ⟨marker', below'⟩ <;> rintro (_ | _)
  · exact h.errorAtToken (by rw [R.text ht])
  rename_i hmarker hbelow
  have htoken := hmarker.token
  simp only [hmarker.openBracket?]
  revert htoken
  rcases marker.token with _ | open' <;> rcases marker'.token with _ | open'' <;> rintro (_ | _)
  · exact h
  rename_i hopen
  cases marker'.openBracket? with
  | none => exact h
  | some o =>
    simp only
    split
    · have hparts : PartsAlike R
          (if isHead then Builder.headParts t b.errors [] (b.stack.takeWhile Builder.isInner).reverse
            else Builder.groupChildren b.errors (b.stack.takeWhile Builder.isInner).reverse)
          (if isHead then Builder.headParts u c.errors [] (c.stack.takeWhile Builder.isInner).reverse
            else Builder.groupChildren c.errors (c.stack.takeWhile Builder.isInner).reverse) := by
        split
        · exact headParts h.errors ht .nil hitems
        · exact groupChildren h.errors hitems
      exact pushGroup ⟨hbelow, hparts.2⟩ hopen hparts.1
    · exact h.errorAtToken (by rw [R.text ht])

theorem closeGroup {op : Operator} (h : b.Alike R c) (ht : R.rel t u) :
    (b.closeGroup t op).Alike R (c.closeGroup u op) := by
  have hpart := h.completePart ht
  have hdecl := hpart.finishHeadDeclaration
  unfold Builder.closeGroup
  simp only [any_alike (fun h => h.isSeparator) (takeWhile_isInner hpart.stack),
    any_rel (fun h => h.isSeparator) hdecl.top?]
  split
  · split
    · exact (hdecl.pushDummy ht).takeGroup ht
    · exact hdecl.takeGroup ht
  · exact hpart.takeGroup ht

theorem pushLabel (h : b.Alike R c) : (b.pushLabel t).Alike R (c.pushLabel u) := by
  have hs := h.stack
  unfold Builder.pushLabel
  revert hs
  rcases b.stack with _ | ⟨top, below⟩ <;> rcases c.stack with _ | ⟨top', below'⟩ <;> rintro (_ | _)
  · exact h.errorAtToken rfl
  rename_i htop hbelow
  simp only [htop.name?, isBoundary (rel_head? hbelow)]
  split
  · exact ⟨.cons (.mk (by simp) htop.token .nil) hbelow, h.errors⟩
  · exact h.errorAtToken rfl

theorem isOpenBranch (h : n.Alike R m) : isOpenBranch n = isOpenBranch m := by
  have hsecond : Option.Rel (Node.Alike R) n.children.reverse[1]? m.children.reverse[1]? := by
    have hs := List.rel_reverse h.children
    revert hs
    rcases n.children.reverse with _ | ⟨_, _ | _⟩ <;> rcases m.children.reverse with _ | ⟨_, _ | _⟩ <;>
      rintro (_ | ⟨_, _ | _⟩)
    · exact .none
    · exact .none
    · exact .some ‹_›
  unfold Builder.isOpenBranch
  rw [h.kind, h.children.length_eq]
  congr 2
  refine any_rel (fun hn => ?_) hsecond
  have ht := hn.token
  revert ht
  rename_i n m
  cases n.token <;> cases m.token <;> rintro (_ | _) <;> rfl

theorem extendBranch {condition condition' block block' : Node} (h : n.Alike R m)
    (hcondition : condition.Alike R condition') (hblock : block.Alike R block') :
    (extendBranch n condition block).Alike R (extendBranch m condition' block') := by
  have hkind := h.kind
  have hbranch := h.branch
  unfold Builder.extendBranch
  rw [hkind] at hbranch ⊢
  exact .mk hbranch h.token (List.rel_append h.children (.cons hcondition (.cons hblock .nil)))

section Blocks

variable {block block' : Node} (hblock : block.Alike R block')

include hblock

theorem pushConditional {keyword keyword' condition condition' : Node} {word : Keyword}
    (h : b.Alike R c) (hkeyword : keyword.Alike R keyword') (hsome : keyword.token.isSome = true)
    (hcondition : condition.Alike R condition') :
    (b.pushConditional keyword condition block word).Alike R
      (c.pushConditional keyword' condition' block' word) := by
  have hnode : ∀ k, Node.Alike R ⟨k, keyword.token, [condition, block]⟩
      ⟨k, keyword'.token, [condition', block']⟩ := fun _ =>
    .mk (fun _ => hsome) hkeyword.token (.cons hcondition (.cons hblock .nil))
  have hs := h.stack
  unfold Builder.pushConditional
  rw [hcondition.kind, hcondition.operator?, hcondition.children.length_eq]
  split
  · cases word with
    | ifWord | whileWord => exact h.push (hnode _)
    | elifWord =>
      simp only
      revert hs
      rcases b.stack with _ | ⟨top, below⟩ <;> rcases c.stack with _ | ⟨top', below'⟩ <;>
        rintro (_ | _)
      · exact h.errorAtNode
      rename_i htop hbelow
      simp only [isOpenBranch htop]
      split
      · exact ⟨.cons (extendBranch htop hcondition hblock) hbelow, h.errors⟩
      · exact h.errorAtNode
    | _ =>
      simp only
      split
      · exact h.push (hnode _)
      · exact h.errorAtNode
  · exact h.errorAtNode

theorem defineFunction {call call' : Node} (h : b.Alike R c) (hcall : call.Alike R call') :
    (b.defineFunction call block).Alike R (c.defineFunction call' block') := by
  have hs := hcall.children
  unfold Builder.defineFunction
  revert hs
  rcases call.children with _ | ⟨name, _ | ⟨params, _ | _⟩⟩ <;>
    rcases call'.children with _ | ⟨name', _ | ⟨params', _ | _⟩⟩ <;>
    rintro (_ | ⟨hname, _ | ⟨hparams, _ | _⟩⟩)
  · exact h.record rfl
  · simp only [hname.name?]
    exact h.errorAtNode
  · have hall : params.children.all (fun p => p.name?.isSome) =
        params'.children.all fun p => p.name?.isSome := by
      have := any_alike (p := fun p => !p.name?.isSome) (fun h => by rw [h.name?]) hparams.children
      simpa [List.all_eq_not_any_not] using this
    simp only [hname.name?, hall]
    split
    · split
      · exact h.push (.mk (by simp) hname.token (.cons hname (.cons hparams (.cons hblock .nil))))
      · exact h.errorAtNode
    · exact h.errorAtNode
  · simp only [hname.name?]
    exact h.errorAtNode

theorem attachBlock (h : b.Alike R c) :
    (b.attachBlock block t).Alike R (c.attachBlock block' u) := by
  have hpush := h.push hblock
  have herror : ∀ {k}, (b.errorAtToken t k).Alike R (c.errorAtToken u k) := h.errorAtToken rfl
  obtain ⟨stack, errors⟩ := b
  obtain ⟨stack', errors'⟩ := c
  obtain ⟨hs, he⟩ := h
  unfold Builder.attachBlock
  cases hs with
  | nil => exact hpush
  | @cons top top' below below' htop hbelow =>
    have hrest : Builder.Alike R ⟨below, errors⟩ ⟨below', errors'⟩ := ⟨hbelow, he⟩
    simp only [htop.head?, isBoundary (.some htop), htop.isOperand]
    split
    · cases hbelow with
      | nil => exact hrest.errorAtNode
      | cons hbranch hlower =>
        simp only [isOpenBranch hbranch]
        split
        · exact ⟨.cons (extendBranch hbranch (.mk (by simp) .none .nil) hblock) hlower, he⟩
        · exact hrest.errorAtNode
    · split
      · exact hpush
      · split
        · exact herror
        · have hfunction : (if top.operator? == some .call && Builder.isBoundary below.head? then
                Builder.defineFunction ⟨below, errors⟩ top block
              else Builder.errorAtToken ⟨top :: below, errors⟩ t .unexpectedBlockAfterExpression).Alike R
              (if top'.operator? == some .call && Builder.isBoundary below'.head? then
                Builder.defineFunction ⟨below', errors'⟩ top' block'
              else Builder.errorAtToken ⟨top' :: below', errors'⟩ u
                .unexpectedBlockAfterExpression) := by
            rw [htop.operator?, isBoundary (rel_head? hbelow)]
            split
            · exact defineFunction hblock hrest htop
            · exact herror
          cases hbelow with
          | nil => exact hfunction
          | @cons keyword keyword' lower lower' hkeyword hlower =>
            have hsome : keyword.head?.isSome = true → keyword.token.isSome = true := by
              unfold Node.head? Node.keyword?
              cases keyword.token <;> simp
            simp only [List.head?_cons, Option.bind_some, hkeyword.head?] at hfunction hsome ⊢
            cases hhead : keyword'.head? with
            | none => exact hfunction
            | some word =>
              simp only
              split
              · exact pushConditional hblock (b := ⟨lower, errors⟩) (c := ⟨lower', errors'⟩) ⟨hlower, he⟩
                  hkeyword (hsome (by rw [hhead]; rfl)) htop
              · exact herror

end Blocks

theorem takeBody {rest rest' : List Node} (he : es.map Diagnostic.gist = es'.map Diagnostic.gist)
    (hbody : Forall₂ (Node.Alike R) ns ms) (hs : Forall₂ (Node.Alike R) rest rest') :
    Forall₂ (Node.Alike R) (takeBody es ns rest).1 (takeBody es' ms rest').1 ∧
      PartsAlike R ((takeBody es ns rest).2.2, (takeBody es ns rest).2.1)
        ((takeBody es' ms rest').2.2, (takeBody es' ms rest').2.1) := by
  induction hs generalizing es es' ns ms with
  | nil => exact ⟨hbody, .nil, he⟩
  | cons h hs ih =>
    unfold Builder.takeBody
    simp only [h.openBracket?, h.isStatement]
    split
    · exact ⟨hbody, .cons h hs, he⟩
    · split
      · exact ih he (.cons h hbody)
      · exact ih (by simp [he]; rfl) hbody

theorem closeBlock (h : b.Alike R c) (ht : R.rel t u) :
    (b.closeBlock t).Alike R (c.closeBlock u) := by
  unfold Builder.closeBlock
  rw [h.innermostBracket?]
  split
  · exact h.errorAtToken rfl
  · have hended : (if Builder.isBoundary b.top? then b
          else b.completeExpression.finishStatement (.semicolonAt t.position t.span.start)).Alike R
        (if Builder.isBoundary c.top? then c
          else c.completeExpression.finishStatement (.semicolonAt u.position u.span.start)) := by
      rw [isBoundary h.top?]
      split
      · exact h
      · exact h.completeExpression.finishStatement (R.semicolon ht)
    simp only
    generalize (if Builder.isBoundary b.top? then b
      else b.completeExpression.finishStatement (.semicolonAt t.position t.span.start)) = b' at hended ⊢
    generalize (if Builder.isBoundary c.top? then c
      else c.completeExpression.finishStatement (.semicolonAt u.position u.span.start)) = c' at hended ⊢
    have hbody := takeBody hended.errors .nil hended.stack
    revert hbody
    rcases Builder.takeBody b'.errors [] b'.stack with ⟨body, errors, _ | ⟨marker, below⟩⟩ <;>
      rcases Builder.takeBody c'.errors [] c'.stack with ⟨body', errors', _ | ⟨marker', below'⟩⟩ <;>
      rintro ⟨hbody, _ | _, he⟩
    · exact errorAtToken ⟨List.rel_reverse hbody, he⟩ rfl
    · rename_i hmarker hbelow
      exact attachBlock (.mk (by simp) hmarker.token hbody) ⟨hbelow, he⟩
  · exact h.errorAtToken rfl

theorem pushToken (h : b.Alike R c) (ht : R.rel t u) : (b.pushToken t).Alike R (c.pushToken u) := by
  unfold Builder.pushToken
  rw [R.kind ht]
  cases u.kind with
  | comment => exact h
  | decimal | string | «variable» | dummy => exact h.pushValue ht
  | keyword word => exact h.pushKeyword ht
  | operator op =>
    cases op with
    | leftParen | leftBracket | leftBrace => exact h.pushOpen ht
    | rightParen | rightBracket => exact h.closeGroup ht
    | rightBrace => exact h.closeBlock ht
    | semicolon => exact h.endStatement ht
    | colon => exact h.pushLabel
    | _ => exact h.pushOperator ht

theorem pushTokens {ts us : List Token} (h : b.Alike R c) (hts : Forall₂ R.rel ts us) :
    (b.pushTokens ts).Alike R (c.pushTokens us) := by
  induction hts generalizing b c with
  | nil => exact h
  | cons ht _ ih => exact ih (h.pushToken ht)

theorem empty : Builder.empty.Alike R .empty :=
  ⟨.nil, rfl⟩

theorem leftoverErrors (he : es.map Diagnostic.gist = es'.map Diagnostic.gist)
    (hs : Forall₂ (Node.Alike R) ns ms) (unclosed : Bool) :
    (leftoverErrors unclosed es ns).map Diagnostic.gist =
      (leftoverErrors unclosed es' ms).map Diagnostic.gist := by
  unfold Builder.leftoverErrors
  induction hs generalizing es es' with
  | nil => exact he
  | cons h _ ih =>
    simp only [List.foldl_cons, h.openBracket?, h.isStatement]
    refine ih ?_
    split
    · simp [he]; rfl
    · split
      · exact he
      · simp [he]; rfl

theorem program (h : b.Alike R c) : b.program.Alike R c.program := by
  unfold Builder.program
  refine .mk (by simp) .none ?_
  have hs := List.rel_reverse h.stack
  revert hs
  generalize b.stack.reverse = ns, c.stack.reverse = ms
  intro hs
  induction hs with
  | nil => exact .nil
  | cons h _ ih =>
    simp only [List.filter_cons, h.openBracket?, h.isStatement]
    split
    · exact .cons h ih
    · exact ih

-- The end of the source, where its last semicolon may be missing.
theorem finish {source source' : String} {extra extra' : List Diagnostic} (h : b.Alike R c)
    (hlast : ∀ p q, R.rel (.semicolonAt p source.utf8ByteSize) (.semicolonAt q source'.utf8ByteSize))
    (hextra : extra.map Diagnostic.gist = extra'.map Diagnostic.gist) :
    (b.finish source extra).root.Alike R (c.finish source' extra').root ∧
      ((b.finish source extra).errors.map Diagnostic.gist).Perm
        ((c.finish source' extra').errors.map Diagnostic.gist) := by
  have hclosed : (b.closeLast source.utf8ByteSize).Alike R (c.closeLast source'.utf8ByteSize) := by
    unfold Builder.closeLast
    rw [h.innermostBracket?, isBoundary h.top?]
    split
    · exact h.completeExpression.finishStatement (hlast _ _)
    · exact h
  have herrors := leftoverErrors hclosed.errors (List.rel_reverse hclosed.stack)
  unfold Builder.finish
  simp only [hclosed.innermostBracket?]
  refine ⟨hclosed.program, ?_⟩
  refine ((List.mergeSort_perm _ _).map _).trans (.trans (.of_eq ?_) ((List.mergeSort_perm _ _).map _).symm)
  rw [List.map_append, List.map_append, List.map_reverse, List.map_reverse, herrors, hextra]

end Alike

end Builder

end FinLang

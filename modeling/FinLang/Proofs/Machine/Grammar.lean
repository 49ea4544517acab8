import FinLang.Proofs.Machine.Discipline
import FinLang.Proofs.Tree.Soundness

namespace FinLang

-- The failures that a parsed tree may bring about by its shape, where the set
-- has the `var` that stand among the items of a group.
structure Tolerant (S : Token → Prop) (admits : Cause → Prop) : Prop where
  ordinary : ∀ {c : Cause}, c.Ordinary → admits c
  outsideLoop : ∀ text, admits (.outsideLoop text)
  word : ∀ {t}, S t → admits (.unexpectedInExpression t.text)
  declaration : ∀ {t}, S t → admits (.notExpression "Declare")

namespace Parsed

variable {S : Token → Prop} {admits : Cause → Prop} {n : Node} {t : Token} {row : Binding}

abbrev Evaluable (S : Token → Prop) (n : Node) : Prop :=
  Parsed S .condition n ∨ Parsed S .item n

abbrev Executable (S : Token → Prop) (n : Node) : Prop :=
  Parsed S .statement n ∨ Parsed S .slot n

theorem arity?_of_binding {op : Operator} (h : op.binding? = some row) :
    op.arity? = some (row.needsLeft.toNat + row.needsRight.toNat) := by
  cases op <;> cases h <;> rfl

-- An operator with its operands.
theorem operatorRule {cs : List Node} (ht : t.binding? = some row)
    (hlen : cs.length = row.needsLeft.toNat + row.needsRight.toNat)
    (hcs : ∀ c ∈ cs, Parsed S .value c) :
    (Node.expression t cs).EvalRule admits (Evaluable S) := by
  obtain ⟨op, hop, hrow⟩ := Token.operator?_of_binding ht
  have hrule : (∀ c ∈ cs, Evaluable S c) ∧ ∀ wanted, op.arity? = some wanted →
      wanted ≠ cs.length → admits (.operandCount op wanted cs.length) := by
    refine ⟨fun c hc => .inr (.item (hcs c hc)), fun wanted hwanted hne => ?_⟩
    cases (arity?_of_binding hrow).symm.trans hwanted
    exact absurd hlen.symm hne
  simp only [Node.EvalRule, Node.expression, hop]
  cases op <;> first | exact hrule | cases hrow

theorem children_of_paren (hn : Parsed S .value n) (hop : n.operator? = some .leftParen) :
    ∀ c ∈ n.children, Parsed S .item c := by
  cases hn with
  | token ht => exact nofun
  | group _ hitems => exact hitems
  | leading ht | trailing ht | infixed ht =>
    obtain ⟨o, ho, hrow⟩ := Token.operator?_of_binding ht
    cases ho.symm.trans hop
    cases hrow
  | list ht | call ht | access ht => cases ht.symm.trans hop

theorem value_evalRule (hn : Parsed S .value n) : n.EvalRule admits (Evaluable S) := by
  cases hn with
  | token ht => exact .inl ht
  | @leading t row x ht hleft hx =>
    obtain ⟨op, -, hrow⟩ := Token.operator?_of_binding ht
    refine operatorRule ht ?_ (by simpa using hx)
    simp [hleft, Builder.needsRight_of_needsLeft hrow hleft]
  | trailing ht hleft hright hx =>
    exact operatorRule ht (by simp [hleft, hright]) (by simpa using hx)
  | infixed ht hleft hright hl hr =>
    exact operatorRule ht (by simp [hleft, hright]) (by simpa using ⟨hl, hr⟩)
  | group ht hitems =>
    simp only [Node.EvalRule, Node.expression, ht]
    exact fun c hc => .inr (hitems c hc)
  | list ht hitems =>
    simp only [Node.EvalRule, Node.expression, ht]
    exact fun c hc => .inr (.item (hitems c hc))
  | call ht _ hargs hparen =>
    simp only [Node.EvalRule, Node.expression, ht]
    exact fun c hc => .inr (hargs.children_of_paren hparen c hc)
  | access ht htarget hindex =>
    simp only [Node.EvalRule, Node.expression, ht]
    refine ⟨?_, fun wanted hwanted hne => ?_⟩
    · simpa using ⟨.inr (.item htarget), .inr (.item hindex)⟩
    · cases hwanted
      exact absurd rfl hne

-- What is evaluated in a parsed tree has the shape that its evaluation asks for.
theorem evalRule (hadmits : Tolerant S admits) (hn : Evaluable S n) :
    n.EvalRule admits (Evaluable S) := by
  rcases hn with hn | hn
  · cases hn with
    | always => trivial
    | condition hv => exact hv.value_evalRule
  · cases hn with
    | item hv => exact hv.value_evalRule
    | strayWord _ hs => exact .inr (hadmits.word hs)
    | strayDeclaration _ hs => exact hadmits.declaration hs

section Statements

theorem declareRule (hn : Parsed S .value n) (hd : Builder.isDeclarator n = true) :
    n.DeclareRule admits (Evaluable S) := by
  unfold Node.DeclareRule Interpreter.declarator
  cases hname : n.name? with
  | some name => exact nofun
  | none =>
    simp only [Builder.isDeclarator, hname, Option.isSome_none, Bool.false_or, Bool.and_eq_true,
      beq_iff_eq] at hd
    obtain ⟨hassign, htarget⟩ := hd
    cases hn with
    | token ht => simp [Node.operator?, Node.ofToken, Token.operator?_of_isValue ht] at hassign
    | leading ht hleft =>
      obtain ⟨o, ho, hrow⟩ := Token.operator?_of_binding ht
      cases ho.symm.trans hassign
      cases hrow
      cases hleft
    | trailing ht _ hright =>
      obtain ⟨o, ho, hrow⟩ := Token.operator?_of_binding ht
      cases ho.symm.trans hassign
      cases hrow
      cases hright
    | @infixed t row l r _ _ _ _ hr =>
      obtain ⟨name, hname⟩ := Option.isSome_iff_exists.mp htarget
      have hl : l.name? = some name := hname
      have hop : (Node.expression t [l, r]).operator? == some .assign := by simp [hassign]
      simp only [Node.expression, hl] at hop ⊢
      simp only [hop, if_true]
      intro e he
      cases he
      exact .inr (.item hr)
    | group ht | list ht | call ht | access ht => cases ht.symm.trans hassign

theorem branchRule {pairs : List (Node × Node)} (hc : ∀ p ∈ pairs, Parsed S .condition p.1)
    (hb : ∀ p ∈ pairs, Parsed S .statement p.2) :
    Node.BranchRule admits (Evaluable S) (Executable S) (pairs.flatMap fun p => [p.1, p.2]) := by
  induction pairs with
  | nil => trivial
  | cons p rest ih =>
    refine ⟨.inl (hc p (by simp)), .inl (hb p (by simp)), ?_⟩
    exact ih (fun q hq => hc q (.tail _ hq)) (fun q hq => hb q (.tail _ hq))

theorem parameterNames_ok {params : List Node} (h : ∀ p ∈ params, p.name?.isSome = true) :
    ∃ names, Interpreter.parameterNames params = .ok names := by
  induction params with
  | nil => exact ⟨[], rfl⟩
  | cons p rest ih =>
    obtain ⟨names, hnames⟩ := ih fun q hq => h q (.tail _ hq)
    obtain ⟨name, hname⟩ := Option.isSome_iff_exists.mp (h p (.head _))
    refine ⟨name :: names, ?_⟩
    unfold Interpreter.parameterNames at hnames ⊢
    simp only [List.mapM_cons, hname, hnames]
    rfl

theorem children_of_block (hn : Parsed S .statement n) (hscoped : n.isScopedBlock = true) :
    ∀ c ∈ n.children, Parsed S .statement c := by
  cases hn with
  | expression ht => simp [Node.isScopedBlock, Node.operator?, ht] at hscoped
  | block _ hbody => exact hbody
  | _ => cases hscoped

theorem statement_execRule (hn : Parsed S .statement n) :
    n.ExecRule admits (Evaluable S) (Executable S) := by
  cases hn with
  | expression ht he =>
    simp only [Node.ExecRule, Node.isScopedBlock, Node.operator?, Option.bind_some, ht]
    simpa using .inr (.item he)
  | block ht hbody =>
    simp only [Node.ExecRule, Node.isScopedBlock, Node.operator?, Option.bind_some, ht]
    exact fun c hc => .inl (hbody c hc)
  | declaration _ hparts hd => exact fun c hc => (hparts c hc).declareRule (hd c hc)
  | goto ht hname =>
    simp only [Node.ExecRule, Node.JumpRule, Node.keyword?, Option.bind_some, ht]
    exact .inl hname
  | leave ht hword hops =>
    simp only [Node.ExecRule, Node.JumpRule, Node.keyword?, Option.bind_some, ht]
    rcases hword with rfl | rfl <;> exact fun c hc => .inr (.item (hops c hc))
  | stop ht hword =>
    simp only [Node.ExecRule, Node.JumpRule, Node.keyword?, Option.bind_some, ht]
    rcases hword with rfl | rfl <;> trivial
  | label => trivial
  | branch hc hb _ => exact branchRule hc hb
  | whileLoop ht hhead hbody _ =>
    simp only [Node.ExecRule, Node.LoopRule, Node.keyword?, Option.bind_some, ht,
      Interpreter.loopHead]
    exact ⟨.inl hbody, .inr (.item hhead), by simp, by simp⟩
  | forLoop ht hu hstart hcond hstep hbody _ =>
    simp only [Node.ExecRule, Node.LoopRule, Node.keyword?, Option.bind_some, ht,
      Interpreter.loopHead, Node.expression]
    exact ⟨.inl hbody, .inr hcond, by simpa using .inr hstart, by simpa using .inr hstep⟩
  | @function name opening params body hname _ _ _ hnames hbody hscoped =>
    obtain ⟨text, htext⟩ := Option.isSome_iff_exists.mp hname
    obtain ⟨names, hok⟩ := parameterNames_ok hnames
    have hdef : Interpreter.definition ⟨.function, name.token,
        [name, .expression opening params, body]⟩ = .ok ⟨text, names, .script body⟩ := by
      simp only [Interpreter.definition, htext, Node.expression, hok]
      rfl
    simp only [Node.ExecRule, Node.FunctionRule, hdef]
    intro block hblock c hc
    cases hblock
    exact .inl (hbody.children_of_block hscoped c hc)

-- Likewise for what is executed.
theorem execRule (hn : Executable S n) :
    n.ExecRule admits (Evaluable S) (Executable S) := by
  rcases hn with hn | hn
  · exact hn.statement_execRule
  · cases hn with
    | slot hv =>
      have heval : Evaluable S n := .inr (.item hv)
      cases hv <;> exact heval
    | slotWord ht hs => exact .inr (.strayWord ht hs)
    | slotDeclaration hd => exact hd.statement_execRule

end Statements

end Parsed

-- Parsed trees can be run.
def Discipline.parsed (S : Token → Prop) (admits : Cause → Prop) (h : Tolerant S admits) :
    Discipline where
  admits := admits
  evaluable := Parsed.Evaluable S
  executable := Parsed.Executable S
  ordinary := h.ordinary
  outsideLoop := h.outsideLoop
  evalRule := Parsed.evalRule h
  execRule := Parsed.execRule

end FinLang

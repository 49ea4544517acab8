import FinLang.Proofs.Machine.Flows

namespace FinLang

-- An interpreter that does the same as another one, and leaves the flow as it should.
structure Interpreter.Tracks (g f : Interpreter) : Prop where
  eval : ∀ node scope, Flows .next ValueFlow (g.eval node scope) (f.eval node scope)
  exec : ∀ {node} scope, Discipline.free.executable node →
    Flows .next (fun _ k => node.mayEnd k = true) (g.exec node scope) (f.exec node scope)
  call : ∀ {fn : Function} {args caller}, fn.Fit .free →
    Flows .next (fun _ => Settles) (g.call fn args caller) (f.call fn args caller)

variable {k : FlowKind} {alarm : Halt} {g f : Interpreter} {node : Node} {scope : ScopeId}
  {list : List Node} {last : Option VarId}

namespace Interpreter

open Exec

section Expressions

theorem allocNull_flows : Flows .next ValueFlow allocNull allocNull :=
  .inert_bind (.onHeap (.lift _)) fun _ => .pure rfl

theorem evalSingle_inert : Inert (evalSingle node scope) := by
  unfold evalSingle
  split
  · exact .of_fails .fail
  split
  · exact .onHeap (.lift _)
  · exact .onHeap (.lift _)
  · exact .onHeap (.lift _)
  · refine Inert.get.bind fun _ => ?_
    split
    · exact .pure
    · exact Inert.located (.of_fails .fail)
  · exact Inert.located (.of_fails .fail)

theorem evalItems_flows (hgf : g.Tracks f) (items : List Node) :
    Flows .next ValueFlow (evalItems g scope last items) (evalItems f scope last items) := by
  induction items generalizing last with
  | nil =>
    unfold evalItems
    cases last with
    | some x => exact .pure rfl
    | none => exact allocNull_flows
  | cons item rest ih =>
    unfold evalItems
    refine (hgf.eval item scope).onFailure.bind fun value k hk => ?_
    have hrelease : Inert (last.forM release) := .option fun _ => .release
    cases value with
    | some x =>
      obtain rfl : k = .next := hk
      dsimp only
      split
      · exact .inert_bind hrelease fun _ => ih
      · exact ih
    | none =>
      obtain rfl : k = .exiting := hk
      dsimp only
      split
      · exact .inert_bind hrelease fun _ => .pure rfl
      · exact .pure rfl

theorem pushItems_flows (hgf : g.Tracks f) {array : VarId} (items : List Node) :
    Flows .next ValueFlow (pushItems g scope array items) (pushItems f scope array items) := by
  induction items with
  | nil => exact .pure rfl
  | cons item rest ih =>
    unfold pushItems
    refine (hgf.eval item scope).onFailure.bind fun value k hk => ?_
    subst hk
    cases value with
    | some x =>
      exact .inert_bind .own fun _ => .inert_bind (.onHeap Heap.pushElement_placeless) fun _ => ih
    | none => exact .inert_bind .release fun _ => .pure rfl

theorem evalOperands_flows (hgf : g.Tracks f) {operands : List VarId} (nodes : List Node) :
    Flows .next ValueFlow ((Probe.strict alarm).evalOperands g scope operands nodes)
      (Probe.off.evalOperands f scope operands nodes) := by
  induction nodes generalizing operands with
  | nil => exact .pure rfl
  | cons node rest ih =>
    unfold Probe.evalOperands
    refine (hgf.eval node scope).onFailure.bind fun value k hk => ?_
    subst hk
    cases value with
    | some x =>
      refine Probe.operand_flows.bind fun _ k hk => ?_
      subst hk
      exact ih
    | none => exact .inert_bind (.onHeap Heap.releaseAll_placeless) fun _ => .pure rfl

theorem evalOperator_flows (hgf : g.Tracks f) {op : Operator} :
    Flows .next ValueFlow ((Probe.strict alarm).evalOperator g op list scope)
      (Probe.off.evalOperator f op list scope) := by
  refine (evalOperands_flows hgf list).bind fun operands k hk => ?_
  subst hk
  cases operands with
  | none => exact .pure rfl
  | some reversed =>
    have hrelease : ∀ keep : Option VarId, Inert (reversed.reverse.forM fun id =>
        if some id = keep then pure () else release id) := fun keep => by
      refine .forM (fun id => ?_) _
      split
      · exact .pure
      · exact .release
    refine (Flows.inert (.onHeap Operation.calculate_placeless)).attempt_bind (fun _ k hk => ?_)
      fun _ => .bind fun _ => .left .ofExcept
    subst hk
    exact .inert_bind (hrelease _) fun _ => .inert_bind .pure fun _ => .pure rfl

theorem evalCall_flows (hgf : g.Tracks f) :
    Flows .next ValueFlow (evalCall g node scope) (evalCall f node scope) := by
  unfold evalCall
  split
  swap
  · exact .fails .fail
  split
  · exact .fails .fail
  refine .get_bind fun r hr => ?_
  split
  · exact .fails .fail
  rename_i fn hfound
  refine (hgf.call (hr.find hfound)).withFreshFlow.bind fun ended k hk => ?_
  obtain ⟨rfl, hended⟩ := hk
  split
  · refine Flows.bind (Flows.setKind (P := fun _ k => k = .exiting) rfl) fun _ k hk => ?_
    subst hk
    exact .inert_bind (.option fun _ => .setResult) fun _ => .pure rfl
  · cases ended.result with
    | some x => exact .pure rfl
    | none => exact allocNull_flows

-- Whatever the node, there is a value behind it or an `exit`.
theorem evalNode_flows (hgf : g.Tracks f) :
    Flows .next ValueFlow ((Probe.strict alarm).evalNode g node scope)
      (Probe.off.evalNode f node scope) := by
  unfold Probe.evalNode
  split
  · exact .inert_bind evalSingle_inert fun _ => .pure rfl
  · unfold Probe.evalExpression
    split
    · exact .inert_bind (.onHeap (.lift _)) fun _ => .pure rfl
    split
    · exact .fails .fail
    refine .located ?_
    split
    · exact evalItems_flows hgf _
    · exact .inert_bind (.onHeap (.lift _)) fun _ => pushItems_flows hgf _
    · exact evalCall_flows hgf
    · exact evalOperator_flows hgf
  · exact .fails .fail

end Expressions

section Lists

variable {s s' : Node → Exec Unit}

theorem runStraight_flows
    (hs : ∀ node ∈ list, Flows .next (fun _ k => k ≠ .failed) (s node) (s' node)) :
    Flows .next (fun left k => k ≠ .failed ∧ (left = false → k = .next)) (runStraight s list)
      (runStraight s' list) := by
  induction list with
  | nil => exact .pure ⟨nofun, fun _ => rfl⟩
  | cons node rest ih =>
    unfold runStraight
    refine (hs node (List.mem_cons_self ..)).bind fun _ k hk => ?_
    simp only [isNext, bind_assoc, pure_bind]
    refine .flow_bind fun fl hfl => ?_
    subst hfl
    split
    · rename_i hnext
      have hkind : fl.kind = .next := by simpa [Flow.isNext] using hnext
      rw [hkind]
      exact ih fun node hn => hs node (List.mem_cons_of_mem _ hn)
    · exact .pure ⟨hk, by simp⟩

-- A list looks for the labels of its own, and fails where there is none.
theorem runFrom_flows
    (hs : ∀ node ∈ list, Flows .next (fun _ k => k ≠ .failed) (s node) (s' node)) (fuel : Nat)
    {rest : List Node} (hrest : ∀ n ∈ rest, n ∈ list) :
    Flows .next (fun _ k => k.endsList = true) (runFrom s list fuel rest)
      (runFrom s' list fuel rest) := by
  induction fuel generalizing rest with
  | zero => exact .fails .outOfFuel
  | succ fuel ih =>
    unfold runFrom
    refine (runStraight_flows fun node hn => hs node (hrest node hn)).bind ?_
    rintro left k ⟨hfailed, hnext⟩
    split
    · refine .flow_bind fun fl hfl => ?_
      subst hfl
      split
      · split
        · rename_i htarget
          refine (Flows.setKind (P := fun _ k => k = .next) rfl).bind fun _ k hk => ?_
          subst hk
          exact ih (mem_of_afterLabel? htarget)
        · exact .fails (.bind fun _ => .fail)
      · rename_i hgoto
        refine .pure ?_
        cases hkind : fl.kind with
        | goto label => exact absurd hkind (hgoto label)
        | failed => exact absurd hkind hfailed
        | _ => rfl
    · rename_i hleft
      rw [hnext (by simpa using hleft)]
      exact .pure rfl

end Lists

section Statements

theorem ne_failed_of_mayEnd (h : node.mayEnd k = true) : k ≠ .failed := by
  rintro rfl
  cases h

theorem runList_flows (hgf : g.Tracks f) (fuel : Nat)
    (hn : ∀ n ∈ list, Discipline.free.executable n) :
    Flows .next (fun _ k => k.endsList = true) ((Probe.strict alarm).runList g fuel list scope)
      (Probe.off.runList f fuel list scope) := by
  refine Probe.around_flows (runFrom_flows (fun node hmem => ?_) fuel fun _ h => h)
    fun _ _ h => h
  exact (hgf.exec scope (hn node hmem)).mono fun _ _ => ne_failed_of_mayEnd

theorem discardAll_flows (hgf : g.Tracks f) :
    Flows .next (fun _ => Settles) (discardAll g scope list) (discardAll f scope list) := by
  induction list with
  | nil => exact .pure (.inl rfl)
  | cons node rest ih =>
    unfold discardAll
    refine (hgf.eval node scope).bind fun value k hk => ?_
    subst hk
    cases value with
    | none => exact .pure (.inr rfl)
    | some x => exact .inert_bind .release fun _ => ih

theorem Settles.endsList (h : Settles k) : k.endsList = true := by
  rcases h with rfl | rfl <;> rfl

theorem Settles.mayEnd (h : Settles k) : node.mayEnd k = true := by
  rcases h with rfl | rfl <;> rfl

theorem execStatement_flows (hgf : g.Tracks f) (fuel : Nat) (hkind : node.kind = .statement)
    (hn : Discipline.free.executable node) :
    Flows .next (fun _ k => k.endsList = true) ((Probe.strict alarm).execStatement g fuel node scope)
      (Probe.off.execStatement f fuel node scope) := by
  have hrule := Discipline.free.execRule hn
  simp only [Node.ExecRule, hkind] at hrule
  unfold Probe.execStatement
  split
  · rename_i hscoped
    rw [if_pos hscoped] at hrule
    exact .withScope fun _ => runList_flows hgf fuel hrule
  rename_i hscoped
  rw [if_neg hscoped] at hrule
  split
  · exact (discardAll_flows hgf).mono fun _ _ => Settles.endsList
  · rename_i hsemicolon
    rw [if_neg hsemicolon] at hrule
    exact runList_flows hgf fuel hrule

theorem declareAll_flows (hgf : g.Tracks f) :
    Flows .next (fun _ => Settles) (declareAll g scope list) (declareAll f scope list) := by
  induction list with
  | nil => exact .pure (.inl rfl)
  | cons node rest ih =>
    unfold declareAll
    refine .inert_bind .ofExcept fun declared => ?_
    obtain ⟨name, init⟩ := declared
    cases init with
    | none =>
      exact .inert_bind (.onHeap (.lift _)) fun _ => .inert_bind (.onStore .declare) fun _ => ih
    | some e =>
      refine (hgf.eval e scope).bind fun value k hk => ?_
      subst hk
      cases value with
      | none => exact .pure (.inr rfl)
      | some x => exact .inert_bind .own fun _ => .inert_bind (.onStore .declare) fun _ => ih

-- A function that is defined has a body that may be run.
theorem defineFunction_inert (hkind : node.kind = .function)
    (hn : Discipline.free.executable node) : Inert (defineFunction node scope) := by
  have hrule := Discipline.free.execRule hn
  simp only [Node.ExecRule, hkind, Node.FunctionRule] at hrule
  unfold defineFunction
  rcases hdef : definition node with e | fn
  · exact .of_fails (.left .ofExcept)
  · rw [hdef] at hrule
    have hfit : fn.Fit .free := by
      obtain ⟨block, hbody⟩ := body_of_definition hdef
      simp only [Function.Fit, hbody]
      exact hrule block hbody
    have hput : Inert (onStore (Store.addFunction scope fn)) := .onStore (.addFunction hfit)
    exact hput

theorem evalCondition_flows (hgf : g.Tracks f) :
    Flows .next ValueFlow (evalCondition g node scope) (evalCondition f node scope) := by
  refine (hgf.eval node scope).bind fun value k hk => ?_
  subst hk
  cases value with
  | none => exact .pure rfl
  | some x =>
    exact .inert_bind .get fun _ => .inert_bind .release fun _ => .inert_bind .ofExcept fun _ =>
      .pure rfl

-- Bodies are blocks, so that no `goto` leaves them.
theorem body_flows (hgf : g.Tracks f) {body : Node} (hn : Discipline.free.executable body)
    (hblock : body.isScopedBlock = true) :
    Flows .next (fun _ k => k.endsList = true) (g.exec body scope) (f.exec body scope) := by
  refine (hgf.exec scope hn).mono fun _ k hk => ?_
  have hkind : body.kind = .statement := by
    simp only [Node.isScopedBlock, Bool.and_eq_true, beq_iff_eq] at hblock
    exact hblock.1
  cases k <;> simp_all [Node.mayEnd, FlowKind.endsList]

theorem continues_flows (hgf : g.Tracks f) :
    Flows .next ValueFlow (continues g node scope) (continues f node scope) := by
  unfold continues
  split
  · exact .pure rfl
  · exact evalCondition_flows hgf

theorem execBranches_flows (hgf : g.Tracks f) {pairs : List (Node × Node)}
    (hbody : ∀ p ∈ pairs, Discipline.free.executable p.2 ∧ p.2.isScopedBlock = true) :
    Flows .next (fun _ k => k.endsList = true)
      (execBranches g scope (pairs.flatMap fun p => [p.1, p.2]))
      (execBranches f scope (pairs.flatMap fun p => [p.1, p.2])) := by
  induction pairs with
  | nil => exact .pure rfl
  | cons p rest ih =>
    obtain ⟨hn, hblock⟩ := hbody p (.head _)
    refine (evalCondition_flows hgf).bind fun holds k hk => ?_
    subst hk
    match holds with
    | some true => exact body_flows hgf hn hblock
    | some false => exact ih fun q hq => hbody q (.tail _ hq)
    | none => exact .pure rfl

theorem pairs_of_branch (hn : Discipline.free.executable node) (hkind : node.kind = .branch) :
    ∃ pairs : List (Node × Node), node.children = pairs.flatMap (fun p => [p.1, p.2]) ∧
      ∀ p ∈ pairs, Discipline.free.executable p.2 ∧ p.2.isScopedBlock = true := by
  rcases hn with hn | hn
  · cases hn with
    | branch _ hb hscoped => exact ⟨_, rfl, fun p hp => ⟨.inl (hb p hp), hscoped p hp⟩⟩
    | _ => cases hkind
  · cases hn with
    | slot hv => cases hv <;> cases hkind
    | _ => cases hkind

theorem isNext_flows {x y : Exec Unit} {P : Unit → FlowKind → Prop}
    (hx : k = .next → Flows .next P x y) (hend : P () k) :
    Flows k P (do if ← isNext then x) (do if ← isNext then y) := by
  simp only [isNext, bind_assoc, pure_bind]
  refine .flow_bind fun fl hfl => ?_
  split
  · rename_i hnext
    obtain rfl : k = .next := by simpa [Flow.isNext, hfl] using hnext
    exact hx rfl
  · exact .pure hend

-- What the parts of the head of a loop may hold changes nothing but by an `exit`.
theorem slot_flows (hgf : g.Tracks f) (hn : Parsed (fun _ => True) .slot node) :
    Flows .next (fun _ => Settles) (g.exec node scope) (f.exec node scope) := by
  refine (hgf.exec scope (.inr hn)).mono fun _ k hk => ?_
  have hkind : node.kind = .single ∨ node.kind = .expression ∨ node.kind = .declare := by
    cases hn with
    | slot hv => cases hv <;> simp [Node.ofToken, Node.expression]
    | slotWord => exact .inl rfl
    | slotDeclaration => exact .inr (.inr rfl)
  rcases hkind with hkind | hkind | hkind <;> cases k <;> simp_all [Node.mayEnd, Settles]

-- Behind a loop: a `break` or `continue` is done.
abbrev LoopEnd (k : FlowKind) : Prop :=
  k = .next ∨ k = .returning ∨ k = .exiting

theorem Settles.loopEnd (h : Settles k) : LoopEnd k := by
  rcases h with rfl | rfl
  · exact .inl rfl
  · exact .inr (.inr rfl)

-- A loop goes on from the next statement, or something that it does not handle has left it.
theorem execBody_flows (hgf : g.Tracks f) {body : Node} (hn : Discipline.free.executable body)
    (hblock : body.isScopedBlock = true) :
    Flows .next (fun again k => LoopEnd k ∧ (again = true → k = .next)) (execBody g body scope)
      (execBody f body scope) := by
  refine (body_flows hgf hn hblock).bind fun _ k hk => ?_
  refine .flow_bind fun fl hfl => ?_
  subst hfl
  have hnext : ∀ again : Bool, Flows fl.kind (fun again k => LoopEnd k ∧ (again = true → k = .next))
      (do setKind .next; return again) (do setKind .next; return again) := fun again => by
    refine (Flows.setKind (P := fun _ k => k = .next) rfl).bind fun _ k hk => ?_
    exact .pure ⟨.inl hk, fun _ => hk⟩
  split
  · exact .pure ⟨.inl ‹_›, fun _ => ‹_›⟩
  · exact hnext true
  · exact hnext false
  · refine .pure ⟨?_, nofun⟩
    cases hkind : fl.kind <;> simp_all [FlowKind.endsList, LoopEnd]

theorem iterate_flows (hgf : g.Tracks f) {condition body : Node} {step : Option Node}
    (hn : Discipline.free.executable body) (hblock : body.isScopedBlock = true)
    (hstep : ∀ s ∈ step, Parsed (fun _ => True) .slot s) (fuel : Nat) :
    Flows .next (fun _ => LoopEnd) (iterate g condition body step scope fuel)
      (iterate f condition body step scope fuel) := by
  induction fuel with
  | zero => exact .fails .outOfFuel
  | succ fuel ih =>
    unfold iterate
    refine (continues_flows hgf).bind fun holds k hk => ?_
    subst hk
    rcases holds with _ | _ | _
    case none => exact .pure (.inr (.inr rfl))
    case some.false => exact .pure (.inl rfl)
    case some.true =>
      refine (execBody_flows hgf hn hblock).bind ?_
      rintro again k ⟨hend, hagain⟩
      cases again with
      | false => exact .pure hend
      | true =>
        rw [hagain rfl]
        cases step with
        | none => exact ih
        | some s =>
          refine (slot_flows hgf (hstep s rfl)).bind fun _ k hk => ?_
          exact isNext_flows (fun _ => ih) (Settles.loopEnd hk)

theorem execLoop_flows (hgf : g.Tracks f) (fuel : Nat) (hn : Discipline.free.executable node)
    (hkind : node.kind = .loop) :
    Flows .next (fun _ => LoopEnd) (execLoop g fuel node scope) (execLoop f fuel node scope) := by
  rcases hn with hn | hn
  swap
  · cases hn with
    | slot hv => cases hv <;> cases hkind
    | _ => cases hkind
  cases hn with
  | whileLoop ht _ hbody hblock =>
    unfold execLoop
    refine .withScope fun inner => ?_
    simp only [Node.keyword?, Option.bind_some, ht, loopHead]
    exact iterate_flows hgf (.inl hbody) hblock (by simp) fuel
  | forLoop ht _ hstart _ hstep hbody hblock =>
    unfold execLoop
    refine .withScope fun inner => ?_
    simp only [Node.keyword?, Option.bind_some, ht, loopHead, Node.expression]
    refine (slot_flows hgf hstart).bind fun _ k hk => isNext_flows (fun _ => ?_) (Settles.loopEnd hk)
    exact iterate_flows hgf (.inl hbody) hblock (fun s hs => Option.some.inj hs ▸ hstep) fuel
  | _ => cases hkind

theorem execLeave_flows (hgf : g.Tracks f) :
    Flows .next (fun _ k' => k' = k ∨ k' = .exiting) (execLeave g node k scope)
      (execLeave f node k scope) := by
  unfold execLeave
  split
  · exact .setKind (.inl rfl)
  · refine (hgf.eval _ scope).bind fun value k' hk => ?_
    subst hk
    cases value with
    | none => exact .pure (.inr rfl)
    | some x => exact .inert_bind .setResult fun _ => .setKind (.inl rfl)

theorem execJump_flows (hgf : g.Tracks f) (hkind : node.kind = .jump) :
    Flows .next (fun _ k => node.mayEnd k = true) (execJump g node scope)
      (execJump f node scope) := by
  unfold execJump
  split
  · split
    · exact .setKind (by simp [Node.mayEnd, hkind, ‹node.keyword? = _›])
    · exact .fails .fail
  · refine (execLeave_flows hgf).mono ?_
    rintro _ k (rfl | rfl) <;> simp [Node.mayEnd, hkind]
  · refine (execLeave_flows hgf).mono ?_
    rintro _ k (rfl | rfl) <;> simp [Node.mayEnd]
  · exact .setKind (by simp [Node.mayEnd, hkind])
  · exact .setKind (by simp [Node.mayEnd, hkind])
  · exact .fails .fail

theorem execBare_flows (hgf : g.Tracks f) :
    Flows .next (fun _ => Settles) (execBare g node scope) (execBare f node scope) := by
  refine (hgf.eval node scope).bind fun value k hk => ?_
  subst hk
  cases value with
  | none => exact .pure (.inr rfl)
  | some x => exact (Flows.inert (.located .release)).mono fun _ _ hk => .inl hk

-- Whatever the node, only what it stands for leaves it.
theorem execNode_flows (hgf : g.Tracks f) (fuel : Nat) (hn : Discipline.free.executable node) :
    Flows .next (fun _ k => node.mayEnd k = true) ((Probe.strict alarm).execNode g fuel node scope)
      (Probe.off.execNode f fuel node scope) := by
  have hrule := Discipline.free.execRule hn
  simp only [Node.ExecRule] at hrule
  unfold Probe.execNode
  split
  · rename_i hkind
    refine (execStatement_flows hgf fuel hkind hn).located.mono fun _ k hk => ?_
    cases k <;> simp_all [Node.mayEnd, FlowKind.endsList]
  · rename_i hkind
    simp only [hkind] at hrule
  · unfold Interpreter.execNode
    cases hkind : node.kind with
    | declare => exact (declareAll_flows hgf).located.mono fun _ _ => Settles.mayEnd
    | function =>
      refine (Flows.inert (defineFunction_inert hkind hn)).located.mono fun _ k hk => ?_
      exact Settles.mayEnd (.inl hk)
    | branch =>
      obtain ⟨pairs, hpairs, hbody⟩ := pairs_of_branch hn hkind
      dsimp only
      rw [hpairs]
      refine (execBranches_flows hgf hbody).located.mono fun _ k hk => ?_
      cases k <;> simp_all [Node.mayEnd, FlowKind.endsList]
    | loop =>
      refine (execLoop_flows hgf fuel hn hkind).located.mono ?_
      rintro _ k (rfl | rfl | rfl) <;> simp [Node.mayEnd, hkind]
    | label => exact .pure rfl
    | jump => exact (execJump_flows hgf hkind).located
    | single | expression => exact (execBare_flows hgf).mono fun _ _ => Settles.mayEnd
    | statement | program => simp_all

end Statements

end Interpreter

end FinLang

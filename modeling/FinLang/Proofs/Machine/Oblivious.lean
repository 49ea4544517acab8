import FinLang.Proofs.Machine.Veil

namespace FinLang

open Exec

-- An interpreter that does not see what a scope binds, from any other scope.
structure Interpreter.Oblivious (n : ScopeId) (i : Interpreter) : Prop where
  eval : ∀ node {s}, s ≠ n → Exec.Oblivious n (i.eval node s)
  exec : ∀ node {s}, s ≠ n → Exec.Oblivious n (i.exec node s)
  call : ∀ f args {s}, s ≠ n → Exec.Oblivious n (i.call f args s)

variable {n scope caller : ScopeId} {self : Interpreter} {node : Node} {name : String}

namespace Interpreter

open Exec.Oblivious

section Expressions

theorem allocNull_oblivious : Exec.Oblivious n allocNull :=
  onHeap.bind fun _ => pure

theorem evalSingle_oblivious (hne : scope ≠ n) : Exec.Oblivious n (evalSingle node scope) := by
  unfold evalSingle
  split
  · exact throw
  rename_i token _
  split
  · exact onHeap
  · exact onHeap
  · exact onHeap
  · refine get_bind (fun r ha => by rw [Run.findVariable_veil ha hne]) fun r => ?_
    split
    · exact pure
    · exact located throw
  · exact located throw

variable (hself : self.Oblivious n) (hne : scope ≠ n)
include hself hne

theorem evalItems_oblivious (last : Option VarId) (items : List Node) :
    Exec.Oblivious n (evalItems self scope last items) := by
  induction items generalizing last with
  | nil =>
    cases last with
    | some id => exact pure
    | none => exact allocNull_oblivious
  | cons item rest ih =>
    refine (onFailure (hself.eval item hne) releases).bind fun value => ?_
    cases value with
    | some id => exact ite (releases.bind fun _ => ih (some id)) (ih (some id))
    | none => exact ite (releases.bind fun _ => pure) pure

theorem pushItems_oblivious (array : VarId) (items : List Node) :
    Exec.Oblivious n (pushItems self scope array items) := by
  induction items with
  | nil => exact pure
  | cons item rest ih =>
    refine (onFailure (hself.eval item hne) release).bind fun value => ?_
    cases value with
    | some value => exact own.bind fun _ => onHeap.bind fun _ => ih
    | none => exact release.bind fun _ => pure

theorem evalOperands_oblivious (operands : List VarId) (nodes : List Node) :
    Exec.Oblivious n (evalOperands self scope operands nodes) := by
  induction nodes generalizing operands with
  | nil => exact pure
  | cons node rest ih =>
    refine (onFailure (hself.eval node hne) onHeap).bind fun value => ?_
    cases value with
    | some value => exact flow.bind fun _ => ofExcept.bind fun _ => ih (value :: operands)
    | none => exact onHeap.bind fun _ => pure

theorem evalOperator_oblivious {op : Operator} {nodes : List Node} :
    Exec.Oblivious n (evalOperator self op nodes scope) := by
  refine (evalOperands_oblivious hself hne [] nodes).bind fun operands => ?_
  cases operands with
  | none => exact pure
  | some reversed =>
    refine onHeap.attempt.bind fun result => ?_
    exact (Exec.Oblivious.forM (fun _ => ite pure release) _).bind fun _ => ofExcept.bind fun _ => pure

theorem evalCall_oblivious : Exec.Oblivious n (evalCall self node scope) := by
  unfold evalCall
  split
  swap
  · exact throw
  split
  · exact throw
  rename_i args _ name _
  refine get_bind (fun r ha => by rw [Run.findFunction_veil ha hne]) fun r => ?_
  split
  · exact throw
  · refine (withFreshFlow (hself.call _ _ hne)).bind fun ended => ite ?_ ?_
    · exact setKind.bind fun _ => setResults.bind fun _ => pure
    · cases ended.result with
      | some id => exact pure
      | none => exact allocNull_oblivious

theorem evalNode_oblivious : Exec.Oblivious n (evalNode self node scope) := by
  unfold evalNode
  split
  · exact (evalSingle_oblivious hne).bind fun _ => pure
  · unfold evalExpression
    split
    · exact onHeap.bind fun _ => pure
    split
    · exact throw
    refine located ?_
    split
    · exact evalItems_oblivious hself hne none _
    · exact onHeap.bind fun array => pushItems_oblivious hself hne array _
    · exact evalCall_oblivious hself hne
    · exact evalOperator_oblivious hself hne
  · exact throw

end Expressions

section Statements

theorem isNext_oblivious : Exec.Oblivious n isNext :=
  flow.bind fun _ => pure

theorem runStraight_oblivious {statement : Node → Exec Unit}
    (hst : ∀ node, Exec.Oblivious n (statement node)) (nodes : List Node) :
    Exec.Oblivious n (runStraight statement nodes) := by
  induction nodes with
  | nil => exact pure
  | cons node rest ih => exact (hst node).bind fun _ => .bind isNext_oblivious fun _ => ite ih pure

theorem runFrom_oblivious {statement : Node → Exec Unit} {list : List Node}
    (hst : ∀ node, Exec.Oblivious n (statement node)) (fuel : Nat) (rest : List Node) :
    Exec.Oblivious n (runFrom statement list fuel rest) := by
  induction fuel generalizing rest with
  | zero => exact throw
  | succ k ih =>
    refine (runStraight_oblivious hst rest).bind fun stopped => ite (flow.bind fun fl => ?_) pure
    split
    · split
      · exact setKind.bind fun _ => ih _
      · exact setKind.bind fun _ => throw
    · exact pure

variable (hself : self.Oblivious n)
include hself

theorem runList_oblivious (hne : scope ≠ n) (fuel : Nat) (list : List Node) :
    Exec.Oblivious n (runList self fuel list scope) :=
  runFrom_oblivious (fun node => hself.exec node hne) fuel list

variable (hne : scope ≠ n)
include hne

theorem discardAll_oblivious (nodes : List Node) :
    Exec.Oblivious n (discardAll self scope nodes) := by
  induction nodes with
  | nil => exact pure
  | cons node rest ih =>
    refine (hself.eval node hne).bind fun value => ?_
    cases value with
    | some id => exact release.bind fun _ => ih
    | none => exact pure

theorem execStatement_oblivious (fuel : Nat) :
    Exec.Oblivious n (execStatement self fuel node scope) := by
  refine ite ?_ (ite ?_ ?_)
  · exact withScope hne fun s hs => runList_oblivious hself hs fuel _
  · exact discardAll_oblivious hself hne _
  · exact runList_oblivious hself hne fuel _

theorem execProgram_oblivious (fuel : Nat) :
    Exec.Oblivious n (execProgram self fuel node scope) :=
  withScope hne fun _ hs => (runList_oblivious hself hs fuel _).bind fun _ => leaveBody

theorem declareAll_oblivious (nodes : List Node) :
    Exec.Oblivious n (declareAll self scope nodes) := by
  induction nodes with
  | nil => exact pure
  | cons node rest ih =>
    refine ofExcept.bind fun p => ?_
    rcases p with ⟨name, _ | e⟩
    · exact onHeap.bind fun _ => (declare hne).bind fun _ => ih
    · refine (hself.eval e hne).bind fun value => ?_
      cases value with
      | none => exact pure
      | some value => exact own.bind fun _ => (declare hne).bind fun _ => ih

theorem evalCondition_oblivious : Exec.Oblivious n (evalCondition self node scope) := by
  refine (hself.eval node hne).bind fun value => ?_
  cases value with
  | none => exact pure
  | some id =>
    exact get_bind (fun _ _ => rfl) fun _ => release.bind fun _ => ofExcept.bind fun _ => pure

theorem execBranches_oblivious (nodes : List Node) :
    Exec.Oblivious n (execBranches self scope nodes) := by
  induction nodes using execBranches.induct with
  | case1 => exact pure
  | case2 => exact throw
  | case3 condition body rest ih =>
    refine (evalCondition_oblivious hself hne).bind fun c => ?_
    rcases c with _ | _ | _
    · exact pure
    · exact ih
    · exact hself.exec body hne

theorem continues_oblivious : Exec.Oblivious n (continues self node scope) :=
  ite pure (evalCondition_oblivious hself hne)

theorem execBody_oblivious : Exec.Oblivious n (execBody self node scope) := by
  refine (hself.exec node hne).bind fun _ => flow.bind fun fl => ?_
  split
  · exact pure
  · exact setKind.bind fun _ => pure
  · exact setKind.bind fun _ => pure
  · exact pure

theorem iterate_oblivious {condition body : Node} {step : Option Node} (fuel : Nat) :
    Exec.Oblivious n (iterate self condition body step scope fuel) := by
  induction fuel with
  | zero => exact throw
  | succ k ih =>
    refine (continues_oblivious hself hne).bind fun c => ite ?_ pure
    refine (execBody_oblivious hself hne).bind fun more => ite ?_ pure
    cases step with
    | none => exact ih
    | some node => exact (hself.exec node hne).bind fun _ => .bind isNext_oblivious fun _ => ite ih pure

theorem execLoop_oblivious (fuel : Nat) : Exec.Oblivious n (execLoop self fuel node scope) := by
  unfold execLoop
  split
  swap
  · exact throw
  refine withScope hne fun s hs => ofExcept.bind fun ⟨start, condition, step⟩ => ?_
  cases start with
  | none => exact iterate_oblivious hself hs fuel
  | some start =>
    exact (hself.exec start hs).bind fun _ => .bind isNext_oblivious fun _ =>
      ite (iterate_oblivious hself hs fuel) pure

theorem execLeave_oblivious {kind : FlowKind} :
    Exec.Oblivious n (execLeave self node kind scope) := by
  unfold execLeave
  split
  · exact setKind
  · refine (hself.eval _ hne).bind fun value => ?_
    cases value with
    | none => exact pure
    | some id => exact setResult.bind fun _ => setKind

theorem execJump_oblivious : Exec.Oblivious n (execJump self node scope) := by
  unfold execJump
  split
  · split
    · exact setKind
    · exact throw
  · exact execLeave_oblivious hself hne
  · exact execLeave_oblivious hself hne
  · exact setKind
  · exact setKind
  · exact throw

theorem execBare_oblivious : Exec.Oblivious n (execBare self node scope) := by
  refine (hself.eval node hne).bind fun value => ?_
  cases value with
  | some id => exact located release
  | none => exact pure

theorem execNode_oblivious (fuel : Nat) : Exec.Oblivious n (execNode self fuel node scope) := by
  unfold execNode
  split
  · exact located (execStatement_oblivious hself hne fuel)
  · exact located (declareAll_oblivious hself hne _)
  · exact located (ofExcept.bind fun _ => onStore (.addFunction hne))
  · exact located (execBranches_oblivious hself hne _)
  · exact located (execLoop_oblivious hself hne fuel)
  · exact pure
  · exact located (execJump_oblivious hself hne)
  · exact located (execProgram_oblivious hself hne fuel)
  · exact execBare_oblivious hself hne
  · exact execBare_oblivious hself hne

end Statements

end Interpreter

namespace Library

open Exec.Oblivious

theorem finish_oblivious {result : Option VarId} : Exec.Oblivious n (finish result) :=
  setKind.bind fun _ => setResults

theorem finishWith_oblivious {p : Payload} : Exec.Oblivious n (finishWith p) :=
  onHeap.bind fun _ => finish_oblivious

variable (hne : scope ≠ n)
include hne

theorem argument_oblivious : Exec.Oblivious n (argument scope name) := by
  refine (lookup hne).bind fun sc => ?_
  split
  · exact pure
  · exact throw

theorem print_oblivious : Exec.Oblivious n (print scope) := by
  refine (lookup hne).bind fun sc => ?_
  refine (mapM (fun _ => readHeap) _).bind fun values => ?_
  exact emit.bind fun _ => finish_oblivious

theorem extArgCount_oblivious : Exec.Oblivious n (extArgCount scope) := by
  refine callingScope_bind hne fun outer houter => ?_
  cases outer with
  | none => exact pure.bind fun _ => finishWith_oblivious
  | some s => exact (lookup (houter s rfl)).bind fun _ => pure.bind fun _ => finishWith_oblivious

theorem extArg_oblivious : Exec.Oblivious n (extArg scope) := by
  refine (argument_oblivious hne).bind fun x => readHeap.bind fun number => ?_
  split
  · exact throw
  refine callingScope_bind hne fun outer houter => ?_
  cases outer with
  | none => exact throw
  | some s =>
    refine (lookup (houter s rfl)).bind fun sc => ?_
    split
    · exact finish_oblivious
    · exact throw

theorem call_oblivious (hself : self.Oblivious n) : Exec.Oblivious n (call self scope) := by
  refine (argument_oblivious hne).bind fun x => readHeap.bind fun name => ?_
  refine get_bind (fun r ha => by rw [Run.findFunction_veil ha hne]) fun r => ?_
  split
  · exact throw
  · refine (lookup hne).bind fun sc => (withFreshFlow (hself.call _ _ hne)).bind fun ended => ?_
    exact ite (setResults.bind fun _ => setKind) finish_oblivious

theorem callDepth_oblivious : Exec.Oblivious n (callDepth scope) :=
  get_bind (fun r ha => by
    have hstack : (r.veil n).machine.store.scopes.callStack scope =
        r.machine.store.scopes.callStack scope := Store.callStack_veil ha hne
    rw [hstack]) fun _ => finishWith_oblivious

theorem imageSide_oblivious : Exec.Oblivious n (imageSide scope name) := by
  refine (argument_oblivious hne).bind fun x => readHeap.bind fun number => ?_
  split
  · exact ite throw pure
  · exact throw

theorem image_oblivious : Exec.Oblivious n (image scope) :=
  (imageSide_oblivious hne).bind fun _ => (imageSide_oblivious hne).bind fun _ =>
    ite (throw.bind fun _ => finishWith_oblivious) finishWith_oblivious

theorem run_oblivious (hself : self.Oblivious n) (native : Native) :
    Exec.Oblivious n (run self scope native) := by
  cases native with
  | print => exact print_oblivious hne
  | len => exact (argument_oblivious hne).bind fun _ => readHeap.bind fun _ => finishWith_oblivious
  | typeOf => exact (argument_oblivious hne).bind fun _ => readHeap.bind fun _ => finishWith_oblivious
  | extArgCount => exact extArgCount_oblivious hne
  | extArg => exact extArg_oblivious hne
  | call => exact call_oblivious hne hself
  | callDepth => exact callDepth_oblivious hne
  | image => exact image_oblivious hne
  | math f =>
    exact (argument_oblivious hne).bind fun _ => readHeap.bind fun _ => ofExcept.bind fun _ =>
      finishWith_oblivious
  | signal kind => exact setKind

end Library

namespace Interpreter

open Exec.Oblivious

variable {params : List String} {args : Arguments} {f : Function}

section Calls

variable (hself : self.Oblivious n) (hcaller : caller ≠ n) (hne : scope ≠ n)
include hself hcaller hne

theorem bindNodes_oblivious (i : Nat) (nodes : List Node) :
    Exec.Oblivious n (bindNodes self params caller scope i nodes) := by
  induction nodes generalizing i with
  | nil => exact pure
  | cons node rest ih =>
    refine (hself.eval node hcaller).bind fun value => ?_
    cases value with
    | none => exact pure
    | some value => exact own.bind fun _ => (declare hne).bind fun _ => ih (i + 1)

theorem bindArguments_oblivious : Exec.Oblivious n (bindArguments self params args caller scope) := by
  have hmissing (names : List String) : Exec.Oblivious n (bindMissing scope names) :=
    Exec.Oblivious.forM (fun _ => onHeap.bind fun _ => declare hne) names
  have hvalues (i : Nat) (ids : List VarId) : Exec.Oblivious n (bindValues params scope i ids) := by
    induction ids generalizing i with
    | nil => exact pure
    | cons value rest ih => exact onHeap.bind fun _ => (declare hne).bind fun _ => ih (i + 1)
  cases args with
  | nodes nodes =>
    refine (bindNodes_oblivious hself hcaller hne 0 nodes).bind fun bound => ?_
    exact ite ((hmissing _).bind fun _ => pure) pure
  | values ids => exact (hvalues 0 ids).bind fun _ => (hmissing _).bind fun _ => pure

theorem invoke_oblivious (fuel : Nat) : Exec.Oblivious n (invoke self fuel f args caller scope) := by
  refine (bindArguments_oblivious hself hcaller hne).bind fun bound => ite ?_ pure
  cases f.body with
  | native native => exact (Library.run_oblivious hne hself native).bind fun _ => leaveBody
  | script block => exact (runList_oblivious hself hne fuel block.children).bind fun _ => leaveBody

end Calls

theorem callFunction_oblivious (hself : self.Oblivious n) (fuel : Nat) (hcaller : caller ≠ n) :
    Exec.Oblivious n (callFunction self fuel f args caller) := by
  have hdepth (g : Nat → Nat) :
      Exec.Oblivious n (modifyMachine fun m => { m with depth := g m.depth }) :=
    edits (fun _ => rfl) fun _ _ => rfl
  have hbody : Exec.Oblivious n (do
      let scope ← Exec.onStore do
        let scope ← Store.createChild caller f.name
        Store.setBelongsTo scope f
        return scope
      modifyMachine fun m => { m with depth := m.depth + 1 }
      let ended ← Exec.attempt (invoke self fuel f args caller scope)
      modifyMachine fun m => { m with depth := m.depth - 1 }
      Exec.leaveScope scope ended) :=
    open_bind (.openCall hcaller) fun s hs => (hdepth (· + 1)).bind fun _ =>
      (invoke_oblivious hself hcaller hs fuel).attempt.bind fun _ => (hdepth (· - 1)).bind fun _ =>
        leaveScope hs
  exact get_bind (fun _ _ => rfl) fun r => ite (throw.bind fun _ => hbody) hbody

-- Whatever its fuel.
theorem ofFuel_oblivious (fuel : Nat) : (ofFuel fuel).Oblivious n := by
  induction fuel with
  | zero => exact ⟨fun _ _ _ => throw, fun _ _ _ => throw, fun _ _ _ _ => throw⟩
  | succ k ih =>
    exact ⟨fun _ _ => evalNode_oblivious ih, fun _ _ hs => execNode_oblivious ih hs k,
      fun _ _ _ => callFunction_oblivious ih k⟩

end Interpreter

end FinLang

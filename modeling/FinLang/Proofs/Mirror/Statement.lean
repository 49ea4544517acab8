import FinLang.Proofs.Mirror.Expression

namespace FinLang

open Exec
open Run (Twins)

variable {α β γ δ : Type} {ρ : Renaming} {m m' : Machine} {r r' : Run} {scope : ScopeId}
  {self : Interpreter} {node : Node} {nodes : List Node} {i : γ → δ} {name : String}

-- A part in a scope of its own that leaves the other scopes alone.
theorem Exec.withScope_regular {part part' : ScopeId → Exec Unit}
    (hpart : ∀ n, ∃ P : Permit, P.scope = n ∧ Regular P (part n))
    (h : ∀ n, Parallel ρ m m' id (part n) (part' (ρ n))) :
    Parallel ρ m m' id (withScope scope name part) (withScope (ρ scope) name part') :=
  withScope_follows (fun n _ hf => (hpart n).imp fun _ hP => ⟨hP.1, hP.2 _ hf⟩) h

namespace Interpreter

theorem isNext_follows : Parallel ρ m m' id isNext isNext :=
  flow_follows.bind fun _ => .pure rfl

section Lists

variable {statement statement' : Node → Exec Unit}
  (hst : ∀ node, Parallel ρ m m' id (statement node) (statement' node))
include hst

theorem runStraight_follows (nodes : List Node) :
    Parallel ρ m m' id (runStraight statement nodes) (runStraight statement' nodes) := by
  induction nodes with
  | nil => exact .pure rfl
  | cons node rest ih =>
    unfold runStraight
    exact (hst node).bind fun _ => .bind isNext_follows fun _ => .ite .rfl (fun _ => ih) fun _ => .pure rfl

theorem runFrom_follows {list : List Node} (fuel : Nat) (rest : List Node) :
    Parallel ρ m m' id (runFrom statement list fuel rest) (runFrom statement' list fuel rest) := by
  induction fuel generalizing rest with
  | zero => exact outOfFuel_follows
  | succ n ih =>
    unfold runFrom
    refine (runStraight_follows hst rest).bind fun stopped => .ite .rfl (fun _ => ?_) fun _ => .pure rfl
    refine flow_follows.bind fun fl => ?_
    simp only [Flow.rename]
    split
    · split
      · exact (setKind_follows .next).bind fun _ => ih _
      · exact (setKind_follows .failed).bind fun _ => fail_follows rfl
    · exact .pure rfl

end Lists

section Constructs

variable (hself : self.Blind ρ m m')
include hself

theorem runList_follows (fuel : Nat) (list : List Node) :
    Parallel ρ m m' id (runList self fuel list scope) (runList self fuel list (ρ scope)) :=
  runFrom_follows (fun node => hself.exec node scope) fuel list

theorem discardAll_follows (nodes : List Node) :
    Parallel ρ m m' id (discardAll self scope nodes) (discardAll self (ρ scope) nodes) := by
  induction nodes with
  | nil => exact .pure rfl
  | cons node rest ih =>
    unfold discardAll
    refine (hself.eval node scope).bind fun value => ?_
    cases value with
    | some x => exact release_follows.bind fun _ => ih
    | none => exact .pure rfl

theorem execStatement_follows (fuel : Nat) :
    Parallel ρ m m' id (execStatement self fuel node scope) (execStatement self fuel node (ρ scope)) := by
  unfold execStatement
  refine .ite .rfl (fun _ => ?_) fun _ => .ite .rfl (fun _ => ?_) fun _ => ?_
  · exact withScope_regular (fun n => ⟨.of _ n, rfl, runList_regular hself.orderly fuel⟩) fun n =>
      runList_follows hself fuel node.children
  · exact discardAll_follows hself node.children
  · exact runList_follows hself fuel node.children

omit hself in
theorem leaveBody_follows : Parallel ρ m m' id leaveBody leaveBody := by
  refine flow_follows.bind fun fl => .bind (g := Flow.rename ρ) (ofExcept_follows ?_) fun fl' =>
    setFlow_follows fl'
  obtain ⟨kind, result⟩ := fl
  cases kind <;> first | rfl | exact ⟨rfl, rfl⟩

theorem execProgram_follows (fuel : Nat) :
    Parallel ρ m m' id (execProgram self fuel node scope) (execProgram self fuel node (ρ scope)) :=
  withScope_regular
    (fun n => ⟨.of _ n, rfl, (runList_regular hself.orderly fuel).bind fun _ => .leaveBody⟩)
    fun _ => (runList_follows hself fuel node.children).bind fun _ => leaveBody_follows

theorem declareAll_follows (nodes : List Node) :
    Parallel ρ m m' id (declareAll self scope nodes) (declareAll self (ρ scope) nodes) := by
  induction nodes with
  | nil => exact .pure rfl
  | cons node rest ih =>
    unfold declareAll
    refine .bind (g := id) (ofExcept_follows (.refl (declarator node))) fun p => ?_
    rcases p with ⟨name, _ | e⟩
    · exact null_declare_follows ih
    · refine (hself.eval e scope).bind fun value => ?_
      cases value with
      | none => exact .pure rfl
      | some x => exact own_declare_follows ih

omit hself in
theorem defineFunction_follows :
    Parallel ρ m m' id (defineFunction node scope) (defineFunction node (ρ scope)) :=
  .bind (g := id) (ofExcept_follows (.refl (definition node))) fun _ => addFunction_follows

theorem evalCondition_follows :
    Parallel ρ m m' id (evalCondition self node scope) (evalCondition self node (ρ scope)) := by
  refine (hself.eval node scope).bind fun value => ?_
  cases value with
  | none => exact .pure rfl
  | some x =>
    refine get_bind_follows fun {r r'} hr => ?_
    have htruth : Parallel ρ m m' id (ofExcept (r.heap.toBool x)) (ofExcept (r'.heap.toBool (ρ x))) :=
      ofExcept_follows hr.store.heap.toBool
    refine Follows.bind release_follows (fun _ => ?_) r r' hr
    exact htruth.bind fun _ => .pure rfl

theorem execBranches_follows (nodes : List Node) :
    Parallel ρ m m' id (execBranches self scope nodes) (execBranches self (ρ scope) nodes) := by
  induction nodes using execBranches.induct with
  | case1 => exact .pure rfl
  | case2 => exact fail_follows rfl
  | case3 condition body rest ih =>
    unfold execBranches
    refine (evalCondition_follows hself).bind fun c => ?_
    rcases c with _ | _ | _
    · exact .pure rfl
    · exact ih
    · exact hself.exec body scope

theorem continues_follows :
    Parallel ρ m m' id (continues self node scope) (continues self node (ρ scope)) :=
  .ite .rfl (fun _ => .pure rfl) fun _ => evalCondition_follows hself

theorem execBody_follows :
    Parallel ρ m m' id (execBody self node scope) (execBody self node (ρ scope)) := by
  refine (hself.exec node scope).bind fun _ => flow_follows.bind fun fl => ?_
  simp only [Flow.rename]
  split
  · exact .pure rfl
  · exact (setKind_follows .next).bind fun _ => .pure rfl
  · exact (setKind_follows .next).bind fun _ => .pure rfl
  · exact .pure rfl

theorem iterate_follows {condition body : Node} {step : Option Node} (fuel : Nat) :
    Parallel ρ m m' id (iterate self condition body step scope fuel)
      (iterate self condition body step (ρ scope) fuel) := by
  induction fuel with
  | zero => exact outOfFuel_follows
  | succ n ih =>
    unfold iterate
    refine (continues_follows hself).bind fun c => .ite .rfl (fun _ => ?_) fun _ => .pure rfl
    refine (execBody_follows hself).bind fun more => .ite .rfl (fun _ => ?_) fun _ => .pure rfl
    cases step with
    | none => exact ih
    | some node =>
      exact (hself.exec node scope).bind fun _ => .bind isNext_follows fun _ =>
        .ite .rfl (fun _ => ih) fun _ => .pure rfl

theorem execLoop_follows (fuel : Nat) :
    Parallel ρ m m' id (execLoop self fuel node scope) (execLoop self fuel node (ρ scope)) := by
  unfold execLoop
  split
  swap
  · exact fail_follows rfl
  refine withScope_regular (fun n => ⟨.of _ n, rfl, loop_regular hself.orderly fuel⟩) fun n => ?_
  refine .bind (g := id) (ofExcept_follows (.refl _)) fun parts => ?_
  obtain ⟨start, condition, step⟩ := parts
  cases start with
  | none => exact iterate_follows hself fuel
  | some start =>
    exact (hself.exec start n).bind fun _ => .bind isNext_follows fun _ =>
      .ite .rfl (fun _ => iterate_follows hself fuel) fun _ => .pure rfl

theorem execLeave_follows {kind : FlowKind} :
    Parallel ρ m m' id (execLeave self node kind scope) (execLeave self node kind (ρ scope)) := by
  unfold execLeave
  split
  · exact setKind_follows kind
  · refine (hself.eval _ scope).bind fun value => ?_
    cases value with
    | none => exact .pure rfl
    | some x => exact setResult_follows.bind fun _ => setKind_follows kind

theorem execJump_follows :
    Parallel ρ m m' id (execJump self node scope) (execJump self node (ρ scope)) := by
  unfold execJump
  split
  · split
    · exact setKind_follows _
    · exact fail_follows rfl
  · exact execLeave_follows hself
  · exact execLeave_follows hself
  · exact setKind_follows .breaking
  · exact setKind_follows .continuing
  · exact fail_follows rfl

theorem execBare_follows :
    Parallel ρ m m' id (execBare self node scope) (execBare self node (ρ scope)) := by
  refine (hself.eval node scope).bind fun value => ?_
  cases value with
  | some x => exact located_follows release_follows
  | none => exact .pure rfl

theorem execNode_follows (fuel : Nat) :
    Parallel ρ m m' id (execNode self fuel node scope) (execNode self fuel node (ρ scope)) := by
  unfold execNode
  split
  · exact located_follows (execStatement_follows hself fuel)
  · exact located_follows (declareAll_follows hself _)
  · exact located_follows defineFunction_follows
  · exact located_follows (execBranches_follows hself _)
  · exact located_follows (execLoop_follows hself fuel)
  · exact .pure rfl
  · exact located_follows (execJump_follows hself)
  · exact located_follows (execProgram_follows hself fuel)
  · exact execBare_follows hself
  · exact execBare_follows hself

end Constructs

end Interpreter

end FinLang

import FinLang.Machine.Run
import FinLang.Proofs.Machine.State
import FinLang.Proofs.Machine.Watch

namespace FinLang

-- A part that comes to the same as another one, unless it is out of fuel.
def Below {α : Type} (x y : Exec α) : Prop :=
  ∀ r : Run, (∃ r', x.run.run r = (.error .outOfFuel, r')) ∨ x.run.run r = y.run.run r

structure Interpreter.Below (i j : Interpreter) : Prop where
  eval : ∀ node scope, FinLang.Below (i.eval node scope) (j.eval node scope)
  exec : ∀ node scope, FinLang.Below (i.exec node scope) (j.exec node scope)
  call : ∀ f args caller, FinLang.Below (i.call f args caller) (j.call f args caller)

variable {α β : Type} {x y z : Exec α} {r r' : Run} {i j : Interpreter} {n scope : ScopeId}
  {node : Node} {nodes list : List Node} {fuel fuel' : Nat}

namespace Below

theorem refl (x : Exec α) : Below x x :=
  fun _ => .inr rfl

theorem outOfFuel : Below Exec.outOfFuel y :=
  fun r => .inl ⟨r, rfl⟩

theorem trans (h : Below x y) (h' : Below y z) : Below x z := by
  intro r
  rcases h r with hx | hx
  · exact .inl hx
  · rw [hx]
    exact h' r

theorem bind {f g : α → Exec β} (hx : Below x y) (hf : ∀ a, Below (f a) (g a)) :
    Below (x >>= f) (y >>= g) := by
  intro r
  rcases hx r with ⟨r', hx⟩ | hx
  · exact .inl ⟨r', run_bind_of_error hx⟩
  rcases hrun : y.run.run r with ⟨e | a, r'⟩ <;> rw [hrun] at hx
  · exact .inr ((run_bind_of_error hx).trans (run_bind_of_error hrun).symm)
  · rw [run_bind_of_ok hx, run_bind_of_ok hrun]
    exact hf a r'

theorem same_bind {f g : α → Exec β} (hf : ∀ a, Below (f a) (g a)) : Below (x >>= f) (x >>= g) :=
  (refl x).bind hf

theorem attempt (hx : Below x y) : Below (Exec.attempt x) (Exec.attempt y) := by
  intro r
  simp only [Exec.attempt, tryCatch, tryCatchThe, MonadExceptOf.tryCatch, ExceptT.tryCatch,
    ExceptT.mk, ExceptT.run, StateT.run, Bind.bind, ExceptT.bind, StateT.bind]
  rcases hx r with ⟨r', hx⟩ | hx
  · have hx : x r = (.error .outOfFuel, r') := hx
    rw [hx]
    exact .inl ⟨r', rfl⟩
  · have hx : x r = y r := hx
    rw [hx]
    exact .inr rfl

theorem located {s : Option Span} (hx : Below x y) : Below (Exec.located s x) (Exec.located s y) := by
  intro r
  rw [Exec.run_located, Exec.run_located]
  rcases hx r with ⟨r', hx⟩ | hx
  · exact .inl ⟨r', by rw [hx]; rfl⟩
  · exact .inr (by rw [hx])

theorem onFailure {cleanup : Exec Unit} (hx : Below x y) :
    Below (Exec.onFailure x cleanup) (Exec.onFailure y cleanup) :=
  hx.attempt.bind fun _ => refl _

theorem withFreshFlow {x y : Exec Unit} (hx : Below x y) :
    Below (Exec.withFreshFlow x) (Exec.withFreshFlow y) :=
  same_bind fun _ => same_bind fun _ => hx.attempt.bind fun _ => refl _

theorem withScope {name : String} {f g : ScopeId → Exec Unit} (hf : ∀ n, Below (f n) (g n)) :
    Below (Exec.withScope scope name f) (Exec.withScope scope name g) :=
  same_bind fun n => (hf n).attempt.bind fun _ => refl _

theorem watch {ok : Point → Run → Bool} {p : Point} (hx : Below x y) :
    Below (Exec.watch ok p x) y := by
  have hpass : ∀ {k l : Exec α}, Below k l → Below (Exec.pass ok p >>= fun _ => k) l := by
    intro k l hk r
    by_cases hok : ok p r = true
    · have hrun : (Exec.pass ok p).run.run r = (.ok (), r) := by
        have h : Ensures (Exec.pass ok p) r (fun _ r' => r' = r) fun _ _ => False := by
          rw [Exec.pass, Ensures.bind_iff, Ensures.get_iff, if_pos hok]
          exact Ensures.pure_iff.mpr rfl
        obtain ⟨_, _, h, rfl⟩ := h.exists_run
        exact h
      rw [run_bind_of_ok hrun]
      exact hk r
    · have hrun : ∃ r', (Exec.pass ok p).run.run r = (.error .outOfFuel, r') := by
        have h : Ensures (Exec.pass ok p) r (fun _ _ => False) fun e _ => e = .outOfFuel := by
          rw [Exec.pass, Ensures.bind_iff, Ensures.get_iff, if_neg hok]
          exact rfl
        rcases hrun : (Exec.pass ok p).run.run r with ⟨e | _, r'⟩
        · exact ⟨r', by rw [h.of_error hrun]⟩
        · exact (h.of_ok hrun).elim
      obtain ⟨r', hrun⟩ := hrun
      exact .inl ⟨r', run_bind_of_error hrun⟩
  have hback := hpass (hx.attempt.bind fun ended => hpass (refl (Exec.ofExcept ended)))
  rwa [Exec.attempt_bind_ofExcept] at hback

-- What has come to an end is the same.
theorem of_ok {a : α} (h : Below x y) (hx : x.run.run r = (.ok a, r')) : y.run.run r = (.ok a, r') := by
  rcases h r with ⟨_, ho⟩ | ho
  · cases hx.symm.trans ho
  · exact ho.symm.trans hx

end Below

namespace Interpreter

open Exec

section Expressions

variable (h : i.Below j)
include h

theorem evalItems_below {last : Option VarId} :
    FinLang.Below (evalItems i scope last nodes) (evalItems j scope last nodes) := by
  induction nodes generalizing last with
  | nil => exact .refl _
  | cons item rest ih =>
    unfold evalItems
    refine (h.eval item scope).onFailure.bind fun value => ?_
    dsimp only
    split
    · refine .same_bind fun _ => ?_
      cases value with
      | some id => exact ih
      | none => exact .refl _
    · cases value with
      | some id => exact ih
      | none => exact .refl _

theorem pushItems_below {array : VarId} :
    FinLang.Below (pushItems i scope array nodes) (pushItems j scope array nodes) := by
  induction nodes with
  | nil => exact .refl _
  | cons item rest ih =>
    unfold pushItems
    refine (h.eval item scope).onFailure.bind fun value => ?_
    cases value with
    | some id => exact .same_bind fun _ => .same_bind fun _ => ih
    | none => exact .refl _

theorem evalOperands_below {operands : List VarId} :
    FinLang.Below (evalOperands i scope operands nodes) (evalOperands j scope operands nodes) := by
  induction nodes generalizing operands with
  | nil => exact .refl _
  | cons node rest ih =>
    unfold evalOperands
    refine (h.eval node scope).onFailure.bind fun value => ?_
    cases value with
    | some id => exact .same_bind fun _ => .same_bind fun _ => ih
    | none => exact .refl _

theorem evalCall_below : FinLang.Below (evalCall i node scope) (evalCall j node scope) := by
  unfold evalCall
  split
  swap
  · exact .refl _
  split
  · exact .refl _
  refine .same_bind fun r => ?_
  split
  · exact .refl _
  · exact (h.call _ _ scope).withFreshFlow.bind fun _ => .refl _

theorem evalNode_below : FinLang.Below (evalNode i node scope) (evalNode j node scope) := by
  unfold evalNode
  split
  · exact .refl _
  · unfold evalExpression
    split
    · exact .refl _
    split
    · exact .refl _
    refine .located ?_
    split
    · exact evalItems_below h
    · exact .same_bind fun _ => pushItems_below h
    · exact evalCall_below h
    · exact (evalOperands_below h).bind fun _ => .refl _
  · exact .refl _

end Expressions

section Statements

theorem runStraight_below {s s' : Node → Exec Unit} (hs : ∀ node, FinLang.Below (s node) (s' node)) :
    FinLang.Below (runStraight s nodes) (runStraight s' nodes) := by
  induction nodes with
  | nil => exact .refl _
  | cons node rest ih =>
    unfold runStraight
    refine (hs node).bind fun _ => .same_bind fun next => ?_
    split
    · exact ih
    · exact .refl _

theorem runFrom_below {s s' : Node → Exec Unit} (hs : ∀ node, FinLang.Below (s node) (s' node))
    (hle : fuel ≤ fuel') :
    FinLang.Below (runFrom s list fuel nodes) (runFrom s' list fuel' nodes) := by
  induction fuel generalizing fuel' nodes with
  | zero => exact .outOfFuel
  | succ fuel ih =>
    obtain ⟨k, rfl⟩ := Nat.exists_eq_add_of_le hle
    rw [show fuel + 1 + k = (fuel + k) + 1 by omega]
    unfold runFrom
    refine (runStraight_below hs).bind fun left => ?_
    split
    · refine .same_bind fun fl => ?_
      split
      · split
        · exact .same_bind fun _ => ih (Nat.le_add_right ..)
        · exact .refl _
      · exact .refl _
    · exact .refl _

variable (h : i.Below j) (hle : fuel ≤ fuel')
include h

theorem discardAll_below : FinLang.Below (discardAll i scope nodes) (discardAll j scope nodes) := by
  induction nodes with
  | nil => exact .refl _
  | cons node rest ih =>
    unfold discardAll
    refine (h.eval node scope).bind fun value => ?_
    cases value with
    | some id => exact .same_bind fun _ => ih
    | none => exact .refl _

theorem declareAll_below : FinLang.Below (declareAll i scope nodes) (declareAll j scope nodes) := by
  induction nodes with
  | nil => exact .refl _
  | cons node rest ih =>
    unfold declareAll
    refine .same_bind fun ⟨name, init⟩ => ?_
    cases init with
    | none => exact .same_bind fun _ => .same_bind fun _ => ih
    | some e =>
      refine (h.eval e scope).bind fun value => ?_
      cases value with
      | some id => exact .same_bind fun _ => .same_bind fun _ => ih
      | none => exact .refl _

theorem evalCondition_below :
    FinLang.Below (evalCondition i node scope) (evalCondition j node scope) :=
  (h.eval node scope).bind fun _ => .refl _

theorem execBranches_below :
    FinLang.Below (execBranches i scope nodes) (execBranches j scope nodes) := by
  induction nodes using execBranches.induct with
  | case1 => exact .refl _
  | case2 => exact .refl _
  | case3 condition body rest ih =>
    unfold execBranches
    refine (evalCondition_below h).bind fun truth => ?_
    rcases truth with _ | _ | _
    · exact .refl _
    · exact ih
    · exact h.exec body scope

include hle

theorem iterate_below {condition body : Node} {step : Option Node} :
    FinLang.Below (iterate i condition body step scope fuel)
      (iterate j condition body step scope fuel') := by
  induction fuel generalizing fuel' with
  | zero => exact .outOfFuel
  | succ fuel ih =>
    obtain ⟨k, rfl⟩ := Nat.exists_eq_add_of_le hle
    rw [show fuel + 1 + k = (fuel + k) + 1 by omega]
    have hnext := ih (Nat.le_add_right fuel k)
    have hcontinues : FinLang.Below (continues i condition scope) (continues j condition scope) := by
      unfold continues
      split
      · exact .refl _
      · exact evalCondition_below h
    unfold iterate
    refine hcontinues.bind fun truth => ?_
    split
    · refine ((h.exec body scope).bind fun _ => .refl _).bind fun again => ?_
      split
      · cases step with
        | none => exact hnext
        | some node =>
          refine (h.exec node scope).bind fun _ => .same_bind fun next => ?_
          split
          · exact hnext
          · exact .refl _
      · exact .refl _
    · exact .refl _

theorem runList_below :
    FinLang.Below (runList i fuel nodes scope) (runList j fuel' nodes scope) :=
  runFrom_below (fun node => h.exec node scope) hle

theorem execLoop_below : FinLang.Below (execLoop i fuel node scope) (execLoop j fuel' node scope) := by
  unfold execLoop
  split
  · refine .withScope fun n => .same_bind fun parts => ?_
    split
    · exact iterate_below h hle
    · refine (h.exec _ n).bind fun _ => .same_bind fun next => ?_
      split
      · exact iterate_below h hle
      · exact .refl _
  · exact .refl _

theorem execNode_below : FinLang.Below (execNode i fuel node scope) (execNode j fuel' node scope) := by
  have hleave : ∀ kind, FinLang.Below (execLeave i node kind scope) (execLeave j node kind scope) := by
    intro kind
    unfold execLeave
    split
    · exact .refl _
    · exact (h.eval _ scope).bind fun _ => .refl _
  have hbare : FinLang.Below (execBare i node scope) (execBare j node scope) :=
    (h.eval node scope).bind fun _ => .refl _
  unfold execNode
  split
  · refine .located ?_
    unfold execStatement
    split
    · exact .withScope fun n => runList_below h hle
    split
    · exact discardAll_below h
    · exact runList_below h hle
  · exact (declareAll_below h).located
  · exact .refl _
  · exact (execBranches_below h).located
  · exact (execLoop_below h hle).located
  · exact .refl _
  · refine .located ?_
    unfold execJump
    split
    · exact .refl _
    · exact hleave _
    · exact hleave _
    · exact .refl _
    · exact .refl _
    · exact .refl _
  · exact (Below.withScope fun n => (runList_below h hle).bind fun _ => .refl _).located
  · exact hbare
  · exact hbare

end Statements

section Calls

variable {f : Function} {args : Arguments} {caller : ScopeId} {params : List String} {k : Nat}

theorem enterCall_below {x y : ScopeId → Exec Unit} (hbody : ∀ n, FinLang.Below (x n) (y n)) :
    FinLang.Below (enterCall f caller x) (enterCall f caller y) := by
  unfold enterCall
  refine .same_bind fun r => ?_
  dsimp only
  split
  · exact .same_bind fun _ => .same_bind fun n => .same_bind fun _ =>
      (hbody n).attempt.bind fun _ => .refl _
  · exact .same_bind fun n => .same_bind fun _ => (hbody n).attempt.bind fun _ => .refl _

variable (h : i.Below j)
include h

theorem call_below : FinLang.Below (Library.call i scope) (Library.call j scope) := by
  refine .same_bind fun id => .same_bind fun name => .same_bind fun r => ?_
  split
  · exact .refl _
  · exact .same_bind fun sc => (h.call _ _ scope).withFreshFlow.bind fun _ => .refl _

theorem bindNodes_below :
    FinLang.Below (bindNodes i params caller n k nodes) (bindNodes j params caller n k nodes) := by
  induction nodes generalizing k with
  | nil => exact .refl _
  | cons node rest ih =>
    unfold bindNodes
    refine (h.eval node caller).bind fun value => ?_
    cases value with
    | some id => exact .same_bind fun _ => .same_bind fun _ => ih
    | none => exact .refl _

theorem bindArguments_below :
    FinLang.Below (bindArguments i params args caller n) (bindArguments j params args caller n) := by
  unfold bindArguments
  cases args with
  | nodes nodes => exact (bindNodes_below h).bind fun _ => .refl _
  | values ids => exact .refl _

theorem invoke_below (hle : fuel ≤ fuel') :
    FinLang.Below (invoke i fuel f args caller n) (invoke j fuel' f args caller n) := by
  unfold invoke
  refine (bindArguments_below h).bind fun bound => ?_
  split
  swap
  · exact .refl _
  dsimp only
  cases f.body with
  | script block => exact (runList_below h hle).bind fun _ => .refl _
  | native native =>
    refine Below.bind ?_ fun _ => .refl _
    cases native with
    | call => exact call_below h
    | _ => exact .refl _

end Calls

-- More fuel changes nothing where there was enough of it.
theorem ofFuel_below (hle : fuel ≤ fuel') : (ofFuel fuel).Below (ofFuel fuel') := by
  induction fuel generalizing fuel' with
  | zero => exact ⟨fun _ _ => .outOfFuel, fun _ _ => .outOfFuel, fun _ _ _ => .outOfFuel⟩
  | succ fuel ih =>
    obtain ⟨k, rfl⟩ := Nat.exists_eq_add_of_le hle
    rw [show fuel + 1 + k = (fuel + k) + 1 by omega]
    have h := ih (Nat.le_add_right fuel k)
    have hle := Nat.le_add_right fuel k
    exact ⟨fun _ _ => evalNode_below h, fun _ _ => execNode_below h hle,
      fun _ _ _ => enterCall_below fun _ => invoke_below h hle⟩

-- To be looked at changes nothing either, until it stops the run.
theorem watched_below (ok : Point → Run → Bool) (fuel : Nat) :
    (watched ok fuel).Below (ofFuel fuel) := by
  induction fuel with
  | zero => exact ⟨fun _ _ => .outOfFuel, fun _ _ => .outOfFuel, fun _ _ _ => .outOfFuel⟩
  | succ fuel ih =>
    exact ⟨fun _ _ => (evalNode_below ih).watch, fun _ _ => (execNode_below ih (Nat.le_refl _)).watch,
      fun _ _ _ => (enterCall_below fun _ => (invoke_below ih (Nat.le_refl _)).watch).watch⟩

section Programs

variable {tree : Tree}

theorem runTree_below (h : i.Below j) (hle : fuel ≤ fuel') :
    FinLang.Below (runTree i fuel tree scope) (runTree j fuel' tree scope) := by
  have htop : ∀ node, FinLang.Below (topStatement i scope node) (topStatement j scope node) := by
    intro node
    unfold topStatement
    split
    · exact (h.eval _ scope).located.bind fun _ => .refl _
    · exact h.exec node scope
  unfold runTree
  split
  · exact .refl _
  split
  · exact .refl _
  split
  · exact .refl _
  · exact ((runFrom_below htop hle).bind fun _ => .refl _).attempt.bind fun _ => .refl _

end Programs

end Interpreter

end FinLang

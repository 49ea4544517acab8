import FinLang.Proofs.Machine.Upkeep

namespace FinLang

open Heap (Keeps Step)

-- A part that may be executed anywhere. It leaves the scopes as they are, the
-- permitted bindings apart.
def Regular {α : Type} (P : Permit) (part : Exec α) : Prop :=
  ∀ r : Run, r.Fine → Ensures part r (fun _ r' => Moves P r r') (Halted (Moves P) r)

-- A part that does so as long as a value is at hand that was not hidden.
def Uses {α : Type} (P : Permit) (x : VarId) (part : Exec α) : Prop :=
  ∀ r₀ r : Run, r₀.Fine → Quiet r₀ r → r₀.Apart x →
    Ensures part r (fun _ r' => Moves P r₀ r') (Halted (Moves P) r₀)

variable {α β : Type} {P : Permit} {ok : Point → Run → Bool} {n scope : ScopeId} {r r₀ r' : Run}
  {x : VarId} {name : String} {self : Interpreter} {node : Node}

namespace Regular

theorem of_calm {part : Exec α}
    (h : ∀ r, r.Fine → Ensures part r (fun _ r' => Calm r r') (Halted Calm r)) : Regular P part :=
  fun r hf => (h r hf).mono (fun _ _ hc => hc.moves) fun _ _ he => he.mono fun _ hc => hc.moves

theorem later {part : Exec α} (hp : Regular P part) (hf : r₀.Fine) (hm : Moves P r₀ r) :
    Ensures part r (fun _ r' => Moves P r₀ r') (Halted (Moves P) r₀) :=
  (hp r hm.fine).mono (fun _ _ h => hm.trans hf h) fun _ _ he =>
    he.later (hm.follows hf) fun _ => hm.trans hf

theorem bind {part : Exec α} {k : α → Exec β} (hp : Regular P part) (hk : ∀ a, Regular P (k a)) :
    Regular P (part >>= k) :=
  fun r hf => (hp r hf).bind fun a _ hm => (hk a).later hf hm

theorem pure {a : α} : Regular P (Pure.pure a : Exec α) :=
  fun _ hf => .refl hf

theorem fail {c : Cause} : Regular P (Exec.fail c : Exec α) :=
  fun _ hf => Moves.refl hf

theorem outOfFuel : Regular P (Exec.outOfFuel : Exec α) :=
  fun _ hf => .refl hf

theorem ofExcept {v : Except Failure α} : Regular P (Exec.ofExcept v) := by
  cases v with
  | ok a => exact pure
  | error f => exact fun _ hf => Moves.refl hf

-- What a look at a node has led to.
theorem failed {f : Failure} {k : α → Exec β} :
    Regular P (Exec.ofExcept (.error f) >>= k) :=
  fun _ hf => Moves.refl hf

theorem known {a : α} {k : α → Exec β} (h : Regular P (k a)) :
    Regular P (Exec.ofExcept (.ok a) >>= k) :=
  fun r hf => Ensures.bind_iff.mpr ((Exec.ofExcept_ok rfl).mpr (h r hf))

-- What only looks at the machine.
theorem get : Regular P (MonadState.get : Exec Run) :=
  fun _ hf => .refl hf

theorem flow : Regular P Exec.flow :=
  fun _ hf => .refl hf

theorem isNext : Regular P Interpreter.isNext :=
  .bind flow fun _ => pure

theorem readHeap {f : Heap → Except Failure α} : Regular P (Exec.readHeap f) :=
  .bind get fun _ => ofExcept

theorem readScopes {f : Scopes → Except Failure α} : Regular P (Exec.readScopes f) :=
  .bind get fun _ => ofExcept

theorem setKind {k : FlowKind} : Regular P (Exec.setKind k) :=
  fun _ hf => ((Calm.refl hf).withKind hf).moves

theorem leaveBody : Regular P Exec.leaveBody := by
  intro r hf
  rw [Exec.leaveBody, Ensures.bind_iff, Exec.flow_iff, Ensures.bind_iff]
  rcases hleave : r.flow.leaveBody with f | fl
  · exact (Exec.ofExcept_error rfl).mpr (Moves.refl hf)
  · refine (Exec.ofExcept_ok rfl).mpr (Calm.moves (.of_flow hf fun K _ hc => ?_))
    have hres : fl.result = r.flow.result := by
      unfold Flow.leaveBody at hleave
      split at hleave <;> cases hleave <;> rfl
    rw [hres]
    exact hc

theorem located {s : Option Span} {part : Exec α} (hp : Regular P part) :
    Regular P (Exec.located s part) :=
  fun r hf => Exec.located_halted (hp r hf)

theorem null_declare_bind {k : Exec β} (hP : P.scope = scope) (hname : P.name name)
    (hk : Regular P k) :
    Regular P (do
      let id ← Exec.onHeap Heap.allocNull
      Exec.onStore (Store.declare scope name id)
      k) := by
  rw [← bind_assoc]
  exact Regular.bind (fun _ hf => Exec.null_declare_moves hf hP hname) fun _ => hk

theorem eval_bind {k : Option VarId → Exec β} (hself : self.Orderly ok) (hnone : Regular P (k none))
    (hsome : ∀ x, Uses P x (k (some x))) : Regular P (self.eval node scope >>= k) := by
  intro r hf
  rw [Ensures.bind_iff]
  refine (hself.eval hf).mono ?_ fun _ _ he => he.mono fun _ hc => hc.moves
  rintro (_ | x) r₁ hv
  · exact hnone.later hf (Calm.moves hv)
  · exact hsome x r r₁ hf hv.1 hv.2

theorem withScope {part : ScopeId → Exec Unit}
    (hpart : ∀ n, ∃ P : Permit, P.scope = n ∧ Regular P (part n)) :
    Regular P (Exec.withScope scope name part) :=
  .of_calm fun _ hf => Exec.withScope_calm hf fun n _ hf₁ =>
    (hpart n).imp fun _ h => ⟨h.1, h.2 _ hf₁⟩

end Regular

namespace Uses

theorem bind {part : Exec α} {k : α → Exec β} (hp : Uses P x part) (hk : ∀ a, Regular P (k a)) :
    Uses P x (part >>= k) :=
  fun r₀ r hf hq hx => (hp r₀ r hf hq hx).bind fun a _ hm => (hk a).later hf hm

theorem release : Uses P x (Exec.release x) := by
  intro r₀ r hf hq hx
  exact (Exec.release_still hq.fine).mono (fun _ _ hs => (hq.use hf hx hs.1).moves) fun _ _ he => he

theorem setResult : Uses P x (Exec.setResult x) :=
  fun _ _ hf hq hx => (Exec.setResult_calm hf hq.calm fun K hk _ => hx K hk).mono
    (fun _ _ hc => hc.moves) fun _ _ he => he

theorem located {s : Option Span} {part : Exec α} (hp : Uses P x part) :
    Uses P x (Exec.located s part) :=
  fun r₀ r hf hq hx => Exec.located_iff.mpr
    ((hp r₀ r hf hq hx).mono (fun _ _ h => h) fun _ _ he => he.locate)

theorem get_bind {k : Run → Exec β} (hk : ∀ s, Uses P x (k s)) :
    Uses P x (MonadState.get >>= k) :=
  fun r₀ r hf hq hx => Ensures.bind_iff.mpr (Ensures.get_iff.mpr (hk r r₀ r hf hq hx))

-- A value that gets a name.
theorem declare_bind {k : Exec β} (hP : P.scope = scope) (hname : P.name name) (hk : Regular P k) :
    Uses P x (do
      let id ← Exec.own x
      Exec.onStore (Store.declare scope name id)
      k) := by
  rw [← bind_assoc]
  exact Uses.bind (fun _ _ hf hq hx => Exec.own_declare_moves hf hq hP hname hx) fun _ => hk

end Uses

namespace Interpreter

open Exec

variable {list : List Node}

theorem runList_regular (hself : self.Orderly ok) (fuel : Nat) :
    Regular (.of ok scope) (runList self fuel list scope) := by
  intro r hf
  have hkind : ∀ {r' : Run} {k : FlowKind}, Moves (.of ok scope) r r' →
      Moves (.of ok scope) r { r' with flow := r'.flow.withKind k } := fun hm =>
    hm.trans hf ((Calm.refl hm.fine).withKind hm.fine).moves
  refine runFrom_ensures (R := Moves (.of ok scope) r) fuel (fun _ h => h)
    (fun _ hm => hm.follows hf) (fun node _ r₁ hm => ?_) (fun _ hm _ => hm)
    (fun _ _ hm _ => ⟨hkind hm, hkind hm⟩) (fun _ hm => hm) (.refl hf)
  exact Regular.later (fun _ hf => hself.exec hf) hf hm

theorem discardAll_regular (hself : self.Orderly ok) : Regular P (discardAll self scope list) := by
  induction list with
  | nil => exact .pure
  | cons node rest ih =>
    unfold discardAll
    exact .eval_bind hself .pure fun _ => .bind Uses.release fun _ => ih

theorem execStatement_regular (hself : self.Orderly ok) (fuel : Nat) :
    Regular (.of ok scope) (execStatement self fuel node scope) := by
  unfold execStatement
  split
  · exact .withScope fun n => ⟨.of ok n, rfl, runList_regular hself fuel⟩
  split
  · exact discardAll_regular hself
  · exact runList_regular hself fuel

theorem execProgram_regular (hself : self.Orderly ok) (fuel : Nat) :
    Regular P (execProgram self fuel node scope) :=
  .withScope fun n => ⟨.of ok n, rfl, (runList_regular hself fuel).bind fun _ => .leaveBody⟩

theorem declareAll_regular (hself : self.Orderly ok) (hP : P.scope = scope)
    (hnames : ∀ c ∈ list, ∀ name init, declarator c = .ok (name, init) → P.name name) :
    Regular P (declareAll self scope list) := by
  induction list with
  | nil => exact .pure
  | cons node rest ih =>
    have hrest := ih fun c hc => hnames c (List.mem_cons_of_mem _ hc)
    unfold declareAll
    rcases hdecl : declarator node with f | ⟨name, init⟩
    · exact .failed
    have hname := hnames node (List.mem_cons_self ..) name init hdecl
    refine .known ?_
    cases init with
    | none => exact .null_declare_bind hP hname hrest
    | some e => exact .eval_bind hself .pure fun _ => Uses.declare_bind hP hname hrest

theorem defineFunction_regular (hP : P.scope = scope)
    (hfun : ∀ f, definition node = .ok f → P.function f) :
    Regular P (defineFunction node scope) := by
  unfold defineFunction
  rcases hdef : definition node with e | f
  · exact .failed
  · exact .known fun _ hf => addFunction_moves hf hP (hfun f hdef)

theorem evalCondition_regular {k : Option Bool → Exec Unit} (hself : self.Orderly ok)
    (hk : ∀ c, Regular P (k c)) : Regular P (evalCondition self node scope >>= k) := by
  unfold evalCondition
  rw [bind_assoc]
  refine .eval_bind hself (hk none) fun x => ?_
  simp only [bind_assoc]
  exact .get_bind fun _ => .bind Uses.release fun _ => .bind Regular.ofExcept fun _ => hk _

theorem execBranches_regular (hself : self.Orderly ok) :
    Regular (.of ok scope) (execBranches self scope list) := by
  induction list using execBranches.induct with
  | case1 => exact .pure
  | case2 => exact .fail
  | case3 condition body rest ih =>
    unfold execBranches
    refine evalCondition_regular hself fun c => ?_
    rcases c with _ | _ | _
    · exact .pure
    · exact ih
    · exact fun _ hf => hself.exec hf

theorem continues_regular {k : Option Bool → Exec Unit} (hself : self.Orderly ok)
    (hk : ∀ c, Regular P (k c)) : Regular P (continues self node scope >>= k) := by
  unfold continues
  split
  · exact hk (some true)
  · exact evalCondition_regular hself hk

theorem execBody_regular (hself : self.Orderly ok) :
    Regular (.of ok scope) (execBody self node scope) := by
  refine Regular.bind (fun _ hf => hself.exec hf) fun _ => .bind Regular.flow fun fl => ?_
  split
  · exact .pure
  · exact .bind Regular.setKind fun _ => .pure
  · exact .bind Regular.setKind fun _ => .pure
  · exact .pure

theorem iterate_regular {condition body : Node} {step : Option Node} (hself : self.Orderly ok)
    (fuel : Nat) : Regular (.of ok scope) (iterate self condition body step scope fuel) := by
  induction fuel with
  | zero => exact .outOfFuel
  | succ k ih =>
    unfold iterate
    refine continues_regular hself fun c => ?_
    split
    · refine (execBody_regular hself).bind fun more => ?_
      split
      · cases step with
        | none => exact ih
        | some node =>
          refine Regular.bind (fun _ hf => hself.exec hf) fun _ => .bind Regular.isNext fun next => ?_
          split
          · exact ih
          · exact .pure
      · exact .pure
    · exact .pure

-- What a loop does in its own scope.
theorem loop_regular {head body : Node} (hself : self.Orderly ok) (fuel : Nat) :
    Regular (.of ok scope)
      (do
        let parts ← ofExcept (loopHead node.keyword? head)
        match parts.start with
        | none => iterate self parts.condition body parts.step scope fuel
        | some start =>
          self.exec start scope
          if ← isNext then
            iterate self parts.condition body parts.step scope fuel) := by
  refine .bind Regular.ofExcept fun parts => ?_
  cases parts.start with
  | none => exact iterate_regular hself fuel
  | some start =>
    refine Regular.bind (fun _ hf => hself.exec hf) fun _ => .bind Regular.isNext fun next => ?_
    split
    · exact iterate_regular hself fuel
    · exact .pure

theorem execLoop_regular (hself : self.Orderly ok) (fuel : Nat) :
    Regular P (execLoop self fuel node scope) := by
  unfold execLoop
  split
  · exact .withScope fun n => ⟨.of ok n, rfl, loop_regular hself fuel⟩
  · exact .fail

theorem execLeave_regular {kind : FlowKind} (hself : self.Orderly ok) :
    Regular P (execLeave self node kind scope) := by
  unfold execLeave
  split
  · exact .setKind
  · exact .eval_bind hself .pure fun _ => .bind Uses.setResult fun _ => .setKind

theorem execJump_regular (hself : self.Orderly ok) : Regular P (execJump self node scope) := by
  unfold execJump
  split
  · split
    · exact .setKind
    · exact .fail
  · exact execLeave_regular hself
  · exact execLeave_regular hself
  · exact .setKind
  · exact .setKind
  · exact .fail

theorem execBare_regular (hself : self.Orderly ok) : Regular P (execBare self node scope) :=
  .eval_bind hself .pure fun _ => .located Uses.release

-- A node binds what it declares or defines, if it is let through.
theorem execNode_regular (hself : self.Orderly ok) (fuel : Nat)
    (hok : ok (.exec node scope) r = true) :
    Regular (.of ok scope) (execNode self fuel node scope) := by
  unfold execNode
  split
  · exact (execStatement_regular hself fuel).located
  · rename_i hkind
    refine (declareAll_regular hself rfl fun c hc name init hdecl => ?_).located
    exact ⟨node, r, hok, hkind, c, hc, init, hdecl⟩
  · rename_i hkind
    refine (defineFunction_regular rfl fun f hdef => ?_).located
    exact ⟨node, r, hok, hkind, hdef⟩
  · exact (execBranches_regular hself).located
  · exact (execLoop_regular hself fuel).located
  · exact .pure
  · exact (execJump_regular hself).located
  · exact (execProgram_regular hself fuel).located
  · exact execBare_regular hself
  · exact execBare_regular hself

end Interpreter

end FinLang

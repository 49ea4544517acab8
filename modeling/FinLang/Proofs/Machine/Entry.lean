import FinLang.Proofs.Machine.Binding
import FinLang.Proofs.Machine.Bodies

namespace FinLang

-- A node with no program among its parts.
inductive Node.Inner : Node → Prop
  | mk {n : Node} : n.kind ≠ .program → (∀ c ∈ n.children, c.Inner) → n.Inner

-- What stands in the head of a loop around its condition.
theorem Interpreter.loopHead_slots {word : Option Keyword} {head : Node} {slots : LoopHead}
    (h : loopHead word head = .ok slots) :
    (∀ s ∈ slots.start, s ∈ head.children) ∧ ∀ s ∈ slots.step, s ∈ head.children := by
  unfold loopHead at h
  split at h
  · split at h
    · rename_i hchildren
      cases h
      simp [hchildren]
    · cases h
  · cases h
    simp
  · cases h

namespace Node.Inner

variable {n : Node}

theorem not_program (hn : n.Inner) : n.kind ≠ .program := by
  cases hn
  assumption

theorem child {c : Node} (hn : n.Inner) (hc : c ∈ n.children) : c.Inner := by
  cases hn with
  | mk _ hall => exact hall c hc

theorem branchRule {l : List Node} (hl : ∀ c ∈ l, c.Inner) :
    Node.BranchRule (fun _ => True) (fun _ => True) Inner l := by
  induction l using Node.BranchRule.induct with
  | case1 => trivial
  | case2 => trivial
  | case3 condition body rest ih =>
    exact ⟨trivial, hl body (by simp), ih fun c hc => hl c (by simp [hc])⟩

theorem loopRule (hn : n.Inner) : n.LoopRule (fun _ => True) (fun _ => True) Inner := by
  unfold Node.LoopRule
  split
  · rename_i head body hparts
    have hhead : head.Inner := hn.child (by simp [hparts])
    refine ⟨hn.child (by simp [hparts]), ?_⟩
    rcases hslots : Interpreter.loopHead n.keyword? head with e | slots
    · trivial
    · obtain ⟨hstart, hstep⟩ := Interpreter.loopHead_slots hslots
      exact ⟨trivial, fun s hs => hhead.child (hstart s hs), fun s hs => hhead.child (hstep s hs)⟩
  · trivial

theorem functionRule (hn : n.Inner) : n.FunctionRule (fun _ => True) Inner := by
  unfold Node.FunctionRule
  rcases hdef : Interpreter.definition n with e | f
  · trivial
  intro block hblock c hc
  unfold Interpreter.definition at hdef
  split at hdef
  · rename_i name params body hparts
    split at hdef
    · cases hdef
    · rcases hnames : Interpreter.parameterNames params.children with e | names <;>
        rw [hnames] at hdef <;> cases hdef
      cases hblock
      exact (hn.child (by simp [hparts])).child hc
  · cases hdef

end Node.Inner

-- Nodes of any shape, as long as no program stands within another one.
def Discipline.lenient : Discipline where
  admits _ := True
  evaluable _ := True
  executable := Node.Inner
  ordinary _ := trivial
  outsideLoop _ := trivial
  evalRule {n} _ := by
    unfold Node.EvalRule
    repeat' split
    all_goals simp
  execRule {n} hn := by
    unfold Node.ExecRule
    split
    · repeat' split
      · exact fun c hc => hn.child hc
      · exact fun _ _ => trivial
      · exact fun c hc => hn.child hc
    · intro c _
      unfold Node.DeclareRule
      split
      · trivial
      · exact fun _ _ => trivial
    · exact hn.functionRule
    · exact Node.Inner.branchRule fun c hc => hn.child hc
    · exact hn.loopRule
    · trivial
    · unfold Node.JumpRule
      split <;> simp
    · exact hn.not_program ‹_›
    · trivial
    · trivial

open Heap (Keeps)

namespace Run

-- A run in which a call may be made from a scope.
structure Callable (caller : ScopeId) (r : Run) : Prop where
  sound : r.store.Sound []
  fit : ∀ {s sc g}, r.scope? s = some sc → g ∈ sc.funcs → g.Fit .lenient
  -- A parent lives, or its handle has gone out of use.
  parents : ∀ {s sc p}, r.scope? s = some sc → sc.parent = some p →
    (∃ sc', r.scope? p = some sc') ∨ r.store.scopes.arena.Passed p
  live : ∃ sc, r.scope? caller = some sc
  flow : r.flow = .start
  depth : r.machine.depth < r.machine.config.maxCallDepth

-- The scope of a call has been opened, one level deeper.
structure Opens (f : Function) (caller n : ScopeId) (sc : Scope) (r r' : Run) : Prop where
  sound : r'.store.Sound []
  fresh : r.scope? n = none
  unused : ∀ p, r.store.scopes.arena.Passed p → p ≠ n
  scope : r'.scope? n = some sc
  vars : sc.vars = []
  funcs : sc.funcs = []
  parent : sc.parent = some caller
  belongsTo : sc.belongsTo = some f
  others : ∀ s, s ≠ n → r'.scope? s = r.scope? s
  heap : r'.heap = r.heap
  flow : r'.flow = r.flow
  depth : r'.machine.depth = r.machine.depth + 1
  config : r'.machine.config = r.machine.config

end Run

namespace Interpreter

open Exec

-- What happens in front of the body of a call and behind it.
def openCall (f : Function) (caller : ScopeId) : Exec ScopeId := do
  let scope ← onStore do
    let scope ← Store.createChild caller f.name
    Store.setBelongsTo scope f
    return scope
  modifyMachine fun m => { m with depth := m.depth + 1 }
  return scope

def closeCall (scope : ScopeId) (body : Exec Unit) : Exec Unit := do
  let ended ← attempt body
  modifyMachine fun m => { m with depth := m.depth - 1 }
  leaveScope scope ended

-- What is run with the arguments bound.
def runBody (self : Interpreter) (fuel : Nat) (f : Function) (scope : ScopeId) : Exec Unit := do
  match f.body with
  | .native n => Library.run self scope n
  | .script block => runList self fuel block.children scope
  leaveBody

variable {self : Interpreter} {fuel : Nat} {f : Function} {args : Arguments} {caller n : ScopeId}
  {sc : Scope} {r r' : Run} {e : Halt}

theorem openCall_opens (hs : r.store.Sound []) (hlive : ∃ sc, r.scope? caller = some sc) :
    Ensures (openCall f caller) r (fun n r' => ∃ sc, r.Opens f caller n sc r') fun _ _ => False := by
  rw [openCall, Ensures.bind_iff, onStore_iff, Ensures.bind_iff]
  refine ((Store.createChild_ensures hs).and (Store.createChild_passed hs)).mono ?_ ?_
  swap
  · rintro e st ⟨⟨-, -, hnone⟩, -⟩
    obtain ⟨sc, hsc⟩ := hlive
    cases hnone.symm.trans hsc
  rintro n st ⟨⟨-, hc⟩, hunused⟩
  obtain ⟨sc, hvars, hfuncs, hparent, hsc⟩ := hc.scope
  rw [Ensures.bind_iff]
  refine (Store.setBelongsTo_ensures hc.sound hsc).mono ?_ fun _ _ he => he
  rintro _ st' ⟨hs', hheap, hsc', hothers⟩
  have hopens : r.Opens f caller n { sc with belongsTo := some f } (r.withStore st').deeper :=
    { sound := hs'
      fresh := hc.fresh
      unused := hunused
      scope := hsc'
      vars := hvars
      funcs := hfuncs
      parent := hparent
      belongsTo := rfl
      others := fun s hne => (hothers s hne).trans (hc.others s hne)
      heap := hheap.trans hc.heap
      flow := rfl
      depth := rfl
      config := rfl }
  exact Ensures.pure_iff.mpr (Ensures.bind_iff.mpr (Ensures.modify_iff.mpr ⟨_, hopens⟩))

theorem enterCall_run {body : ScopeId → Exec Unit}
    (hdepth : r.machine.depth < r.machine.config.maxCallDepth) :
    (enterCall f caller body).run.run r =
      (openCall f caller >>= fun n => closeCall n (body n)).run.run r := by
  have hlimit : ¬r.machine.config.maxCallDepth ≤ r.machine.depth := by omega
  have hget : (enterCall f caller body).run.run r = (do
      let scope ← onStore do
        let scope ← Store.createChild caller f.name
        Store.setBelongsTo scope f
        return scope
      modifyMachine fun m => { m with depth := m.depth + 1 }
      closeCall scope (body scope)).run.run r := by
    unfold enterCall
    rw [run_bind_of_ok (show (get : Exec Run).run.run r = (.ok r, r) from rfl)]
    simp only [if_neg hlimit]
    rfl
  rw [hget, openCall]
  simp only [bind_assoc, pure_bind]

theorem invoke_eq :
    invoke self fuel f args caller n =
      (bindArguments self f.params args caller n >>= fun bound =>
        if bound then runBody self fuel f n else pure ()) := by
  unfold invoke runBody
  rfl

-- Only what the body comes to matters for what follows.
theorem closeCall_run_congr {body body' : Exec Unit} (h : body.run.run r = body'.run.run r') :
    (closeCall n body).run.run r = (closeCall n body').run.run r' := by
  have hattempt : (attempt body).run.run r = (attempt body').run.run r' := by
    have h : body r = body' r' := h
    simp only [attempt, tryCatch, tryCatchThe, MonadExceptOf.tryCatch, ExceptT.tryCatch, ExceptT.mk,
      ExceptT.run, StateT.run, bind, ExceptT.bind, StateT.bind, h]
  simp only [closeCall, ExceptT.run, StateT.run, bind, ExceptT.bind, ExceptT.mk, StateT.bind] at hattempt ⊢
  rw [hattempt]

-- A failure with nothing on its way goes on when the scope has been left.
theorem leaveScope_run_error {f : Failure} (hres : r.flow.result = none) :
    ∃ r', (leaveScope n (.error f)).run.run r = (.error (.failure f), r') := by
  have hleave : Ensures (leaveScope n (.error f)) r (fun _ _ => False) fun e _ => e = .failure f := by
    unfold leaveScope
    rw [Ensures.bind_iff]
    refine Ensures.pure_iff.mpr ?_
    simp only
    rw [Ensures.bind_iff, takeResult_iff, hres, Ensures.bind_iff]
    refine Ensures.pure_iff.mpr ?_
    rw [Ensures.bind_iff, attempt_iff, onStore_iff]
    exact Ensures.trivially.mono (fun _ _ _ => rfl) fun _ _ _ => rfl
  rcases hrun : (leaveScope n (.error f)).run.run r with ⟨e | _, r'⟩
  · exact ⟨r', by rw [hleave.of_error hrun]⟩
  · exact (hleave.of_ok hrun).elim

theorem closeCall_run_error {body : Exec Unit} {f : Failure}
    (h : body.run.run r = (.error (.failure f), r')) (hres : r'.flow.result = none) :
    ∃ r'', (closeCall n body).run.run r = (.error (.failure f), r'') := by
  have hattempt : (attempt body).run.run r = (.ok (.error f), r') := by
    have hbody : Ensures (attempt body) r (fun ended s => ended = .error f ∧ s = r')
        fun _ _ => False := by
      rw [attempt_iff]
      unfold Ensures
      rw [h]
      exact ⟨rfl, rfl⟩
    obtain ⟨ended, s, hrun, rfl, rfl⟩ := hbody.exists_run
    exact hrun
  obtain ⟨r'', hleave⟩ := leaveScope_run_error (n := n) (f := f) (r := r'.higher) hres
  refine ⟨r'', ?_⟩
  rw [closeCall, run_bind_of_ok hattempt]
  exact (run_bind_of_ok rfl).trans hleave

end Interpreter

section Binding

open Interpreter

variable {D : Discipline} {A : ScopeId → Prop} {J : VarId → Prop} {self : Interpreter}
  {params names : List String} {nodes : List Node} {f : Function} {caller n : ScopeId} {sc : Scope}
  {r r₀ : Run} {c : Cause}

theorem Unbindable.append {more : List String} (h : Unbindable names c) :
    Unbindable (names ++ more) c := by
  rcases h with ⟨hin, hc⟩ | ⟨name, hcount, hc⟩
  · exact .inl ⟨List.mem_append_left _ hin, hc⟩
  · refine .inr ⟨name, ?_, hc⟩
    rw [List.count_append]
    omega

-- In front of the arguments the new scope is out of reach, and nothing is bound in it.
theorem Run.Opens.filling (ho : r.Opens f caller n sc r₀) (hc : r.Callable caller) :
    Filling .lenient (· ≠ n) (r₀.heap.Temps fun _ => False) caller n sc [] [] [] r₀ := by
  have hne : caller ≠ n := by
    rintro rfl
    obtain ⟨sc', hsc'⟩ := hc.live
    cases ho.fresh.symm.trans hsc'
  have hchildless : ∀ {s sc'}, r₀.scope? s = some sc' → sc'.parent ≠ some n := by
    intro s sc' hsc' hp
    by_cases hs : s = n
    · subst hs
      cases ho.scope.symm.trans hsc'
      exact hne (Option.some.inj (ho.parent.symm.trans hp))
    · rcases hc.parents ((ho.others s hs).symm.trans hsc') hp with ⟨old, hold⟩ | hpassed
      · cases ho.fresh.symm.trans hold
      · exact ho.unused n hpassed rfl
  have hheap := ho.sound.heap
  exact
    { state :=
        { sound := ho.sound
          closed := hheap.closed_temps Heap.closed_nothing
          detached := fun y hy => .inl (.inr ⟨y, hy, .refl⟩)
          safe := by simp
          reach :=
            { parent := fun _ hsc' hp he => hchildless hsc' (he ▸ hp)
              safe := fun {s sc' name x} _ hsc' hin hx => by
                obtain ⟨y, hy, hb⟩ := hx.resolve_left id
                exact absurd (ho.sound.bound hsc' hin) (hheap.not_scope_of_below hy hb s)
              fit := fun hs hsc' hin => hc.fit ((ho.others _ hs).symm.trans hsc') hin }
          here := hne
          live := .inr fun _ => trivial }
      outside := fun hn => hn rfl
      aside := ⟨ho.sound.scopes, ⟨sc, ho.scope⟩, hchildless⟩
      flow := ho.flow.trans hc.flow
      fills := ⟨[], ho.vars ▸ ho.scope, rfl, .nil, List.nodup_nil⟩
      kept := fun {sc' b z} hsc' hb => by
        cases ho.scope.symm.trans hsc'
        simp [ho.vars] at hb
      nodup := List.nodup_nil
      named := by simp }

-- All arguments are bound, and then the parameters that are left, or an argument comes to no value,
-- or a name is refused.
theorem Interpreter.bindArguments_outcome (hself : self.Sound D) (hobl : self.Oblivious n)
    (hn : ∀ m ∈ nodes, D.evaluable m) (hf : Filling D A J caller n sc [] [] [] r) :
    Interrupted self caller n (Function.supply params 0 nodes) r ∨
      (∃ c r', (bindArguments self params (.nodes nodes) caller n).run.run r =
          (.error (.failure (.of c)), r') ∧ r'.flow = .start ∧
        Unbindable (Function.boundNames params nodes.length) c) ∨
      ∃ J' values r' r'', Supplied self caller n (Function.supply params 0 nodes) values r r' ∧
        (bindMissing n (params.drop nodes.length)).run.run r' = (.ok (), r'') ∧
        (bindArguments self params (.nodes nodes) caller n).run.run r = (.ok true, r'') ∧
        Filling D A J' caller n sc [] (Function.boundNames params nodes.length)
          (values ++ List.replicate (params.length - nodes.length) .null) r'' := by
  have hnames := Function.names_supply params nodes
  have hnodes : Interrupted self caller n (Function.supply params 0 nodes) r ∨ _ :=
    bindNodes_outcome hself hobl nodes hn hf
  rcases hnodes with h | ⟨c, r', hrun, hflow, hc⟩ | ⟨J₁, values, r₁, hrun, hsupplied, hf₁⟩
  · exact .inl h
  · refine .inr (.inl ⟨c, r', ?_, hflow, ?_⟩)
    · rw [bindArguments, run_bind_of_error hrun]
    · rw [← hnames]
      exact hc.append
  rcases bindMissing_outcome (params.drop nodes.length) hf₁ with
    ⟨c, r', hmissing, hflow, hc⟩ | ⟨J', r', hmissing, hf'⟩
  · refine .inr (.inl ⟨c, r', ?_, hflow, hnames ▸ hc⟩)
    rw [bindArguments, run_bind_of_ok hrun]
    simp only [if_true]
    rw [run_bind_of_error hmissing]
  · refine .inr (.inr ⟨J', values, r₁, r', hsupplied, hmissing, ?_, ?_⟩)
    · rw [bindArguments, run_bind_of_ok hrun]
      simp only [if_true]
      rw [run_bind_of_ok hmissing]
      rfl
    · rw [List.nil_append, List.nil_append, List.length_drop, hnames] at hf'
      exact hf'

end Binding

end FinLang

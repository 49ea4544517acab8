import FinLang.Machine.Statement
import FinLang.Proofs.Machine.Expression

namespace FinLang

variable {D : Discipline} {A : ScopeId → Prop} {K : VarId → Prop} {scope : ScopeId}
  {r r' r'' : Run} {E : Halt → Run → Prop} {self : Interpreter} {node : Node}

-- The place of the next statement.
structure AtNext (D : Discipline) (A : ScopeId → Prop) (K : VarId → Prop) (scope : ScopeId)
    (r r' : Run) : Prop where
  frame : Frame K (· = scope) r r'
  state : State D A K [] scope r'
  flow : r'.flow = .start

namespace ExecPost

theorem trans (hf : Frame K (· = scope) r r') (hp : ExecPost D A K scope r' r'') :
    ExecPost D A K scope r r'' :=
  { hp with frame := hf.trans hp.frame }

theorem of_next (hr : AtNext D A K scope r r') : ExecPost D A K scope r r' where
  frame := hr.frame
  state := by
    rw [hr.flow]
    exact hr.state
  carries := by
    rw [Carries, hr.flow]
    nofun
  kind := by
    rw [hr.flow]
    nofun
  quiet := by
    rw [hr.flow]
    exact .inr (.inr rfl)

theorem of_exit (hp : EvalPost D A K scope r none r') : ExecPost D A K scope r r' := by
  obtain ⟨hf, hst, hcar, hkind⟩ := hp
  exact ⟨hf.some_scope, hst, hcar, by rw [hkind]; nofun, .inr (.inl hkind)⟩

-- Nothing travels with any other flow than `return` or `exit`.
theorem result_eq_none (hp : ExecPost D A K scope r r') (hret : r'.flow.kind ≠ .returning)
    (hexit : r'.flow.kind ≠ .exiting) : r'.flow.result = none :=
  (hp.quiet.resolve_left hret).resolve_left hexit

-- Once the flow has been taken up, the next statement can follow.
theorem resume (hp : ExecPost D A K scope r r') (hres : r'.flow.result = none) :
    AtNext D A K scope r { r' with flow := .start } where
  frame := hp.frame.trans (.of_machine rfl rfl)
  state := by
    have hst := hp.state
    rw [hres] at hst
    exact hst.congr rfl
  flow := rfl

theorem next (hp : ExecPost D A K scope r r') (hkind : r'.flow.kind = .next) :
    AtNext D A K scope r r' := by
  have hres := hp.result_eq_none (by rw [hkind]; nofun) (by rw [hkind]; nofun)
  have hflow : r'.flow = .start := by
    rw [Flow.start, ← hkind, ← hres]
  have hr := hp.resume hres
  rwa [← hflow] at hr

end ExecPost

theorem AtNext.refl (hst : State D A K [] scope r) (hflow : r.flow = .start) :
    AtNext D A K scope r r :=
  ⟨.refl, hst, hflow⟩

namespace Interpreter

open Exec

section

variable {statement : Node → Exec Unit} {R Q : Run → Prop} {list : List Node}

-- Statement after statement: what holds before each of them, and behind the
-- last one.
theorem runStraight_ensures (rest : List Node)
    (hstep : ∀ n ∈ rest, ∀ r, R r → Ensures (statement n) r (fun _ r' => Q r') E)
    (hnext : ∀ r, Q r → r.flow.kind = .next → R r) (hr : R r) :
    Ensures (runStraight statement rest) r
      (fun stopped r' => if stopped then Q r' else R r') E := by
  induction rest generalizing r with
  | nil => exact hr
  | cons n rest ih =>
    unfold runStraight
    rw [Ensures.bind_iff]
    refine (hstep n (List.mem_cons_self ..) r hr).mono ?_ fun _ _ he => he
    rintro _ r₁ hq
    rw [Ensures.bind_iff]
    refine Ensures.bind_iff.mpr (flow_iff.mpr ?_)
    by_cases hkind : r₁.flow.kind = .next
    · have : r₁.flow.isNext = true := by simp [Flow.isNext, hkind]
      rw [this]
      exact ih (fun m hm => hstep m (List.mem_cons_of_mem _ hm)) (hnext r₁ hq hkind)
    · have : r₁.flow.isNext = false := by simp [Flow.isNext, hkind]
      rw [this]
      exact hq

theorem mem_of_afterLabel? {label : String} {target : List Node}
    (h : afterLabel? label list = some target) : ∀ n ∈ target, n ∈ list := by
  induction list with
  | nil => cases h
  | cons n rest ih =>
    unfold afterLabel? at h
    split at h
    · cases h
      exact fun m hm => List.mem_cons_of_mem _ hm
    · exact fun m hm => List.mem_cons_of_mem _ (ih h m hm)

-- A list of statements with its jumps.
theorem runFrom_ensures (fuel : Nat) {rest : List Node} (hrest : ∀ n ∈ rest, n ∈ list)
    (hfuel : ∀ r, R r → E .outOfFuel r)
    (hstep : ∀ n ∈ list, ∀ r, R r → Ensures (statement n) r (fun _ r' => Q r') E)
    (hnext : ∀ r, Q r → r.flow.kind = .next → R r)
    (hgoto : ∀ r label, Q r → r.flow.kind = .goto label →
      R { r with flow := r.flow.withKind .next } ∧
        E (.failure (.of (.labelNotInBlock label))) { r with flow := r.flow.withKind .failed })
    (hend : ∀ r, R r → Q r) (hr : R r) :
    Ensures (runFrom statement list fuel rest) r (fun _ r' => Q r') E := by
  induction fuel generalizing rest r with
  | zero => exact hfuel r hr
  | succ n ih =>
    unfold runFrom
    rw [Ensures.bind_iff]
    refine (runStraight_ensures rest (fun m hm => hstep m (hrest m hm)) hnext hr).mono ?_
      fun _ _ he => he
    rintro (_ | _) r₁ hq
    · exact hend r₁ hq
    · refine Ensures.bind_iff.mpr (flow_iff.mpr ?_)
      split
      · rename_i label hkind
        obtain ⟨hready, hfail⟩ := hgoto r₁ label hq hkind
        split
        · rename_i target htarget
          rw [Ensures.bind_iff, setKind_iff]
          exact ih (mem_of_afterLabel? htarget) hready
        · rw [Ensures.bind_iff, setKind_iff]
          exact hfail
      · exact hq

end

theorem runList_sound (hself : self.Sound D) (fuel : Nat) {list : List Node}
    (hn : ∀ n ∈ list, D.executable n) (hst : State D A K [] scope r) (hflow : r.flow = .start) :
    Ensures (runList self fuel list scope) r (fun _ r' => ExecPost D A K scope r r')
      (FailPost D A K (· = scope) [] scope r) := by
  refine runFrom_ensures (R := AtNext D A K scope r) fuel (fun _ h => h) (fun _ _ => trivial) ?_
    (fun _ hp => hp.next) ?_ (fun _ => .of_next) (.refl hst hflow)
  · intro n hin r₁ hr
    exact (hself.exec (hn n hin) hr.state hr.flow).mono (fun _ _ hp => hp.trans hr.frame)
      fun _ _ he => he.trans hr.frame
  · intro r₁ label hp hkind
    have hres := hp.result_eq_none (by rw [hkind]; nofun) (by rw [hkind]; nofun)
    have hr := hp.resume hres
    have hstart : r₁.flow.withKind .next = .start := by rw [Flow.withKind, hres]; rfl
    rw [hstart]
    refine ⟨hr, hr.frame.trans (.of_machine rfl rfl), hr.state.congr rfl, hres, ?_⟩
    exact D.ordinary (c := .labelNotInBlock label) ⟨nofun, nofun⟩

-- Values in statement position are let go of.
theorem discardAll_sound (hself : self.Sound D) (nodes : List Node)
    (hn : ∀ n ∈ nodes, D.evaluable n) (hst : State D A K [] scope r) (hflow : r.flow = .start) :
    Ensures (discardAll self scope nodes) r (fun _ r' => ExecPost D A K scope r r')
      (FailPost D A K (· = scope) [] scope r) := by
  induction nodes generalizing r with
  | nil => exact .of_next (.refl hst hflow)
  | cons node rest ih =>
    unfold discardAll
    rw [Ensures.bind_iff]
    refine (hself.eval (hn node (List.mem_cons_self ..)) hst hflow).mono ?_
      fun _ _ he => he.some_scope
    rintro (_ | x) r₁ hp
    · exact .of_exit hp
    · obtain ⟨hf, hst₁, -, hflow₁⟩ := hp
      rw [Ensures.bind_iff]
      refine (release_ensures (P := noScope) hst₁).mono ?_ fun _ _ he => he
      rintro _ r₂ ⟨hm, -⟩
      have hf₂ : Frame K (· = scope) r r₂ := (hf.trans hm.frame).some_scope
      exact (ih (fun n h => hn n (List.mem_cons_of_mem _ h)) hm.state (hm.flow.trans hflow₁)).mono
        (fun _ _ hp => hp.trans hf₂) fun _ _ he => he.trans hf₂

theorem execStatement_sound (hself : self.Sound D) (fuel : Nat) (hkind : node.kind = .statement)
    (hn : node.ExecRule D.admits D.evaluable D.executable) (hst : State D A K [] scope r)
    (hflow : r.flow = .start) :
    Ensures (execStatement self fuel node scope) r (fun _ r' => ExecPost D A K scope r r')
      (FailPost D A K (· = scope) [] scope r) := by
  unfold Node.ExecRule at hn
  rw [hkind] at hn
  unfold execStatement
  split
  · rename_i hblock
    rw [if_pos hblock] at hn
    exact withScope_ensures hst hflow fun n r₁ hst₁ hflow₁ =>
      runList_sound hself fuel hn hst₁ hflow₁
  · rename_i hblock
    rw [if_neg hblock] at hn
    split
    · rename_i hsemi
      rw [if_pos hsemi] at hn
      exact discardAll_sound hself _ hn hst hflow
    · rename_i hsemi
      rw [if_neg hsemi] at hn
      exact runList_sound hself fuel hn hst hflow

theorem declareAll_sound (hself : self.Sound D) (nodes : List Node)
    (hn : ∀ n ∈ nodes, n.DeclareRule D.admits D.evaluable) (hst : State D A K [] scope r)
    (hflow : r.flow = .start) :
    Ensures (declareAll self scope nodes) r (fun _ r' => ExecPost D A K scope r r')
      (FailPost D A K (· = scope) [] scope r) := by
  induction nodes generalizing r with
  | nil => exact .of_next (.refl hst hflow)
  | cons node rest ih =>
    have hres : r.flow.result = none := by rw [hflow]; rfl
    have hrule := hn node (List.mem_cons_self ..)
    -- The other names, behind the first one.
    have hrest : ∀ {r₁ r₂ : Run}, Frame K noScope r r₁ → r₁.flow = .start →
        Moved D A K (· = scope) [] scope r₁ r₂ →
        Ensures (declareAll self scope rest) r₂ (fun _ r' => ExecPost D A K scope r r')
          (FailPost D A K (· = scope) [] scope r) := by
      intro r₁ r₂ hf hflow₁ hm
      have hf₂ : Frame K (· = scope) r r₂ := hf.some_scope.trans hm.frame
      exact (ih (fun n h => hn n (List.mem_cons_of_mem _ h)) hm.state (hm.flow.trans hflow₁)).mono
        (fun _ _ hp => hp.trans hf₂) fun _ _ he => he.trans hf₂
    unfold Node.DeclareRule at hrule
    unfold declareAll
    rw [Ensures.bind_iff]
    rcases hdecl : declarator node with e | ⟨name, init⟩
    · rw [hdecl] at hrule
      exact (ofExcept_error rfl).mpr (.refl hst hres hrule)
    rw [hdecl] at hrule
    refine (ofExcept_ok rfl).mpr ?_
    cases init with
    | none => exact null_declare hst hres (fun _ _ he => he) fun r' hm _ => hrest .refl hflow hm
    | some e =>
      simp only
      rw [Ensures.bind_iff]
      refine (hself.eval (hrule e rfl) hst hflow).mono ?_ fun _ _ he => he.some_scope
      rintro (_ | x) r₁ hp
      · exact .of_exit hp
      · obtain ⟨hf, hst₁, hx, hflow₁⟩ := hp
        exact own_declare hst₁ hx (by rw [hflow₁]; rfl) (fun _ _ he => he.trans hf.some_scope)
          fun r' hm _ => hrest hf hflow₁ hm

theorem body_of_definition {f : Function} (hdef : definition node = .ok f) :
    ∃ block, f.body = .script block := by
  unfold definition at hdef
  split at hdef
  · split at hdef
    · cases hdef
    · rename_i params body _ _ _ _
      rcases hparams : parameterNames params.children with _ | names
      · simp [hparams, bind, Except.bind] at hdef
      · simp only [hparams, bind, Except.bind, pure, Except.pure] at hdef
        cases hdef
        exact ⟨body, rfl⟩
  · cases hdef

theorem defineFunction_sound (hkind : node.kind = .function)
    (hn : node.ExecRule D.admits D.evaluable D.executable) (hst : State D A K [] scope r)
    (hflow : r.flow = .start) :
    Ensures (defineFunction node scope) r (fun _ r' => ExecPost D A K scope r r')
      (FailPost D A K (· = scope) [] scope r) := by
  have hres : r.flow.result = none := by rw [hflow]; rfl
  unfold Node.ExecRule Node.FunctionRule at hn
  simp only [hkind] at hn
  rw [defineFunction, Ensures.bind_iff]
  rcases hdef : definition node with e | f
  · rw [hdef] at hn
    exact (ofExcept_error rfl).mpr (.refl hst hres hn)
  rw [hdef] at hn
  have hfit : f.Fit D := by
    obtain ⟨block, hblock⟩ := body_of_definition hdef
    simp only [Function.Fit, hblock]
    exact hn block hblock
  refine (ofExcept_ok rfl).mpr (onStore_iff.mpr ((Store.addFunction_ensures hst.sound).mono ?_ ?_))
  · rintro _ st' ⟨hs, hheap, ⟨sc, hsc, hsc'⟩, hothers⟩
    have hm := hst.rescope hs hheap hsc hsc' rfl rfl (fun g hg => ?_) hothers
    · exact .of_next ⟨hm.frame, hm.state, hm.flow.trans hflow⟩
    · rcases List.mem_append.mp hg with hg | hg
      · exact .inl hg
      · cases List.mem_singleton.mp hg
        exact .inr hfit
  · rintro e st' ⟨rfl, hc⟩
    refine ⟨.of_machine rfl rfl, hst.congr rfl, hres, ?_⟩
    rcases hc with hc | ⟨hc, hnone⟩
    · exact D.ordinary hc
    · rw [hc]
      refine hst.live.resolve_left ?_ scope
      rintro ⟨sc, hsc⟩
      cases hnone.symm.trans hsc

theorem evalCondition_sound (hself : self.Sound D) (hn : D.evaluable node)
    (hst : State D A K [] scope r) (hflow : r.flow = .start) :
    Ensures (evalCondition self node scope) r
      (fun truth r' =>
        match truth with
        | some _ => AtNext D A K scope r r'
        | none => ExecPost D A K scope r r')
      (FailPost D A K (· = scope) [] scope r) := by
  rw [evalCondition, Ensures.bind_iff]
  refine (hself.eval hn hst hflow).mono ?_ fun _ _ he => he.some_scope
  rintro (_ | x) r₁ hp
  · exact .of_exit hp
  obtain ⟨hf, hst₁, hx, hflow₁⟩ := hp
  obtain ⟨b, hb⟩ := hst₁.sound.heap.toBool_ok hx.live
  simp only
  rw [Ensures.bind_iff, Ensures.get_iff, Ensures.bind_iff]
  refine (release_ensures (P := noScope) hst₁).mono ?_ fun _ _ he => he
  rintro _ r₂ ⟨hm, -⟩
  rw [Ensures.bind_iff, ofExcept_ok hb]
  exact ⟨(hf.trans hm.frame).some_scope, hm.state, hm.flow.trans hflow₁⟩

theorem execBranches_sound (hself : self.Sound D) (nodes : List Node)
    (hn : Node.BranchRule D.admits D.evaluable D.executable nodes) (hst : State D A K [] scope r)
    (hflow : r.flow = .start) :
    Ensures (execBranches self scope nodes) r (fun _ r' => ExecPost D A K scope r r')
      (FailPost D A K (· = scope) [] scope r) := by
  induction nodes using Node.BranchRule.induct generalizing r with
  | case1 => exact .of_next (.refl hst hflow)
  | case2 node => exact .refl hst (by rw [hflow]; rfl) hn
  | case3 condition body rest ih =>
    obtain ⟨hcond, hbody, hrest⟩ := hn
    unfold execBranches
    rw [Ensures.bind_iff]
    refine (evalCondition_sound hself hcond hst hflow).mono ?_ fun _ _ he => he
    rintro (_ | _ | _) r₁ hp
    · exact hp
    · exact (ih hrest hp.state hp.flow).mono (fun _ _ hq => hq.trans hp.frame)
        fun _ _ he => he.trans hp.frame
    · exact (hself.exec hbody hp.state hp.flow).mono (fun _ _ hq => hq.trans hp.frame)
        fun _ _ he => he.trans hp.frame

-- The body of a loop takes up its own `break` and `continue`.
theorem execBody_sound (hself : self.Sound D) (hn : D.executable node)
    (hst : State D A K [] scope r) (hflow : r.flow = .start) :
    Ensures (execBody self node scope) r
      (fun goesOn r' => if goesOn then AtNext D A K scope r r' else ExecPost D A K scope r r')
      (FailPost D A K (· = scope) [] scope r) := by
  rw [execBody, Ensures.bind_iff]
  refine (hself.exec hn hst hflow).mono ?_ fun _ _ he => he
  rintro _ r₁ hp
  have hresume : r₁.flow.kind = .continuing ∨ r₁.flow.kind = .breaking →
      AtNext D A K scope r { r₁ with flow := r₁.flow.withKind .next } := by
    intro hkind
    have hres : r₁.flow.result = none := by
      rcases hkind with hkind | hkind <;>
        exact hp.result_eq_none (by rw [hkind]; nofun) (by rw [hkind]; nofun)
    have hstart : r₁.flow.withKind .next = .start := by rw [Flow.withKind, hres]; rfl
    rw [hstart]
    exact hp.resume hres
  refine Ensures.bind_iff.mpr (flow_iff.mpr ?_)
  split
  · exact hp.next ‹_›
  · rw [Ensures.bind_iff, setKind_iff]
    exact hresume (.inl ‹_›)
  · rw [Ensures.bind_iff, setKind_iff]
    exact .of_next (hresume (.inr ‹_›))
  · exact hp

theorem iterate_sound (hself : self.Sound D) {condition body : Node} {step : Option Node}
    (hcond : D.evaluable condition) (hbody : D.executable body)
    (hstep : ∀ s ∈ step, D.executable s) (fuel : Nat) (hst : State D A K [] scope r)
    (hflow : r.flow = .start) :
    Ensures (iterate self condition body step scope fuel) r
      (fun _ r' => ExecPost D A K scope r r') (FailPost D A K (· = scope) [] scope r) := by
  induction fuel generalizing r with
  | zero => trivial
  | succ n ih =>
    have hagain : ∀ {r'}, AtNext D A K scope r r' →
        Ensures (iterate self condition body step scope n) r'
          (fun _ r'' => ExecPost D A K scope r r'') (FailPost D A K (· = scope) [] scope r) :=
      fun hr => (ih hr.state hr.flow).mono (fun _ _ hq => hq.trans hr.frame)
        fun _ _ he => he.trans hr.frame
    have hcontinues : Ensures (continues self condition scope) r
        (fun truth r' => match truth with
          | some _ => AtNext D A K scope r r'
          | none => ExecPost D A K scope r r')
        (FailPost D A K (· = scope) [] scope r) := by
      unfold continues
      split
      · exact .refl hst hflow
      · exact evalCondition_sound hself hcond hst hflow
    unfold iterate
    rw [Ensures.bind_iff]
    refine hcontinues.mono ?_ fun _ _ he => he
    rintro (_ | _ | _) r₁ hp
    · exact hp
    · exact .of_next hp
    simp only [BEq.rfl, if_true]
    rw [Ensures.bind_iff]
    refine (execBody_sound hself hbody hp.state hp.flow).mono ?_ fun _ _ he => he.trans hp.frame
    rintro (_ | _) r₂ hq
    · exact hq.trans hp.frame
    have hr₂ : AtNext D A K scope r r₂ := ⟨hp.frame.trans hq.frame, hq.state, hq.flow⟩
    simp only [if_true]
    cases step with
    | none => exact hagain hr₂
    | some s =>
      simp only
      rw [Ensures.bind_iff]
      refine (hself.exec (hstep s rfl) hr₂.state hr₂.flow).mono ?_ fun _ _ he => he.trans hr₂.frame
      rintro _ r₃ hq₃
      have hq₃ := hq₃.trans hr₂.frame
      rw [Ensures.bind_iff]
      refine Ensures.bind_iff.mpr (flow_iff.mpr (Ensures.pure_iff.mpr ?_))
      split
      · rename_i hnext
        exact hagain (hq₃.next (by simpa [Flow.isNext] using hnext))
      · exact hq₃

theorem execLoop_sound (hself : self.Sound D) (fuel : Nat) (hkind : node.kind = .loop)
    (hn : node.ExecRule D.admits D.evaluable D.executable) (hst : State D A K [] scope r)
    (hflow : r.flow = .start) :
    Ensures (execLoop self fuel node scope) r (fun _ r' => ExecPost D A K scope r r')
      (FailPost D A K (· = scope) [] scope r) := by
  unfold Node.ExecRule Node.LoopRule at hn
  simp only [hkind] at hn
  unfold execLoop
  split
  · rename_i head body hchildren
    simp only [hchildren] at hn
    obtain ⟨hbody, hhead⟩ := hn
    refine withScope_ensures hst hflow fun n r₁ hst₁ hflow₁ => ?_
    have hres₁ : r₁.flow.result = none := by rw [hflow₁]; rfl
    rw [Ensures.bind_iff]
    rcases hparts : loopHead node.keyword? head with e | parts
    · rw [hparts] at hhead
      exact (ofExcept_error rfl).mpr (.refl hst₁ hres₁ hhead)
    rw [hparts] at hhead
    obtain ⟨hcond, hstart, hstep⟩ := hhead
    refine (ofExcept_ok rfl).mpr ?_
    rcases hs : parts.start with _ | start
    · exact iterate_sound hself hcond hbody hstep fuel hst₁ hflow₁
    · simp only
      rw [Ensures.bind_iff]
      refine (hself.exec (hstart start hs) hst₁ hflow₁).mono ?_ fun _ _ he => he
      rintro _ r₂ hp
      rw [Ensures.bind_iff]
      refine Ensures.bind_iff.mpr (flow_iff.mpr (Ensures.pure_iff.mpr ?_))
      split
      · rename_i hnext
        have hr := hp.next (by simpa [Flow.isNext] using hnext)
        exact (iterate_sound hself hcond hbody hstep fuel hr.state hr.flow).mono
          (fun _ _ hq => hq.trans hr.frame) fun _ _ he => he.trans hr.frame
      · exact hp
  · rename_i hshape
    split at hn
    · exact absurd ‹_› (hshape _ _)
    · exact .refl hst (by rw [hflow]; rfl) hn

-- A jump changes nothing but the flow.
theorem setKind_sound {kind : FlowKind} (hst : State D A K [] scope r) (hflow : r.flow = .start)
    (hkind : kind ≠ .failed) :
    Ensures (setKind kind) r (fun _ r' => ExecPost D A K scope r r') E := by
  rw [setKind_iff, hflow]
  exact ⟨.of_machine rfl rfl, hst.congr rfl, nofun, hkind, .inr (.inr rfl)⟩

theorem execLeave_sound (hself : self.Sound D) {kind : FlowKind}
    (hkind : kind = .returning ∨ kind = .exiting) (hn : ∀ c ∈ node.children, D.evaluable c)
    (hst : State D A K [] scope r) (hflow : r.flow = .start) :
    Ensures (execLeave self node kind scope) r (fun _ r' => ExecPost D A K scope r r')
      (FailPost D A K (· = scope) [] scope r) := by
  unfold execLeave
  split
  · exact setKind_sound hst hflow (by rcases hkind with rfl | rfl <;> simp)
  · rename_i operand rest hchildren
    rw [Ensures.bind_iff]
    refine (hself.eval (hn operand (by simp [hchildren])) hst hflow).mono ?_
      fun _ _ he => he.some_scope
    rintro (_ | x) r₁ hp
    · exact .of_exit hp
    obtain ⟨hf, hst₁, hx, hflow₁⟩ := hp
    rw [Ensures.bind_iff, setResult_start (by rw [hflow₁]; rfl), setKind_iff]
    refine ⟨hf.some_scope.trans (.of_machine rfl rfl), hst₁.congr rfl, fun y hy => ?_, ?_, ?_⟩
    · cases hy
      exact .inl hx
    · rcases hkind with rfl | rfl <;> exact FlowKind.noConfusion
    · exact hkind.imp_right .inl

theorem execJump_sound (hself : self.Sound D) (hkind : node.kind = .jump)
    (hn : node.ExecRule D.admits D.evaluable D.executable) (hst : State D A K [] scope r)
    (hflow : r.flow = .start) :
    Ensures (execJump self node scope) r (fun _ r' => ExecPost D A K scope r r')
      (FailPost D A K (· = scope) [] scope r) := by
  have hres : r.flow.result = none := by rw [hflow]; rfl
  unfold Node.ExecRule Node.JumpRule at hn
  simp only [hkind] at hn
  unfold execJump
  generalize node.keyword? = word at hn ⊢
  rcases word with _ | word
  · exact .refl hst hres hn
  cases word
  case gotoWord =>
    simp only at hn ⊢
    split
    · exact setKind_sound hst hflow nofun
    · rename_i hnone
      exact .refl hst hres (hn.resolve_left (by simp [hnone]))
  case returnWord => exact execLeave_sound hself (.inl rfl) hn hst hflow
  case exitWord => exact execLeave_sound hself (.inr rfl) hn hst hflow
  case breakWord => exact setKind_sound hst hflow nofun
  case continueWord => exact setKind_sound hst hflow nofun
  all_goals exact .refl hst hres hn

theorem execBare_sound (hself : self.Sound D) (hn : D.evaluable node)
    (hst : State D A K [] scope r) (hflow : r.flow = .start) :
    Ensures (execBare self node scope) r (fun _ r' => ExecPost D A K scope r r')
      (FailPost D A K (· = scope) [] scope r) := by
  rw [execBare, Ensures.bind_iff]
  refine (hself.eval hn hst hflow).mono ?_ fun _ _ he => he.some_scope
  rintro (_ | x) r₁ hp
  · exact .of_exit hp
  obtain ⟨hf, hst₁, -, hflow₁⟩ := hp
  refine located_iff.mpr ((release_ensures (P := noScope) hst₁).mono ?_ fun _ _ he => he)
  rintro _ r₂ ⟨hm, -⟩
  exact .of_next ⟨(hf.trans hm.frame).some_scope, hm.state, hm.flow.trans hflow₁⟩

theorem execNode_sound (hself : self.Sound D) (fuel : Nat) (hn : D.executable node)
    (hst : State D A K [] scope r) (hflow : r.flow = .start) :
    Ensures (execNode self fuel node scope) r (fun _ r' => ExecPost D A K scope r r')
      (FailPost D A K (· = scope) [] scope r) := by
  have hrule := D.execRule hn
  have hlocated : ∀ {part : Exec Unit} {s : Option Span},
      Ensures part r (fun _ r' => ExecPost D A K scope r r')
        (FailPost D A K (· = scope) [] scope r) →
      Ensures (located s part) r (fun _ r' => ExecPost D A K scope r r')
        (FailPost D A K (· = scope) [] scope r) := fun h =>
    located_iff.mpr (h.mono (fun _ _ hq => hq) fun _ _ he => he.locate)
  have hshape := hrule
  unfold Node.ExecRule at hshape
  unfold execNode
  cases hkind : node.kind <;> simp only [hkind] at hshape ⊢
  case statement => exact hlocated (execStatement_sound hself fuel hkind hrule hst hflow)
  case declare => exact hlocated (declareAll_sound hself _ hshape hst hflow)
  case function => exact hlocated (defineFunction_sound hkind hrule hst hflow)
  case branch => exact hlocated (execBranches_sound hself _ hshape hst hflow)
  case loop => exact hlocated (execLoop_sound hself fuel hkind hrule hst hflow)
  case label => exact .of_next (.refl hst hflow)
  case jump => exact hlocated (execJump_sound hself hkind hrule hst hflow)
  case single => exact execBare_sound hself hshape hst hflow
  case expression => exact execBare_sound hself hshape hst hflow

end Interpreter

end FinLang

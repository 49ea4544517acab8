import FinLang.Proofs.Machine.Flows
import FinLang.Proofs.Machine.Parting

namespace FinLang

variable {d : Departure} {r r₁ r' r'' : Run} {n scope : ScopeId} {i j : Interpreter} {node : Node}
  {name : String} {v : Option VarId}

namespace Departure

theorem Here.of_depth (h : d.Here r') (hdepth : r'.machine.depth = r.machine.depth) : d.Here r :=
  fun n hn => (h n hn).trans hdepth

theorem Here.of_none (hd : d.level = none) : d.Here r := by
  intro n hn
  rw [hd] at hn
  cases hn

namespace Passed

theorem refl (hr : d.Ready r) : d.Passed r r where
  stays := hr.stays
  executed := ⟨hr.upright, rfl, .inr (.inr (by rw [hr.flow]; rfl)), by simp [hr.flow, Flow.start]⟩

theorem trans (h₁ : d.Passed r r') (h₂ : d.Passed r' r'') : d.Passed r r'' :=
  ⟨h₂.stays, { h₂.executed with depth := h₂.executed.depth.trans h₁.executed.depth }⟩

-- Behind a jump to a label or within a loop, the next statement may begin.
theorem resume (hp : d.Passed r r') (hr : d.Ready r) (hret : r'.flow.kind ≠ .returning)
    (hexit : r'.flow.kind ≠ .exiting) : d.Ready { r' with flow := r'.flow.withKind .next } := by
  have hres := (hp.executed.quiet.resolve_left hret).resolve_left hexit
  refine ⟨hp.executed.upright.congr, ?_, fun n hn => ?_⟩
  · rcases hfl : r'.flow with ⟨kind, result⟩
    rw [hfl] at hres
    cases hres
    rfl
  · exact Nat.le_trans (hr.level n hn) (Nat.le_of_eq hp.executed.depth.symm)

theorem ready (hp : d.Passed r r') (hr : d.Ready r) (hnext : r'.flow.kind = .next) : d.Ready r' := by
  have h := hp.resume hr (by simp [hnext]) (by simp [hnext])
  have hsame : r'.flow.withKind .next = r'.flow := by rw [← hnext]; rfl
  rwa [hsame] at h

end Passed

end Departure

namespace Departure.Out

theorem leaving (h : d.Out r r') : r'.flow.kind = .returning ∨ r'.flow.kind = .exiting := by
  rw [h.kind, Departure.kind]
  split
  · exact .inr rfl
  · exact .inl rfl

theorem not_next (h : d.Out r r') : r'.flow.isNext = false := by
  rcases h.leaving with hk | hk <;> simp [Flow.isNext, hk]

end Departure.Out

theorem Run.Interrupts.out {α : Type} {v : Option α} (h : r.Interrupts v r') (hd : d.level = none) :
    d.Out r r' :=
  ⟨h.exiting.trans (Departure.kind_of_none hd).symm, h.unwinds⟩

-- What a part may bind that brings no functions.
def Permit.names (scope : ScopeId) : Permit :=
  ⟨scope, fun _ => True, fun _ => False⟩

namespace Exec

-- A new scope has no functions.
theorem createChild_upright (hr : r.Upright) :
    Ensures (onStore (Store.createChild scope name)) r
      (fun n r' => Opened n r r' ∧ r'.Upright) (fun _ _ => True) := by
  have hopened : Ensures (onStore (Store.createChild scope name)) r _ _ := createChild_opened hr.fine
  rw [onStore_iff] at hopened ⊢
  refine (hopened.and (Store.createChild_ensures hr.fine.sound)).mono ?_ fun _ _ _ => trivial
  rintro n st ⟨⟨ho, -⟩, -, hc⟩
  obtain ⟨sc, -, hfuncs, -, hsc⟩ := hc.scope
  refine ⟨ho, ho.fine, (ho.follows hr.fine).anchored hr.anchored, fun {s sc' f} hsc' hin => ?_⟩
  by_cases heq : s = n
  · subst heq
    cases hsc.symm.trans hsc'
    simp [hfuncs] at hin
  · exact hr.fit ((ho.others s heq).symm.trans hsc') hin

end Exec

theorem Departs.withScope {f g : ScopeId → Exec Unit} (hr : d.Ready r)
    (hpart : ∀ n r₁, d.Ready r₁ → Departs d (d.Here r₁) (fun _ => d.Stays) (fun r₁ _ => d.Out r₁)
      (f n) (g n) r₁)
    (hmoves : ∀ n, ∃ P : Permit, P.scope = n ∧ Regular P (g n)) :
    Departs d (d.Here r) (fun _ => d.Stays) (fun r₁ _ => d.Out r₁) (Exec.withScope scope name f)
      (Exec.withScope scope name g) r := by
  refine .aside_bind .onStore hr.stays (Exec.createChild_upright hr.upright) ?_
  rintro n r₁ ⟨ho, hu⟩ hflow
  obtain ⟨P, hP, hreg⟩ := hmoves n
  have hr₁ : d.Ready r₁ := hr.of_upright hu hflow ho.depth
  refine (((hpart n r₁ hr₁).given (hreg r₁ hr₁.upright.fine)).mono (fun h => h.of_depth ho.depth)
    (fun _ _ h => h) fun _ _ _ _ _ h => h).attempt_bind ?_ ?_ ?_
  · rintro _ r₂ ⟨hstays, -⟩
    exact .jumpless (.leaveScope _) hstays
  · intro e r₂ hstays
    refine ((Fails.leaveScope r₂).and (Jumpless.leaveScope (.error e) r₂)).mono
      (fun _ _ h => h.1) fun _ _ h => ⟨h.2.1, hstays.of_jumpless h.2.2⟩
  · rintro r₀ _ r₂ - - ⟨⟨hkind, hunwinds⟩, hm⟩
    refine (Exec.leaveScope_unwinds (ho.moves hr.upright.fine hm hP) hr.upright.fine
      hr.upright.anchored hunwinds.hands.held).mono ?_ fun _ _ he => he
    rintro _ r₃ ⟨hu₃, hkind₃⟩
    exact ⟨hkind₃.trans hkind, hunwinds.trans hu₃⟩

namespace Interpreter

open Exec

section Lists

variable {s s' : Node → Exec Unit} {list : List Node}

theorem runStraight_departs (hs : ∀ node ∈ list, ∀ {r}, d.Ready r →
      Departs d (d.Here r) (fun _ => d.Passed r) (fun r₁ _ => d.Out r₁) (s node) (s' node) r)
    (hr : d.Ready r) :
    Departs d (d.Here r) (fun _ => d.Passed r) (fun r₁ left r' => left = true ∧ d.Out r₁ r')
      (runStraight s list) (runStraight s' list) r := by
  induction list generalizing r with
  | nil => exact .pure (.refl hr)
  | cons node rest ih =>
    unfold runStraight
    refine (hs node (List.mem_cons_self ..) hr).bind (fun _ r₁ hp => ?_) fun r₁ _ r₂ _ _ hout => ?_
    · simp only [isNext, bind_assoc, pure_bind]
      refine .flow_bind ?_
      split
      · rename_i hnext
        have hr₁ := hp.ready hr (by simpa [Flow.isNext] using hnext)
        exact (ih (fun m hm => hs m (List.mem_cons_of_mem _ hm)) hr₁).mono
          (fun h => h.of_depth hp.executed.depth) (fun _ _ h => hp.trans h) fun _ _ _ _ _ h => h
      · exact .pure hp
    · simp only [isNext, bind_assoc, pure_bind]
      rw [Ensures.bind_iff, flow_iff, hout.not_next]
      exact ⟨rfl, hout⟩

theorem runFrom_departs (hs : ∀ node ∈ list, ∀ {r}, d.Ready r →
      Departs d (d.Here r) (fun _ => d.Passed r) (fun r₁ _ => d.Out r₁) (s node) (s' node) r)
    (fuel : Nat) {rest : List Node} (hrest : ∀ n ∈ rest, n ∈ list) (hr : d.Ready r) :
    Departs d (d.Here r) (fun _ => d.Passed r) (fun r₁ _ => d.Out r₁) (runFrom s list fuel rest)
      (runFrom s' list fuel rest) r := by
  induction fuel generalizing rest r with
  | zero => exact .outOfFuel (by rw [hr.flow]; rfl)
  | succ fuel ih =>
    unfold runFrom
    refine (runStraight_departs (fun node hn => hs node (hrest node hn)) hr).bind
      (fun left r₁ hp => ?_) fun r₁ _ r₂ _ _ hout => ?_
    · split
      · refine .flow_bind ?_
        split
        · rename_i label hgoto
          split
          · rename_i target htarget
            have hr₁ := hp.resume hr (by simp [hgoto]) (by simp [hgoto])
            refine .setKind_bind ((ih (mem_of_afterLabel? htarget) hr₁).mono
              (fun h => h.of_depth hp.executed.depth) (fun _ _ h => ?_) fun _ _ _ _ _ h => h)
            exact ⟨h.stays, { h.executed with depth := h.executed.depth.trans hp.executed.depth }⟩
          · exact .setKind_bind (.fail (.of_kind (k := .failed) rfl (by simp)))
        · exact .pure hp
      · exact .pure hp
    · obtain ⟨rfl, hout⟩ := hout
      rw [if_pos rfl, Ensures.bind_iff, flow_iff]
      rcases hout.leaving with hk | hk <;> rw [hk] <;> exact hout

end Lists

section Statements

theorem defineFunction_aside : Aside (defineFunction node scope) :=
  Aside.ofExcept.bind fun _ => .onStore

variable {list : List Node} (h : Parts d i j)
include h

theorem Parts.statement (hn : node.Inner) (hr : d.Ready r) :
    Departs d (d.Here r) (fun _ => d.Passed r) (fun r₁ _ => d.Out r₁) (i.exec node scope)
      (j.exec node scope) r :=
  ((h.exec hn hr).given (exec_upright h.sound h.orderly hr.upright hr.flow hn)).mono id
    (fun _ _ h => ⟨h.1, h.2⟩) fun _ _ _ _ _ h => h.1

theorem runList_departs (fuel : Nat) (hn : ∀ n ∈ list, n.Inner) (hr : d.Ready r) :
    Departs d (d.Here r) (fun _ => d.Passed r) (fun r₁ _ => d.Out r₁) (runList i fuel list scope)
      (runList j fuel list scope) r :=
  runFrom_departs (fun node hm {_} hr => h.statement (hn node hm) hr) fuel (fun _ hm => hm) hr

-- An expression in a statement.
theorem Parts.operand (hr : d.Ready r) :
    Departs d (d.Here r) (fun v r' => d.Stays r' ∧ r.Valued v r')
      (fun r₁ v r' => v = none ∧ d.Out r₁ r') (i.eval node scope) (j.eval node scope) r :=
  (h.value hr).mono Departure.Here.of_none (fun _ _ h => h) fun _ _ _ _ hd h => ⟨h.empty, h.out hd⟩

theorem discardAll_departs (hr : d.Ready r) :
    Departs d (d.Here r) (fun _ => d.Stays) (fun r₁ _ => d.Out r₁) (discardAll i scope list)
      (discardAll j scope list) r := by
  induction list generalizing r with
  | nil => exact .pure hr.stays
  | cons node rest ih =>
    unfold discardAll
    refine (h.operand hr).bind ?_ ?_
    · rintro (_ | id) r₁ ⟨hstays, hv⟩
      · exact .pure hstays
      · have hr₁ := hv.ready hr
        refine .aside_bind .release hstays (release_still (E := fun _ _ => True)
          hr₁.upright.fine) fun _ r₂ hs _ => ?_
        exact (ih (hr₁.still hs.1)).mono (fun h => h.of_depth (hs.1.depth.trans hv.depth))
          (fun _ _ h => h) fun _ _ _ _ _ h => h
    · rintro r₁ _ r₂ - - ⟨rfl, hout⟩
      exact hout

theorem declareAll_departs (hr : d.Ready r) :
    Departs d (d.Here r) (fun _ => d.Stays) (fun r₁ _ => d.Out r₁) (declareAll i scope list)
      (declareAll j scope list) r := by
  induction list generalizing r with
  | nil => exact .pure hr.stays
  | cons node rest ih =>
    -- What is declared is no function.
    have hnext : ∀ {r₁ r₂ : Run}, d.Ready r₁ → r₁.machine.depth = r.machine.depth →
        Moves (.names scope) r₁ r₂ → r₂.flow = r₁.flow →
        Departs d (d.Here r) (fun _ => d.Stays) (fun r₁ _ => d.Out r₁) (declareAll i scope rest)
          (declareAll j scope rest) r₂ := fun hr₁ hdepth hm hflow =>
      (ih (hr₁.moves hm (fun _ => False.elim) hflow)).mono
        (fun h => h.of_depth (hm.depth.trans hdepth)) (fun _ _ h => h) fun _ _ _ _ _ h => h
    unfold declareAll
    refine .aside_bind .ofExcept hr.stays (P := fun _ r' => r' = r) (E := fun _ _ => True) ?_ ?_
    · rcases declarator node with f | v
      · exact trivial
      · exact (ofExcept_ok rfl).mpr rfl
    rintro ⟨name, init⟩ r₁ rfl -
    cases init with
    | none =>
      simp only [← bind_assoc]
      refine .aside_bind (Aside.onHeap.bind fun _ => .onStore) hr.stays
        (null_declare_moves (P := .names scope) hr.upright.fine rfl trivial) fun _ r₂ hm hflow => ?_
      exact hnext hr rfl hm hflow
    | some e =>
      refine (h.operand hr).bind ?_ ?_
      · rintro (_ | id) r₂ ⟨hstays, hv⟩
        · exact .pure hstays
        · have hr₂ := hv.ready hr
          simp only [← bind_assoc]
          refine .aside_bind (Aside.own.bind fun _ => .onStore) hstays
            (own_declare_moves (P := .names scope) hr.upright.fine (hv.value id rfl).1 rfl trivial
              (hv.value id rfl).2.1) fun _ r₃ hm hflow => ?_
          exact hnext hr rfl hm (hflow.trans (hr₂.flow.trans hr.flow.symm))
      · rintro r₂ _ r₃ - - ⟨rfl, hout⟩
        exact hout

theorem evalCondition_departs (hr : d.Ready r) :
    Departs d (d.Here r) (fun b r' => d.Stays r' ∧ ∀ t, b = some t → d.Ready r' ∧
        r'.machine.depth = r.machine.depth)
      (fun r₁ b r' => b = none ∧ d.Out r₁ r') (evalCondition i node scope)
      (evalCondition j node scope) r := by
  unfold evalCondition
  refine (h.operand hr).bind ?_ ?_
  · rintro (_ | id) r₁ ⟨hstays, hv⟩
    · exact .pure ⟨hstays, nofun⟩
    · have hr₁ := hv.ready hr
      refine .get_bind (.aside_bind .release hstays (release_still (E := fun _ _ => True)
        hr₁.upright.fine) fun _ r₂ hs _ => ?_)
      have hr₂ := hr₁.still hs.1
      generalize r₁.machine.store.heap.toBool id = truth
      cases truth with
      | error f => exact .same ⟨⟨_, rfl⟩, hr₂.stays⟩
      | ok b => exact .pure ⟨hr₂.stays, fun _ _ => ⟨hr₂, hs.1.depth.trans hv.depth⟩⟩
  · rintro r₁ _ r₂ - - ⟨rfl, hout⟩
    exact ⟨rfl, hout⟩

theorem execBranches_departs (hn : ∀ n ∈ list, n.Inner) (hr : d.Ready r) :
    Departs d (d.Here r) (fun _ => d.Stays) (fun r₁ _ => d.Out r₁) (execBranches i scope list)
      (execBranches j scope list) r := by
  induction list using execBranches.induct generalizing r with
  | case1 => exact .pure hr.stays
  | case2 => exact .fail hr.stays
  | case3 condition body rest ih =>
    unfold execBranches
    refine (evalCondition_departs h hr).bind ?_ ?_
    · rintro (_ | b) r₁ ⟨hstays, hready⟩
      · exact .pure hstays
      · obtain ⟨hr₁, hdepth⟩ := hready b rfl
        cases b with
        | true =>
          exact (h.exec (hn body (by simp)) hr₁).mono (fun h => h.of_depth hdepth)
            (fun _ _ h => h) fun _ _ _ _ _ h => h
        | false =>
          exact (ih (fun n hm => hn n (by simp [hm])) hr₁).mono (fun h => h.of_depth hdepth)
            (fun _ _ h => h) fun _ _ _ _ _ h => h
    · rintro r₁ _ r₂ - - ⟨rfl, hout⟩
      exact hout

theorem continues_departs (hr : d.Ready r) :
    Departs d (d.Here r) (fun b r' => d.Stays r' ∧ ∀ t, b = some t → d.Ready r' ∧
        r'.machine.depth = r.machine.depth)
      (fun r₁ b r' => b = none ∧ d.Out r₁ r') (continues i node scope) (continues j node scope) r := by
  unfold continues
  split
  · exact .pure ⟨hr.stays, fun _ _ => ⟨hr, rfl⟩⟩
  · exact evalCondition_departs h hr

-- A `break` or `continue` is done behind the body of its loop, and nothing else is.
theorem execBody_departs (hn : node.Inner) (hr : d.Ready r) :
    Departs d (d.Here r) (fun again r' => d.Stays r' ∧ (again = true → d.Ready r' ∧
        r'.machine.depth = r.machine.depth))
      (fun r₁ again r' => again = false ∧ d.Out r₁ r') (execBody i node scope)
      (execBody j node scope) r := by
  unfold execBody
  refine (h.statement hn hr).bind (fun _ r₁ hp => .flow_bind ?_) fun r₁ _ r₂ _ _ hout => ?_
  · split
    · rename_i hkind
      exact .pure ⟨hp.stays, fun _ => ⟨hp.ready hr hkind, hp.executed.depth⟩⟩
    · rename_i hkind
      have hr₁ := hp.resume hr (by simp [hkind]) (by simp [hkind])
      exact .setKind_bind (.pure ⟨hr₁.stays, fun _ => ⟨hr₁, hp.executed.depth⟩⟩)
    · rename_i hkind
      have hr₁ := hp.resume hr (by simp [hkind]) (by simp [hkind])
      exact .setKind_bind (.pure ⟨hr₁.stays, nofun⟩)
    · exact .pure ⟨hp.stays, nofun⟩
  · rw [Ensures.bind_iff, flow_iff]
    rcases hout.leaving with hk | hk <;> rw [hk] <;> exact ⟨rfl, hout⟩

theorem iterate_departs {condition body : Node} {step : Option Node} (hbody : body.Inner)
    (hstep : ∀ n ∈ step, n.Inner) (fuel : Nat) (hr : d.Ready r) :
    Departs d (d.Here r) (fun _ => d.Stays) (fun r₁ _ => d.Out r₁)
      (iterate i condition body step scope fuel) (iterate j condition body step scope fuel) r := by
  induction fuel generalizing r with
  | zero => exact .outOfFuel (by rw [hr.flow]; rfl)
  | succ fuel ih =>
    have hnext : ∀ {r' : Run}, d.Ready r' → r'.machine.depth = r.machine.depth →
        Departs d (d.Here r) (fun _ => d.Stays) (fun r₁ _ => d.Out r₁)
          (iterate i condition body step scope fuel) (iterate j condition body step scope fuel) r' :=
      fun hr' hdepth => (ih hr').mono (fun h => h.of_depth hdepth) (fun _ _ h => h)
        fun _ _ _ _ _ h => h
    unfold iterate
    refine (continues_departs h hr).bind ?_ ?_
    · rintro b r₁ ⟨hstays, hready⟩
      split
      swap
      · exact .pure hstays
      rename_i hb
      obtain ⟨hr₁, hdepth⟩ := hready true (by simpa using hb)
      refine ((execBody_departs h hbody hr₁).mono (fun h => h.of_depth hdepth) (fun _ _ h => h)
        fun _ _ _ _ _ h => h).bind ?_ ?_
      · rintro again r₂ ⟨hstays₂, hready₂⟩
        split
        swap
        · exact .pure hstays₂
        obtain ⟨hr₂, hdepth₂⟩ := hready₂ ‹_›
        cases step with
        | none => exact hnext hr₂ (hdepth₂.trans hdepth)
        | some node =>
          refine ((h.statement (hstep node rfl) hr₂).mono
            (fun h => h.of_depth (hdepth₂.trans hdepth)) (fun _ _ h => h) fun _ _ _ _ _ h => h).bind
            (fun _ r₃ hp => ?_) fun r₃ _ r₄ _ _ hout => ?_
          · simp only [isNext, bind_assoc, pure_bind]
            refine .flow_bind ?_
            split
            · rename_i hkind
              have hr₃ := hp.ready hr₂ (by simpa [Flow.isNext] using hkind)
              exact hnext hr₃ (hp.executed.depth.trans (hdepth₂.trans hdepth))
            · exact .pure hp.stays
          · simp only [isNext, bind_assoc, pure_bind]
            rw [Ensures.bind_iff, flow_iff, hout.not_next]
            exact hout
      · rintro r₂ _ r₃ - - ⟨rfl, hout⟩
        exact hout
    · rintro r₁ _ r₂ - - ⟨rfl, hout⟩
      exact hout

theorem execLoop_departs (fuel : Nat) (hn : node.Inner) (hr : d.Ready r) :
    Departs d (d.Here r) (fun _ => d.Stays) (fun r₁ _ => d.Out r₁) (execLoop i fuel node scope)
      (execLoop j fuel node scope) r := by
  have hrule := hn.loopRule
  unfold Node.LoopRule at hrule
  unfold execLoop
  split
  swap
  · exact .fail hr.stays
  rename_i head body hparts
  rw [hparts] at hrule
  obtain ⟨hbody, hrule⟩ := hrule
  refine .withScope hr (fun n r₁ hr₁ => ?_) fun n => ⟨_, rfl, loop_regular h.orderly fuel⟩
  rcases hslots : loopHead node.keyword? head with f | slots
  · exact .same ⟨⟨_, rfl⟩, hr₁.stays⟩
  simp only [hslots] at hrule
  obtain ⟨-, hstart, hstep⟩ := hrule
  obtain ⟨start, condition, step⟩ := slots
  cases start with
  | none => exact iterate_departs h hbody hstep fuel hr₁
  | some first =>
    refine (h.statement (hstart first rfl) hr₁).bind (fun _ r₂ hp => ?_) fun r₂ _ r₃ _ _ hout => ?_
    · simp only [isNext, bind_assoc, pure_bind]
      refine .flow_bind ?_
      split
      · rename_i hkind
        have hr₂ := hp.ready hr₁ (by simpa [Flow.isNext] using hkind)
        exact (iterate_departs h hbody hstep fuel hr₂).mono (fun h => h.of_depth hp.executed.depth)
          (fun _ _ h => h) fun _ _ _ _ _ h => h
      · exact .pure hp.stays
    · simp only [isNext, bind_assoc, pure_bind]
      rw [Ensures.bind_iff, flow_iff, hout.not_next]
      exact hout

theorem execStatement_departs (fuel : Nat) (hn : ∀ n ∈ node.children, n.Inner) (hr : d.Ready r) :
    Departs d (d.Here r) (fun _ => d.Stays) (fun r₁ _ => d.Out r₁)
      (execStatement i fuel node scope) (execStatement j fuel node scope) r := by
  unfold execStatement
  split
  · exact .withScope hr (fun n r₁ hr₁ => (runList_departs h fuel hn hr₁).imp fun _ _ hp => hp.stays)
      fun n => ⟨_, rfl, runList_regular h.orderly fuel⟩
  split
  · exact discardAll_departs h hr
  · exact (runList_departs h fuel hn hr).imp fun _ _ hp => hp.stays

theorem execLeave_departs {kind : FlowKind} (hr : d.Ready r) :
    Departs d (d.Here r) (fun _ _ => True) (fun r₁ _ => d.Out r₁) (execLeave i node kind scope)
      (execLeave j node kind scope) r := by
  unfold execLeave
  split
  · exact .setKind
  refine (h.operand hr).bind ?_ ?_
  · rintro (_ | id) r₁ ⟨hstays, -⟩
    · exact .pure trivial
    · exact (Departs.of_jumpless (S := fun _ _ _ => False) .setResult hstays).bind (fun _ _ _ => .setKind)
        fun _ _ _ _ _ => False.elim
  · rintro r₁ _ r₂ - - ⟨rfl, hout⟩
    exact hout

theorem execJump_departs (hr : d.Ready r) :
    Departs d (d.Here r) (fun _ _ => True) (fun r₁ _ => d.Out r₁) (execJump i node scope)
      (execJump j node scope) r := by
  unfold execJump
  split
  · split
    · exact .setKind
    · exact .fail hr.stays
  · exact execLeave_departs h hr
  · exact execLeave_departs h hr
  · exact .setKind
  · exact .setKind
  · exact .fail hr.stays

theorem execBare_departs (hr : d.Ready r) :
    Departs d (d.Here r) (fun _ => d.Stays) (fun r₁ _ => d.Out r₁) (execBare i node scope)
      (execBare j node scope) r := by
  unfold execBare
  refine (h.operand hr).bind ?_ ?_
  · rintro (_ | id) r₁ ⟨hstays, -⟩
    · exact .pure hstays
    · exact .jumpless Aside.release.located.jumpless hstays
  · rintro r₁ _ r₂ - - ⟨rfl, hout⟩
    exact hout

-- Whatever statements are around it, the jump leads out of them.
theorem execNode_departs (fuel : Nat) (hn : node.Inner) (hr : d.Ready r) :
    Departs d (d.Here r) (fun _ _ => True) (fun r₁ _ => d.Out r₁) (execNode i fuel node scope)
      (execNode j fuel node scope) r := by
  have hchildren : ∀ n ∈ node.children, n.Inner := fun n => hn.child
  have hover : ∀ {x y : Exec Unit}, Departs d (d.Here r) (fun _ => d.Stays) (fun r₁ _ => d.Out r₁)
      x y r → Departs d (d.Here r) (fun _ _ => True) (fun r₁ _ => d.Out r₁) x y r := fun hx =>
    hx.imp fun _ _ _ => trivial
  unfold execNode
  split
  · exact (hover (execStatement_departs h fuel hchildren hr)).located
  · exact (hover (declareAll_departs h hr)).located
  · exact (Departs.of_jumpless (Aside.jumpless defineFunction_aside) hr.stays).located
  · exact (hover (execBranches_departs h hchildren hr)).located
  · exact (hover (execLoop_departs h fuel hn hr)).located
  · exact .pure trivial
  · exact (execJump_departs h hr).located
  · exact absurd ‹_› hn.not_program
  · exact hover (execBare_departs h hr)
  · exact hover (execBare_departs h hr)

end Statements

end Interpreter

end FinLang

import FinLang.Proofs.Machine.Departure

namespace FinLang

variable {α : Type}

namespace Run

-- An `exit` goes through, with what it takes along.
structure Interrupts (r : Run) (v : Option α) (r' : Run) : Prop where
  empty : v = none
  exiting : r'.flow.kind = .exiting
  unwinds : r.Unwinds r'

-- The same when what waited has been let go of.
structure Abandons (r : Run) (v : Option α) (r' : Run) : Prop where
  empty : v = none
  exiting : r'.flow.kind = .exiting
  drifts : r.Drifts r'

end Run

namespace Departure

-- On the way out to the place that the jump leads to.
structure Out (d : Departure) (r r' : Run) : Prop where
  kind : r'.flow.kind = d.kind
  unwinds : r.Unwinds r'

-- Behind a statement.
structure Passed (d : Departure) (r r' : Run) : Prop where
  stays : d.Stays r'
  executed : r.Executed r'

-- Where a `return` is the one that is looked for.
def Here (d : Departure) (r : Run) : Prop :=
  ∀ n ∈ d.level, n = r.machine.depth

end Departure

-- An interpreter that is stopped at the jump, and one that goes on.
structure Interpreter.Parts (d : Departure) (i j : Interpreter) : Prop where
  sound : j.Sound .lenient
  orderly : j.Orderly d.ok
  eval : ∀ {r node scope}, d.Ready r →
    Departs d (d.level = none) (fun _ => d.Stays) Run.Interrupts (i.eval node scope)
      (j.eval node scope) r
  exec : ∀ {r node scope}, node.Inner → d.Ready r →
    Departs d (d.Here r) (fun _ => d.Stays) (fun r₁ _ => d.Out r₁) (i.exec node scope)
      (j.exec node scope) r
  call : ∀ {r f args caller}, f.Fit .lenient → args.Fit .lenient (r.heap.Temps nothing) caller r →
    args.Bound r → r.Upright → r.flow = .start → (∀ n ∈ d.level, n ≤ r.machine.depth + 1) →
    Departs d (∀ n ∈ d.level, n = r.machine.depth + 1) (fun _ => d.Stays)
      (fun r₁ _ r' => r'.flow.kind = d.settled ∧ r₁.Unwinds r') (i.call f args caller)
      (j.call f args caller) r

variable {d : Departure} {N : Prop} {x y : Exec Unit} {r r₁ r' : Run} {scope : ScopeId}
  {i j : Interpreter} {node : Node} {nodes : List Node} {v : Option α}

theorem Run.Valued.ready {a : VarId} (h : r.Valued (some a) r') (hr : d.Ready r) : d.Ready r' :=
  hr.still (h.value a rfl).1

-- Nothing has travelled before.
theorem Exec.setResults_start {o : Option VarId} {Q : Unit → Run → Prop} {E : Halt → Run → Prop}
    (hres : r.flow.result = none) :
    Ensures (o.forM Exec.setResult) r Q E ↔ Q () { r with flow := { r.flow with result := o } } := by
  cases o with
  | none =>
    have hsame : ({ r with flow := { r.flow with result := none } } : Run) = r := by rw [← hres]
    rw [hsame]
    exact Iff.rfl
  | some x => exact setResult_start hres

namespace Departs

-- A part with a flow of its own leaves the other flow alone.
theorem withFreshFlow (hflow : r.flow = .start)
    (hx : Departs d N (fun _ => d.Stays) (fun r₁ _ r' => r'.flow.kind = d.settled ∧ r₁.Unwinds r')
      x y r) :
    Departs d N (fun ended r' => d.Stays r' ∧ (d.level = none → ended.isExit = false))
      (fun r₁ ended r' => r'.flow = .start ∧ ended.kind = d.settled ∧
        r₁.Unwinds { r' with flow := ended })
      (Exec.withFreshFlow x) (Exec.withFreshFlow y) r := by
  have hsame : ({ r with flow := .start } : Run) = r := by rw [← hflow]
  have hback : ∀ r' : Run, d.Stays { r' with flow := r.flow } := fun r' =>
    .of_kind (k := .next) (by rw [hflow]; rfl) nofun
  refine .flow_bind (.setFlow_bind ?_)
  rw [hsame]
  refine hx.attempt_bind (fun _ r' hs => ?_) (fun e r' hs => ?_) fun r₁ _ r' hl _ h => ?_
  · exact .flow_bind (.setFlow_bind (.pure ⟨hback r', fun hd => by
      simpa [Flow.isExit] using hs hd⟩))
  · exact Ensures.bind_iff.mpr (Exec.setFlow_iff.mpr ⟨⟨_, rfl⟩, hback r'⟩)
  · exact ⟨hflow, h.1, h.2⟩

end Departs

namespace Interpreter

open Exec

section Expressions

theorem evalSingle_aside : Aside (evalSingle node scope) := by
  unfold evalSingle
  split
  · exact .fail
  split
  · exact .onHeap
  · exact .onHeap
  · exact .onHeap
  · refine Aside.get.bind fun _ => ?_
    split
    · exact .pure
    · exact Aside.fail.located
  · exact Aside.fail.located

variable (h : Parts d i j) (hr : d.Ready r)
include h hr

theorem Parts.value :
    Departs d (d.level = none) (fun v r' => d.Stays r' ∧ r.Valued v r') Run.Interrupts
      (i.eval node scope) (j.eval node scope) r :=
  ((h.eval hr).given (eval_upright h.sound h.orderly hr.upright hr.flow)).mono id
    (fun _ _ h => h) fun _ _ _ _ _ h => h.1

theorem evalItems_departs (items : List Node) {last : Option VarId} :
    Departs d (d.level = none) (fun _ _ => True) Run.Abandons (evalItems i scope last items)
      (evalItems j scope last items) r := by
  induction items generalizing last r with
  | nil =>
    unfold evalItems
    cases last with
    | some id => exact .pure trivial
    | none => exact .of_jumpless Aside.allocNull.jumpless hr.stays
  | cons item rest ih =>
    have hrelease : Aside (last.forM release) := .option fun _ => .release
    unfold evalItems
    refine ((h.value hr).onFailure hrelease).bind ?_ ?_
    · rintro (_ | id) r₁ ⟨hstays, hv⟩
      · have hleave : Jumpless (do
            if last != none then
              last.forM release
            return (none : Option VarId)) := by
          split
          · exact (hrelease.bind fun _ => .pure).jumpless
          · exact Aside.pure.jumpless
        exact .of_jumpless hleave hstays
      · have hr₁ := hv.ready hr
        simp only
        split
        · refine .aside_bind hrelease hstays (releaseOption_still (E := fun _ _ => True)
            hr₁.upright.fine) fun _ r₂ hs _ => ?_
          exact ih (hr₁.still hs)
        · exact ih hr₁
    · rintro r₁ _ r₂ - - ⟨rfl, hexit, hu⟩
      simp only
      split
      · rw [Ensures.bind_iff]
        refine (releaseOption_drifts hu).mono ?_ fun _ _ he => he
        rintro _ r₃ ⟨hd, hflow⟩
        exact ⟨rfl, hflow ▸ hexit, hd⟩
      · exact ⟨rfl, hexit, hu.drifts⟩

theorem pushItems_departs (items : List Node) {array : VarId} (hopen : r.heap.Open array) :
    Departs d (d.level = none) (fun _ _ => True) Run.Abandons (pushItems i scope array items)
      (pushItems j scope array items) r := by
  induction items generalizing r with
  | nil => exact .pure trivial
  | cons item rest ih =>
    unfold pushItems
    refine ((h.value hr).onFailure .release).bind ?_ ?_
    · rintro (_ | value) r₁ ⟨hstays, hv⟩
      · exact .of_jumpless (Aside.release.bind fun _ => .pure).jumpless hstays
      · obtain ⟨hq, hvalue, -⟩ := hv.value value rfl
        refine .aside_bind .own hstays (own_beside hr.upright.fine hq hvalue hopen) ?_
        rintro item r₂ ⟨⟨hq₂, -⟩, hd, hopen₂, hne⟩ -
        have hr₂ := hr.still hq₂
        refine .aside_bind .onHeap hr₂.stays (pushElement_still hr₂.upright.fine hopen₂ hd hne) ?_
        rintro _ r₃ ⟨hs, hopen₃⟩ -
        exact ih (hr₂.still hs) hopen₃
    · rintro r₁ _ r₂ - - ⟨rfl, hexit, hu⟩
      simp only
      rw [Ensures.bind_iff]
      refine (release_drifts hu).mono ?_ fun _ _ he => he
      rintro _ r₃ ⟨hd, hflow⟩
      exact ⟨rfl, hflow ▸ hexit, hd⟩

theorem evalOperands_departs (nodes : List Node) {operands : List VarId} :
    Departs d (d.level = none) (fun ops r' => d.Stays r' ∧ ∀ l, ops = some l → d.Ready r')
      Run.Abandons (evalOperands i scope operands nodes) (evalOperands j scope operands nodes) r := by
  induction nodes generalizing operands r with
  | nil => exact .pure ⟨hr.stays, fun _ _ => hr⟩
  | cons node rest ih =>
    unfold evalOperands
    refine ((h.value hr).onFailure .onHeap).bind ?_ ?_
    · rintro (_ | value) r₁ ⟨hstays, hv⟩
      · exact .aside_bind (P := fun _ _ => True) (E := fun _ _ => True) .onHeap hstays .trivially
          fun _ r₂ _ hflow => .pure ⟨hstays.of_flow hflow, by simp⟩
      · have hr₁ := hv.ready hr
        refine .flow_bind ?_
        rw [hr₁.flow]
        exact ih hr₁
    · rintro r₁ _ r₂ - - ⟨rfl, hexit, hu⟩
      simp only
      rw [Ensures.bind_iff]
      refine (releaseAll_drifts hu).mono ?_ fun _ _ he => he
      rintro _ r₃ ⟨hd, hflow⟩
      exact ⟨rfl, hflow ▸ hexit, hd⟩

theorem evalOperator_departs {op : Operator} :
    Departs d (d.level = none) (fun _ _ => True) Run.Abandons (evalOperator i op nodes scope)
      (evalOperator j op nodes scope) r := by
  unfold evalOperator
  refine (evalOperands_departs h hr nodes).bind ?_ ?_
  · rintro (_ | reversed) r₁ ⟨hstays, hready⟩
    · exact .pure trivial
    · have happly : Aside (do
          let result ← attempt (onHeap (Operation.calculate op reversed.reverse))
          reversed.reverse.forM fun id => if some id = result.toOption then pure () else release id
          return some (← ofExcept result)) := by
        refine Aside.onHeap.attempt.bind fun result => (Aside.forM (fun id => ?_) _).bind fun _ =>
          Aside.ofExcept.bind fun _ => .pure
        split
        · exact .pure
        · exact .release
      exact .of_jumpless happly.jumpless hstays
  · rintro r₁ _ r₂ - - ⟨rfl, hexit, hd⟩
    exact ⟨rfl, hexit, hd⟩

-- A call with a flow of its own. No `return` is looked for as far in as the called function.
theorem Parts.freshCall {f : Function} {args : Arguments} (hf : f.Fit .lenient)
    (hfit : args.Fit .lenient (r.heap.Temps nothing) scope r) (hargs : args.Bound r) :
    Departs d (d.level = none) (fun ended r' => d.Stays r' ∧ (d.level = none → ended.isExit = false))
      (fun r₁ ended r' => r'.flow = .start ∧ ended.kind = .exiting ∧
        r₁.Unwinds { r' with flow := ended })
      (withFreshFlow (i.call f args scope)) (withFreshFlow (j.call f args scope)) r := by
  have hcall := h.call hf hfit hargs hr.upright hr.flow fun n hn => Nat.le_succ_of_le (hr.level n hn)
  have hfresh := (hcall.mono hr.level_none (fun _ _ h => h) fun _ _ _ _ _ h => h).withFreshFlow hr.flow
  refine hfresh.mono id (fun _ _ h => h) ?_
  rintro r₁ ended r' - hd ⟨hflow, hkind, hu⟩
  exact ⟨hflow, hkind.trans (Departure.settled_of_none hd), hu⟩

-- An `exit` in the called function goes on from the call with what it takes along.
theorem evalCall_departs :
    Departs d (d.level = none) (fun _ _ => True) Run.Abandons (evalCall i node scope)
      (evalCall j node scope) r := by
  unfold evalCall
  split
  swap
  · exact .fail hr.stays
  rename_i callee args _
  split
  · exact .fail hr.stays
  refine .get_bind ?_
  split
  · exact .fail hr.stays
  rename_i f hfind
  have hfit : (Arguments.nodes args.children).Fit .lenient (r.heap.Temps nothing) scope r :=
    fun _ _ => trivial
  refine (Parts.freshCall h hr (hr.upright.fit_of_find hfind) hfit trivial).bind ?_ ?_
  · rintro ended r₁ ⟨hstays, hended⟩
    split
    · rename_i hexit
      have hlevel : d.level ≠ none := fun hd => by
        cases (hended hd).symm.trans hexit
      refine .setKind_bind ?_
      exact .of_jumpless (Jumpless.setResults.bind fun _ => Aside.pure.jumpless) fun hd => absurd hd hlevel
    · split
      · exact .pure trivial
      · exact .of_jumpless Aside.allocNull.jumpless hstays
  · rintro r₁ ⟨kind, result⟩ r₂ - - ⟨hflow, hkind, hu⟩
    cases hkind
    simp only [Flow.isExit, beq_self_eq_true, if_true]
    rw [Ensures.bind_iff, setKind_iff, Ensures.bind_iff]
    exact (setResults_start (by rw [hflow]; rfl)).mpr ⟨rfl, rfl, hu.drifts⟩

-- Whatever waits for the rest of an expression, an `exit` goes through.
theorem evalNode_departs :
    Departs d (d.level = none) (fun _ _ => True) Run.Abandons (evalNode i node scope)
      (evalNode j node scope) r := by
  unfold evalNode
  split
  · exact .of_jumpless (Aside.bind evalSingle_aside fun _ => .pure).jumpless hr.stays
  · unfold evalExpression
    split
    · exact .of_jumpless (Aside.onHeap.bind fun _ => .pure).jumpless hr.stays
    split
    · exact .fail hr.stays
    refine .located ?_
    split
    · exact evalItems_departs h hr _
    · unfold buildArray
      refine .aside_bind .onHeap hr.stays (alloc_open hr.upright.fine) ?_
      rintro array r₁ ⟨hq, -, hopen⟩ -
      exact pushItems_departs h (hr.still hq) _ hopen
    · exact evalCall_departs h hr
    · exact evalOperator_departs h hr
  · exact .fail hr.stays

end Expressions

end Interpreter

end FinLang

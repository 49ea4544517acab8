import FinLang.Proofs.Machine.Fuel
import FinLang.Proofs.Machine.Jumps
import FinLang.Proofs.Machine.Moments

namespace FinLang

-- Within a parsed tree no program stands below another node.
theorem Parsed.inner {S : Token → Prop} {role : Role} {n : Node} (h : Parsed S role n) : n.Inner := by
  induction h with
  | token | always | slotWord | strayWord | stop | label => exact .mk (by rintro ⟨⟩) (by rintro _ ⟨⟩)
  | leading | trailing | infixed | call | access | goto | expression | whileLoop =>
    refine .mk (by rintro ⟨⟩) ?_
    simp [Node.expression, *]
  | group _ _ ih | list _ _ ih | block _ _ ih | leave _ _ _ ih => exact .mk (by rintro ⟨⟩) ih
  | declaration _ _ _ ih => exact .mk (by rintro ⟨⟩) ih
  | item | strayDeclaration | slot | slotDeclaration | condition => assumption
  | branch _ _ _ hc hb =>
    refine .mk (by rintro ⟨⟩) fun c hm => ?_
    obtain ⟨p, hp, hm⟩ := List.mem_flatMap.mp hm
    rcases List.mem_pair.mp hm with rfl | rfl
    · exact hc p hp
    · exact hb p hp
  | @forLoop _ opening start condition step _ _ _ _ _ _ _ _ hstart hcondition hstep hbody =>
    have hhead : Node.Inner (.expression opening [start, condition, step]) :=
      .mk (by rintro ⟨⟩) (by simp [Node.expression, *])
    exact .mk (by rintro ⟨⟩) (by simp [*])
  | @function _ opening params _ _ _ _ _ _ _ _ hname hparams hbody =>
    have hhead : Node.Inner (.expression opening params) := .mk (by rintro ⟨⟩) hparams
    exact .mk (by rintro ⟨⟩) (by simp [*])

theorem Function.Fit.lenient {f : Function} (hf : f.Fit .free) : f.Fit .lenient := by
  rcases hbody : f.body with block | native <;> simp only [Function.Fit, hbody] at hf ⊢
  · exact fun c hc => (hf c hc).elim Parsed.inner Parsed.inner
  · exact hf

theorem Discipline.lenient_runs (source : String) :
    Interpreter.Runs .lenient (Tree.parse source) where
  clean := .inr fun _ => trivial
  program := (free_runs source).program
  statements hfine n hn := ((free_runs source).statements hfine n hn).elim Parsed.inner Parsed.inner

variable {d : Departure} {ok : Point → Run → Bool} {r r₀ r₁ r' : Run} {n scope : ScopeId}
  {i j self : Interpreter} {node : Node} {x : VarId} {o : Option VarId} {E : Halt → Run → Prop}
  {list : List Node} {tree : Tree}

-- Between two programs a machine holds together.
theorem Machine.Reached.upright {config : Config} {calls : List HostCall} {m : Machine}
    (h : Machine.Reached config calls m) : m.idle.Upright := by
  obtain ⟨hf, -, ha⟩ := (Run.Arises.of_reached h .start none).follows
  exact ⟨hf, ha, fun hsc hin => (h.rests.1.fit hsc hin).lenient⟩

namespace Interpreter

open Exec

theorem keepLast_still (hf : r.Fine) :
    Ensures (keepLast x) r (fun _ r' => ∃ J, Still J ⟨r.machine, r.flow, some x⟩ r') E := by
  have hf₁ : Run.Fine ⟨r.machine, r.flow, some x⟩ := ⟨hf.sound, hf.depth⟩
  rw [keepLast, Ensures.bind_iff, Ensures.get_iff, Ensures.bind_iff, Ensures.modify_iff]
  split
  · exact (releaseOption_still hf₁).mono (fun _ _ hs => ⟨_, hs⟩) fun _ _ he => he
  · exact ⟨fun _ => True, .refl hf₁⟩

theorem keepLast_aside : Aside (keepLast x) := by
  refine Aside.get.bind fun s => Aside.last.bind fun _ => ?_
  split
  · exact .option fun _ => .release
  · exact .pure

-- A program that has been left by an `exit`.
structure Exited (r : Run) (o : Outcome) (r' : Run) : Prop where
  fine : r'.Fine
  recedes : r.Recedes r'
  completion : o.completion = .exited
  value : ∀ x ∈ r.flow.result, r.heap.toValue x = .ok o.value

section Programs

variable (h : Parts d i j)
include h

theorem topStatement_departs (hn : node.Inner) (hr : d.Ready r) :
    Departs d (d.Here r) (fun _ => d.Passed r) (fun r₁ _ => d.Out r₁) (topStatement i scope node)
      (topStatement j scope node) r := by
  unfold topStatement
  split
  · refine (h.operand hr).located.bind ?_ ?_
    · rintro (_ | x) r₁ ⟨hstays, hv⟩
      · have hexit := hv.exit rfl
        exact .pure ⟨hstays, hv.upright, hv.depth, .inr (.inl hexit), fun hk => by
          cases hk.symm.trans hexit⟩
      · have hr₁ := hv.ready hr
        refine (Departs.aside (S := fun _ _ _ => False) keepLast_aside hstays
          (keepLast_still (E := fun _ _ => True) hr₁.upright.fine)).mono id ?_
            fun _ _ _ _ _ => False.elim
        rintro _ r₂ ⟨⟨J, hs⟩, hflow⟩
        have hr₂ : d.Ready r₂ := Departure.Ready.of_upright hr₁ (hr₁.upright.congr.still hs) hflow
          hs.depth
        have hp := Departure.Passed.refl hr₂
        exact ⟨hp.stays, { hp.executed with depth := hs.depth.trans hv.depth }⟩
    · rintro r₁ _ r₂ - - ⟨rfl, hout⟩
      exact hout
  · exact h.statement hn hr

end Programs

-- What travelled is what the program gives back.
theorem readOutcome_exited (hu : r.Unwinds r') (hexit : r'.flow.kind = .exiting) :
    Ensures readOutcome r' (fun o r'' => r'' = r' ∧ o.completion = .exited ∧
      ∀ x ∈ r.flow.result, r.heap.toValue x = .ok o.value) E := by
  have hcompletion : completionOf r'.flow = .exited := by simp [completionOf, Flow.isExit, hexit]
  have hhands := hu.hands
  rw [readOutcome, Ensures.bind_iff, Ensures.get_iff]
  simp only
  rcases hres : r'.flow.result with _ | y
  · have hnone := hhands.eq_none_iff.mp hres
    rw [show (none <|> r'.last) = r'.last from rfl]
    split
    · split
      · rename_i id _ hlive
        obtain ⟨value, hvalue⟩ := hu.fine.sound.heap.toValue_ok (Heap.contains_iff.mp hlive)
        exact Ensures.bind_iff.mpr ((ofExcept_ok hvalue).mpr ⟨rfl, hcompletion, by simp [hnone]⟩)
      · exact ⟨rfl, hcompletion, by simp [hnone]⟩
    · exact ⟨rfl, hcompletion, by simp [hnone]⟩
  · rw [hres] at hhands
    generalize r.flow.result = o at hhands
    cases hhands with
    | some hy =>
      obtain ⟨hheld, hsame⟩ := hy
      obtain ⟨value, hvalue⟩ := hu.fine.sound.heap.toValue_ok hheld.live
      rw [show (some y <|> r'.last) = some y from rfl]
      simp only [Heap.contains_iff.mpr hheld.live, if_true]
      refine Ensures.bind_iff.mpr ((ofExcept_ok hvalue).mpr ⟨rfl, hcompletion, ?_⟩)
      rintro _ ⟨⟩
      exact hsame.symm.trans hvalue

theorem readOutcome_aside : Aside readOutcome := by
  refine Aside.get.bind fun _ => ?_
  dsimp only
  split
  · split
    · exact Aside.ofExcept.bind fun _ => .pure
    · exact Aside.pure.bind fun _ => .pure
  · exact Aside.pure.bind fun _ => .pure

-- What a program kept is let go of behind it.
def settle (outcome : Except Failure Outcome) : Exec Outcome := do
  (← takeResult).forM release
  (← get).last.forM release
  Exec.ofExcept outcome

theorem runProgram_eq (fuel : Nat) :
    runProgram self fuel list scope = attempt (do
      runFrom (topStatement self scope) list fuel list
      leaveBody
      readOutcome) >>= settle := rfl

theorem settle_fails (f : Failure) : Fails (settle (.error f)) :=
  .bind fun _ => .bind fun _ => .bind fun _ => .bind fun _ => .ofExcept

theorem settle_jumpless (outcome : Except Failure Outcome) : Jumpless (settle outcome) :=
  Jumpless.takeResult.bind fun _ => (Aside.option fun _ => .release).jumpless.bind fun _ =>
    (Aside.get.bind fun _ => (Aside.option fun _ => .release).bind fun _ => .ofExcept).jumpless

theorem settle_exited {o : Outcome} (hf : r'.Fine) (hrec : r.Recedes r')
    (hcompletion : o.completion = .exited)
    (hvalue : ∀ x ∈ r.flow.result, r.heap.toValue x = .ok o.value) :
    Ensures (settle (.ok o)) r' (fun a r'' => Exited r a r'' ∧ r''.flow = ⟨r'.flow.kind, none⟩) E := by
  rw [settle, Ensures.bind_iff, takeResult_iff, Ensures.bind_iff]
  refine (releaseOption_recedes (r := { r' with flow := { r'.flow with result := none } })
    ⟨hf.sound, hf.depth⟩).mono ?_ fun _ _ he => he
  rintro _ r₂ ⟨hrec₂, hf₂, hflow₂⟩
  rw [Ensures.bind_iff, Ensures.get_iff, Ensures.bind_iff]
  refine (releaseOption_recedes hf₂).mono ?_ fun _ _ he => he
  rintro _ r₃ ⟨hrec₃, hf₃, hflow₃⟩
  exact (ofExcept_ok rfl).mpr ⟨⟨hf₃, (hrec.congr.trans hrec₂).trans hrec₃, hcompletion, hvalue⟩,
    by rw [hflow₃, hflow₂]⟩

section Programs

variable (h : Parts d i j) (hd : d.level = none)
include h hd

theorem runProgram_departs (fuel : Nat) (hn : ∀ n ∈ list, n.Inner) (hr : d.Ready r) :
    Departs d True (fun _ => d.Stays) (fun r₁ o r' => Exited r₁ o r' ∧ r'.flow = ⟨.exiting, none⟩)
      (runProgram i fuel list scope) (runProgram j fuel list scope) r := by
  have hbody : Departs d True (fun _ => d.Passed r) (fun r₁ _ => d.Out r₁)
      (runFrom (topStatement i scope) list fuel list)
      (runFrom (topStatement j scope) list fuel list) r :=
    (runFrom_departs (fun node hm {_} hr => topStatement_departs h (hn node hm) hr) fuel
      (fun _ hm => hm) hr).mono (fun _ => trivial) (fun _ _ h => h) fun _ _ _ _ _ h => h
  have hread : Departs d True (fun _ => d.Stays)
      (fun r₁ o r' => r'.flow.kind = .exiting ∧ r₁.Unwinds r' ∧ o.completion = .exited ∧
        ∀ x ∈ r₁.flow.result, r₁.heap.toValue x = .ok o.value)
      (do runFrom (topStatement i scope) list fuel list; leaveBody; readOutcome)
      (do runFrom (topStatement j scope) list fuel list; leaveBody; readOutcome) r := by
    refine hbody.bind (fun _ r₁ hp => ?_) fun r₁ _ r₂ _ _ hout => ?_
    · exact .jumpless (Jumpless.leaveBody.bind fun _ => Aside.jumpless readOutcome_aside) hp.stays
    · rw [Ensures.bind_iff]
      refine (leaveBody_out hout).mono ?_ fun _ _ he => he
      rintro _ r₃ ⟨hkind, hu⟩
      have hexit := hkind.trans (Departure.settled_of_none hd)
      refine (readOutcome_exited hu hexit).mono ?_ fun _ _ he => he
      rintro o _ ⟨rfl, hcompletion, hvalue⟩
      exact ⟨hexit, hu, hcompletion, hvalue⟩
  rw [runProgram_eq, runProgram_eq]
  refine hread.attempt_bind (fun o r₁ hs => ?_) (fun e r₁ hs => ?_) fun r₁ o r₂ _ _ hexited => ?_
  · exact .jumpless (settle_jumpless (.ok o)) hs
  · exact ((settle_fails e r₁).and (settle_jumpless (.error e) r₁)).mono (fun _ _ h => h.1) fun _ _ h =>
      ⟨h.2.1, hs.of_jumpless h.2.2⟩
  · obtain ⟨hexit, hu, hcompletion, hvalue⟩ := hexited
    exact (settle_exited hu.fine hu.recedes hcompletion hvalue).mono
      (fun _ _ h => ⟨h.1, h.2.trans (by rw [hexit])⟩) fun _ _ he => he

theorem runTree_departs (fuel : Nat) (ht : Runs .lenient tree) (hr : d.Ready r) :
    Departs d True (fun _ => d.Stays) (fun r₁ o r' => Exited r₁ o r' ∧ r'.flow = ⟨.exiting, none⟩)
      (runTree i fuel tree scope) (runTree j fuel tree scope) r := by
  unfold runTree
  split
  · exact .fail hr.stays
  rename_i herr
  split
  · exact .fail hr.stays
  split
  · exact .pure hr.stays
  · exact runProgram_departs h hd fuel (ht.statements (by simpa using herr)) hr

end Programs

-- The scope of a program is about to go while the program runs.
theorem runTree_closing (hself : self.Orderly ok) (fuel : Nat) (hc : Closing n r₀ r) :
    Ensures (runTree self fuel tree n) r (fun _ r' => Closing n r₀ r') fun _ _ => True := by
  have hrelease : ∀ {o : Option VarId} {r' : Run}, Closing n r₀ r' →
      Ensures (o.forM release) r' (fun _ r'' => Closing n r₀ r'') fun _ _ => True := fun hc =>
    (releaseOption_still hc.fine).mono (fun _ _ hs => hc.still hs) fun _ _ he => he
  have htop : ∀ node r', Closing n r₀ r' →
      Ensures (topStatement self n node) r' (fun _ r'' => Closing n r₀ r'') fun _ _ => True := by
    intro node r' hc
    unfold topStatement
    split
    · rw [Ensures.bind_iff, located_iff]
      refine (hself.eval hc.fine).mono ?_ fun _ _ _ => trivial
      rintro (_ | x) r₁ hv
      · exact hc.calm hv
      · have hc₁ := hc.still hv.1
        exact (keepLast_still hc₁.fine).mono (fun _ _ ⟨_, hs⟩ => hc₁.congr.still hs) fun _ _ he => he
    · exact (hself.exec hc.fine).mono (fun _ _ hm => hc.moves hm rfl) fun _ _ _ => trivial
  unfold runTree
  split
  · exact trivial
  split
  · exact trivial
  split
  · exact hc
  rw [runProgram_eq, Ensures.bind_iff, attempt_iff]
  have hread : Ensures (do
      runFrom (topStatement self n) tree.root.children fuel tree.root.children
      leaveBody
      readOutcome) r (fun _ r' => Closing n r₀ r') fun _ _ => True := by
    rw [Ensures.bind_iff]
    refine (runFrom_ensures (R := Closing n r₀) fuel (fun _ h => h) (fun _ _ => trivial)
      (fun node _ => htop node) (fun _ h _ => h) (fun _ _ h _ => ⟨h.congr, trivial⟩) (fun _ h => h)
      hc).mono ?_ fun _ _ he => he
    intro _ r₁ hc₁
    rw [Ensures.bind_iff]
    refine (Regular.leaveBody (P := .any n) r₁ hc₁.fine).mono ?_ fun _ _ _ => trivial
    intro _ r₂ hm
    have hc₂ := hc₁.moves hm rfl
    exact readOutcome_ensures hc₂.fine.sound fun _ => hc₂
  refine hread.mono (fun o r₁ hc₁ => ?_) ?_
  · rw [settle, Ensures.bind_iff, takeResult_iff, Ensures.bind_iff]
    refine (hrelease hc₁.congr).mono ?_ fun _ _ he => he
    intro _ r₂ hc₂
    rw [Ensures.bind_iff, Ensures.get_iff, Ensures.bind_iff]
    exact hrelease hc₂
  · rintro (f | _) r₁ -
    · exact (settle_fails f r₁).mono (fun _ _ => False.elim) fun _ _ he => he
    · exact trivial

end Interpreter

namespace Machine

variable {m : Machine} {config : Config} {calls : List HostCall} {fuel : Nat}

-- What a machine carries out to run a tree in a scope of its own.
def program (self : Interpreter) (m : Machine) (fuel : Nat) (tree : Tree) : Exec Outcome := do
  let scope ← Exec.onStore (Store.createChild m.root "program")
  let outcome ← Exec.attempt (self.runTree fuel tree scope)
  let destroyed ← Exec.attempt (Exec.onStore (Store.destroy scope))
  let outcome ← Exec.ofExcept outcome
  Exec.ofExcept destroyed
  return outcome

theorem run_eq (m : Machine) (fuel : Nat) (tree : Tree) :
    m.run fuel tree = m.start (m.program (.ofFuel fuel) fuel tree) := rfl

open Interpreter (Exited) in
theorem program_departs (h : Interpreter.Parts d i j) (hd : d.level = none) (fuel : Nat)
    (ht : Interpreter.Runs .lenient tree) (hu : m.idle.Upright) :
    Departs d True (fun _ _ => True) Exited (m.program i fuel tree) (m.program j fuel tree)
      m.idle := by
  have hstays : d.Stays m.idle := .of_kind (k := .next) rfl (by simp)
  have haside : ∀ (n : ScopeId) (ended : Except Failure Outcome), Aside (do
      let destroyed ← Exec.attempt (Exec.onStore (Store.destroy n))
      let outcome ← Exec.ofExcept ended
      Exec.ofExcept destroyed
      return outcome) := fun n ended =>
    Aside.onStore.attempt.bind fun _ => Aside.ofExcept.bind fun _ => Aside.ofExcept.bind fun _ => .pure
  have hfails : ∀ (n : ScopeId) (f : Failure), Fails (do
      let destroyed ← Exec.attempt (Exec.onStore (Store.destroy n))
      let outcome ← (Exec.ofExcept (.error f) : Exec Outcome)
      Exec.ofExcept destroyed
      return outcome) := fun n f => .bind fun _ => .left .ofExcept
  unfold program
  refine .aside_bind .onStore hstays (Exec.createChild_upright hu) ?_
  rintro n r₁ ⟨ho, hu₁⟩ hflow
  have hr₁ : d.Ready r₁ := ⟨hu₁, hflow, by simp [hd]⟩
  refine ((Interpreter.runTree_departs h hd fuel ht hr₁).given (Interpreter.runTree_closing h.orderly fuel
    ho.closing)).attempt_bind (fun o r₂ hs => ?_) (fun e r₂ hs => ?_) ?_
  · exact .of_jumpless (haside n (.ok o)).jumpless hs.1
  · exact ((hfails n e r₂).and (haside n (.error e) r₂)).mono (fun _ _ h => h.1) fun _ _ h =>
      ⟨h.2.1, hs.of_flow h.2.2⟩
  · rintro r₂ o r₃ - - ⟨⟨hexited, hflow₃⟩, hc⟩
    have hnone : r₃.flow.result = none := by rw [hflow₃]
    rw [Ensures.bind_iff, Exec.attempt_iff]
    refine (Exec.destroy_unwinds (E := fun _ _ => False) hc hu.fine hu.anchored
      (.refl hexited.fine (by simp [hnone])) (by simp [Run.Rescued, hnone])).mono ?_
        fun _ _ => False.elim
    rintro _ r₄ ⟨hu₄, -⟩
    exact ⟨hu₄.fine, hexited.recedes.trans hu₄.recedes, hexited.completion, hexited.value⟩

end Machine

namespace Run

def lost (r : Run) : Bool :=
  r.flow.result.any fun x => !(r.heap.var? x).any fun v => v.owner == .detached || v.leftValue

theorem lost_iff : r.lost = true ↔ r.Lost := by
  simp only [lost, Lost, Heap.Held, Option.mem_def, Option.any_eq_true]
  refine exists_congr fun x => and_congr_right fun _ => ?_
  rcases r.heap.var? x with _ | v <;> simp

-- Lets nothing through that has lost what an `exit` has taken along.
def keeping (r₁ : Run) (ok : Point → Run → Bool) (p : Point) (r : Run) : Bool :=
  ok p r && !(r₁.flow.result.isSome && r.flow.isExit && r.lost)

end Run

namespace Exec

-- A part that is over with its first `exit`.
structure EndsByExit (part : Interpreter → Exec Outcome) (fuel : Nat) (r : Run) : Prop where
  -- Wherever it is looked at from there on, it is on its way out and has done nothing else.
  behind : ∀ (ok : Point → Run → Bool) (r₁ : Run), r₁.flow.isExit = true →
    (part (.watched (fun p r => ok p r && !r.flow.isExit) fuel)).run.run r =
      (.error .outOfFuel, r₁) →
    Ensures (part (.watched (r₁.keeping ok) fuel)) r (Interpreter.Exited r₁) fun e r' =>
      e = .outOfFuel ∧ r₁.Recedes r' ∧ r'.flow.isExit = true ∧ ∃ p, r₁.keeping ok p r' = false
  -- It gives back what it has taken along, which is only lost if a handle comes around again.
  ends : ∀ r₁ : Run, r₁.flow.isExit = true →
    (part (.watched (fun _ r => !r.flow.isExit) fuel)).run.run r = (.error .outOfFuel, r₁) →
    (∃ o r', (part (.ofFuel fuel)).run.run r = (.ok o, r') ∧ Interpreter.Exited r₁ o r') ∨
      r₁.flow.result ≠ none ∧ ∃ r', r'.Lost ∧
        (part (.watched (r₁.keeping fun _ _ => true) fuel)).run.run r = (.error .outOfFuel, r')

theorem EndsByExit.of_departs {part : Interpreter → Exec Outcome} {fuel : Nat}
    (h : ∀ d : Departure, d.level = none → Departs d True (fun _ _ => True) Interpreter.Exited
      (part (.watched d.strict fuel)) (part (.watched d.ok fuel)) r)
    (hbelow : ∀ ok, Below (part (.watched ok fuel)) (part (.ofFuel fuel))) :
    EndsByExit part fuel r := by
  have hbehind : ∀ (ok : Point → Run → Bool) (r₁ : Run), r₁.flow.isExit = true →
      (part (.watched (fun p r => ok p r && !r.flow.isExit) fuel)).run.run r =
        (.error .outOfFuel, r₁) →
      Ensures (part (.watched (r₁.keeping ok) fuel)) r (Interpreter.Exited r₁) fun e r' =>
        e = .outOfFuel ∧ r₁.Recedes r' ∧ r'.flow.isExit = true ∧ ∃ p, r₁.keeping ok p r' = false := by
    intro ok r₁ hexit hrun
    let d : Departure := ⟨r₁.keeping ok, none⟩
    have hstrict : d.strict = fun p r => ok p r && !r.flow.isExit := by
      funext p r
      cases hr : r.flow.isExit <;> simp [d, Departure.strict, Departure.leaves, Run.keeping, hr]
    have hl : d.Left r₁ := by
      refine ⟨hexit, fun _ hsome p r' hok hkind hlost => ?_⟩
      have hsome : r₁.flow.result.isSome = true := Option.isSome_iff_ne_none.mpr hsome
      simp [d, Run.keeping, hsome, Flow.isExit, hkind, Run.lost_iff.2 hlost] at hok
    have hd := h d rfl
    rw [hstrict] at hd
    obtain ⟨-, hy⟩ := hd.of_error hrun hl
    refine hy.mono (fun _ _ h => h) ?_
    rintro e r' ⟨rfl, hstop⟩
    exact ⟨rfl, hstop.recedes, by simp [Flow.isExit, hstop.exiting rfl], hstop.refused⟩
  refine ⟨hbehind, fun r₁ hexit hrun => ?_⟩
  have hend := hbehind (fun _ _ => true) r₁ hexit (by simpa using hrun)
  rcases hkeep : (part (.watched (r₁.keeping fun _ _ => true) fuel)).run.run r with ⟨e | o, r'⟩
  · obtain ⟨rfl, -, -, p, hno⟩ := hend.of_error hkeep
    simp only [Run.keeping, Bool.true_and, Bool.not_eq_false', Bool.and_eq_true] at hno
    obtain ⟨⟨hsome, -⟩, hlost⟩ := hno
    exact .inr ⟨Option.isSome_iff_ne_none.mp hsome, r', Run.lost_iff.1 hlost, rfl⟩
  · exact .inl ⟨o, r', (hbelow _).of_ok hkeep, hend.of_ok hkeep⟩

end Exec

namespace Machine

variable {m : Machine} {config : Config} {calls : List HostCall}

theorem program_below {fuel : Nat} (h : i.Below j) :
    Below (m.program i fuel tree) (m.program j fuel tree) :=
  .same_bind fun _ => (Interpreter.runTree_below h (Nat.le_refl _)).attempt.bind fun _ => .refl _

-- Where a run that is watched has been stopped.
def stopped : Except Halt Outcome × Run → Option Run
  | (.error .outOfFuel, r) => some r
  | _ => none

theorem stopped_iff {x : Except Halt Outcome × Run} {r : Run} :
    stopped x = some r ↔ x = (.error .outOfFuel, r) := by
  rcases x with ⟨(f | _) | o, r'⟩ <;> simp [stopped]

end Machine

end FinLang

import FinLang.Proofs.Machine.Entry
import FinLang.Proofs.Machine.Scoping

namespace FinLang

namespace Run

-- A machine at work that holds together, and whose functions can be called.
structure Upright (r : Run) : Prop where
  fine : r.Fine
  anchored : r.Anchored
  fit : ∀ {s sc f}, r.scope? s = some sc → f ∈ sc.funcs → f.Fit .lenient

-- Behind a node that was executed nothing is on its way but with a `return` or `exit`, and what a
-- `return` has taken along is there.
structure Executed (r r' : Run) : Prop where
  upright : r'.Upright
  depth : r'.machine.depth = r.machine.depth
  quiet : r'.flow.kind = .returning ∨ r'.flow.kind = .exiting ∨ r'.flow.result = none
  held : r'.flow.kind = .returning → ∀ x ∈ r'.flow.result, r'.heap.Held x

-- Behind an expression there is its value, or an `exit` has interrupted it.
structure Valued (r : Run) (v : Option VarId) (r' : Run) : Prop where
  upright : r'.Upright
  depth : r'.machine.depth = r.machine.depth
  value : ∀ x, v = some x → Quiet r r' ∧ r.Apart x ∧ r'.heap.Held x
  exit : v = none → r'.flow.kind = .exiting

end Run

-- Nothing is on its way behind a failure.
def Emptied : Halt → Run → Prop
  | .failure _, r => r.flow.result = none
  | .outOfFuel, _ => True

variable {α : Type} {D : Discipline} {A : ScopeId → Prop} {K : VarId → Prop} {P : ScopeId → Prop}
  {J : (VarId → Prop) → Prop} {xs : List VarId} {ok : Point → Run → Bool} {scope : ScopeId}
  {r r' : Run} {self : Interpreter} {node : Node} {e : Halt}

namespace Exec

-- A run that is stopped has nothing to answer for.
theorem watch_ensures {p : Point} {part : Exec α} {Q : α → Run → Prop} {E : Halt → Run → Prop}
    (hpart : Ensures part r Q E) (hstop : ∀ r', E .outOfFuel r') :
    Ensures (watch ok p part) r Q E := by
  have hpass : ∀ {r' : Run} {k : Exec α}, Ensures k r' Q E →
      Ensures (pass ok p >>= fun _ => k) r' Q E := by
    intro r' k hk
    rw [Ensures.bind_iff, pass, Ensures.bind_iff, Ensures.get_iff]
    split
    · exact hk
    · exact hstop r'
  refine hpass ?_
  rw [Ensures.bind_iff, attempt_iff]
  refine hpart.mono (fun a r' hq => hpass hq) ?_
  rintro (f | _) r' he
  · exact hpass he
  · exact hstop r'

end Exec

namespace Interpreter

-- A call that may be stopped at its body.
theorem watchedCall_sound (hself : self.Sound D) (n : Nat) {f : Function} (hf : f.Fit D)
    {args : Arguments} (hargs : args.Fit D K scope r) (hst : State D A K [] scope r)
    (hflow : r.flow = .start) :
    Ensures (enterCall f scope fun s => Exec.watch ok (.body f s) (invoke self n f args scope s)) r
      (fun _ r' => CallPost D A K noScope scope r r') (FailPost D A K noScope [] scope r) :=
  enterCall_sound hst (by rw [hflow]; rfl) fun _ _ he hflow₁ hne hlive hnamed =>
    Exec.watch_ensures (invoke_ending hself n hf hargs hflow he hflow₁ hne hlive hnamed)
      fun _ => trivial

-- Wherever it is stopped, an interpreter is sound.
theorem watched_sound (hloose : D.Loose) (ok : Point → Run → Bool) (fuel : Nat) :
    (watched ok fuel).Sound D := by
  induction fuel with
  | zero => exact ⟨fun _ _ _ => trivial, fun _ _ _ => trivial, fun _ _ _ _ => trivial⟩
  | succ n ih =>
    refine ⟨fun hn hst hflow => ?_, fun hn hst hflow => ?_, fun hf hargs hst hflow => ?_⟩
    · refine Exec.watch_ensures ?_ fun _ => trivial
      rw [← nodeBy_plain]
      exact nodeBy_sound ih (Handling.plain_fit hloose) hn hst hflow
    · exact Exec.watch_ensures (execNode_sound ih n hn hst hflow) fun _ => trivial
    · exact Exec.watch_ensures (watchedCall_sound ih n hf hargs hst hflow) fun _ => trivial

end Interpreter

theorem FailPost.emptied (h : FailPost D A K P xs scope r e r') : Emptied e r' := by
  cases e with
  | failure f => exact h.2.2.1
  | outOfFuel => trivial

namespace Run.Upright

-- A run can go on in any scope.
theorem state (hr : r.Upright) (scope : ScopeId) :
    State .lenient (fun _ => True) (r.heap.Temps nothing) [] scope r where
  sound := hr.fine.sound
  closed := (Heap.Hidden.temps hr.fine.sound.heap).closed
  detached y hy := .inl (.inr ⟨y, hy, .refl⟩)
  safe := by simp
  reach :=
    { parent := fun _ _ _ => trivial
      safe := fun {s sc name x} _ hsc hin hx =>
        absurd hx (hr.fine.apart_of_bound hsc hin _ (Heap.Hidden.temps hr.fine.sound.heap))
      fit := fun _ hsc hin => hr.fit hsc hin }
  here := trivial
  live := .inr fun _ => trivial

theorem of_scopes (hr : r.Upright) (hf : r.Follows r') (hs : ∀ s, r'.scope? s = r.scope? s) :
    r'.Upright :=
  ⟨hf.fine, hf.anchored hr.anchored, fun {s _ _} hsc hin => hr.fit ((hs s).symm.trans hsc) hin⟩

theorem calm (hr : r.Upright) (hc : Calm r r') : r'.Upright :=
  hr.of_scopes (hc.follows hr.fine) hc.scopes

theorem still (hr : r.Upright) (hs : Still J r r') : r'.Upright :=
  hr.of_scopes (hs.follows hr.fine) hs.scopes

theorem moves {Q : Permit} (hr : r.Upright) (hm : Moves Q r r')
    (hfit : ∀ f, Q.function f → f.Fit .lenient) : r'.Upright := by
  refine ⟨hm.fine, (hm.follows hr.fine).anchored hr.anchored, fun {s sc f} hsc hin => ?_⟩
  by_cases heq : s = Q.scope
  · obtain ⟨vars, funcs, hown, -, hfuncs⟩ := hm.own
    rw [← heq, hsc] at hown
    obtain ⟨sc₀, hsc₀, rfl⟩ := Option.map_eq_some_iff.mp hown.symm
    rcases List.mem_append.mp hin with hin | hin
    · exact hr.fit hsc₀ hin
    · exact hfit f (hfuncs f hin)
  · exact hr.fit ((hm.others s heq).symm.trans hsc) hin

theorem fit_of_find {name : String} {f : Function} (hr : r.Upright)
    (hf : r.machine.store.scopes.findFunction scope name = some f) : f.Fit .lenient := by
  obtain ⟨s, sc, hsc, hin⟩ := Scopes.exists_of_search hf
  exact hr.fit hsc (List.mem_of_find?_eq_some hin)

-- Only the machine matters.
theorem congr (hr : r.Upright) {flow : Flow} {last : Option VarId} :
    (⟨r.machine, flow, last⟩ : Run).Upright :=
  ⟨⟨hr.fine.sound, hr.fine.depth⟩, hr.anchored, hr.fit⟩

-- What has been declared can be called.
theorem follows (hr : r.Upright) (hf : r.Follows r') (hst : State .lenient A K xs scope r')
    (hA : ∀ s, A s) : r'.Upright :=
  ⟨hf.fine, hf.anchored hr.anchored, hst.reach.fit (hA _)⟩

end Run.Upright

namespace Run.Upright

theorem valued {v : Option VarId} (hr : r.Upright) (hv : Evaluated r v r')
    (hp : EvalPost .lenient A K scope r v r') : r.Valued v r' := by
  cases v with
  | none => exact ⟨hr.calm hv, Calm.depth hv, nofun, fun _ => hp.2.2.2⟩
  | some x =>
    refine ⟨hr.still hv.1, hv.1.depth, fun y hy => ?_, nofun⟩
    cases hy
    exact ⟨hv.1, hv.2, hp.2.2.1⟩

theorem executed {Q : Permit} (hr : r.Upright) (hm : Moves Q r r')
    (hp : ExecPost .lenient (fun _ => True) K scope r r') : r.Executed r' := by
  refine ⟨hr.follows (hm.follows hr.fine) hp.state fun _ => trivial, hm.depth, hp.quiet,
    fun hkind x hx => ?_⟩
  refine (hp.carries x hx).resolve_right fun h => ?_
  cases hkind.symm.trans h.1

end Run.Upright

namespace Interpreter

variable (hs : self.Sound .lenient) (ho : self.Orderly ok) (hr : r.Upright) (hflow : r.flow = .start)
include hs ho hr hflow

theorem eval_upright : Ensures (self.eval node scope) r r.Valued Emptied :=
  ((ho.eval hr.fine).and (hs.eval (n := node) trivial (hr.state scope) hflow)).mono
    (fun _ _ h => hr.valued h.1 h.2) fun _ _ he => he.2.emptied

theorem exec_upright (hn : node.Inner) :
    Ensures (self.exec node scope) r (fun _ => r.Executed) Emptied :=
  ((ho.exec hr.fine).and (hs.exec hn (hr.state scope) hflow)).mono
    (fun _ _ h => hr.executed h.1 h.2) fun _ _ he => he.2.emptied

end Interpreter

end FinLang

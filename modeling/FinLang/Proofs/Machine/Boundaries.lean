import FinLang.Proofs.Machine.Host
import FinLang.Proofs.Machine.Signals

namespace FinLang

variable {k : FlowKind} {alarm : Halt} {g f : Interpreter} {scope caller : ScopeId}

namespace Library

open Exec

variable {name : String} {n : Native}

theorem argument_inert : Inert (argument scope name) := by
  refine Inert.readScopes.bind fun sc => ?_
  split
  · exact .pure
  · exact .of_fails .fail

theorem callingScope_inert : Inert (callingScope scope) :=
  Inert.readScopes.bind fun _ => Inert.get.bind fun _ => .pure

theorem finish_flows {result : Option VarId} :
    Flows k (fun _ => Settles) (finish result) (finish result) := by
  refine (Flows.setKind (P := fun _ k => k = .next) rfl).bind fun _ k hk => ?_
  exact (Flows.inert (.option fun _ => .setResult)).mono fun _ _ h => .inl (h.trans hk)

theorem finishWith_flows {p : Payload} :
    Flows k (fun _ => Settles) (finishWith p) (finishWith p) :=
  .inert_bind (.onHeap (.lift _)) fun _ => finish_flows

theorem print_flows : Flows k (fun _ => Settles) (print scope) (print scope) :=
  .inert_bind .readScopes fun _ => .inert_bind (.mapM (fun _ => .readHeap) _) fun _ =>
    .inert_bind (.modifyMachine fun _ => Machine.store_emit) fun _ => finish_flows

theorem extArgCount_flows : Flows k (fun _ => Settles) (extArgCount scope) (extArgCount scope) := by
  refine .inert_bind callingScope_inert fun outer => ?_
  cases outer with
  | none => exact .inert_bind .pure fun _ => finishWith_flows
  | some s =>
    exact .inert_bind .readScopes fun _ => .inert_bind .pure fun _ => finishWith_flows

theorem extArg_flows : Flows k (fun _ => Settles) (extArg scope) (extArg scope) := by
  refine .inert_bind argument_inert fun _ => .inert_bind .readHeap fun x => ?_
  split
  · exact .fails .fail
  refine .inert_bind callingScope_inert fun outer => ?_
  cases outer with
  | none => exact .fails .fail
  | some s =>
    refine .inert_bind .readScopes fun _ => ?_
    split
    · exact finish_flows
    · exact .fails .fail

-- An `exit` in the function that is called by name goes on behind the call.
theorem call_flows (hgf : g.Tracks f) :
    Flows k (fun _ => Settles) (call g scope) (call f scope) := by
  refine .inert_bind argument_inert fun _ => .inert_bind .readHeap fun name => ?_
  refine .get_bind fun r hr => ?_
  split
  · exact .fails .fail
  rename_i fn hfound
  refine .inert_bind .readScopes fun _ => ?_
  refine (hgf.call (hr.find hfound)).withFreshFlow.bind fun ended k _ => ?_
  split
  · exact .inert_bind (.option fun _ => .setResult) fun _ => .setKind (.inr rfl)
  · exact finish_flows

theorem imageSide_inert : Inert (imageSide scope name) := by
  refine .bind argument_inert fun _ => Inert.readHeap.bind fun x => ?_
  split
  · split
    · exact .of_fails .fail
    · exact .pure
  · exact .of_fails .fail

theorem image_flows : Flows k (fun _ => Settles) (image scope) (image scope) := by
  refine .inert_bind imageSide_inert fun _ => .inert_bind imageSide_inert fun _ => ?_
  dsimp only
  split
  · exact .fails (.left .fail)
  · exact finishWith_flows

-- The natives of the library end at the next statement or by an `exit`.
theorem run_flows (hgf : g.Tracks f) (hn : ∀ kind, n ≠ .signal kind) :
    Flows k (fun _ => Settles) (run g scope n) (run f scope n) := by
  cases n with
  | print => exact print_flows
  | len =>
    exact .inert_bind argument_inert fun _ => .inert_bind .readHeap fun _ => finishWith_flows
  | typeOf =>
    exact .inert_bind argument_inert fun _ => .inert_bind .readHeap fun _ => finishWith_flows
  | extArgCount => exact extArgCount_flows
  | extArg => exact extArg_flows
  | call => exact call_flows hgf
  | callDepth => exact .get_bind fun _ _ => finishWith_flows
  | image => exact image_flows
  | math fn =>
    exact .inert_bind argument_inert fun _ => .inert_bind .readHeap fun _ =>
      .inert_bind .ofExcept fun _ => finishWith_flows
  | signal kind => exact absurd rfl (hn kind)

end Library

namespace Interpreter

open Exec

variable {params : List String} {args : Arguments} {fn : Function} {nodes : List Node} {i : Nat}

theorem declareIn_inert {name : String} {id : VarId} : Inert (declareIn scope name id) :=
  .onStore .declare

-- Whether the arguments are bound is told by the flow, too.
abbrev Binds (bound : Bool) (k : FlowKind) : Prop :=
  k = if bound then .next else .exiting

theorem bindNodes_flows (hgf : g.Tracks f) :
    Flows .next Binds (bindNodes g params caller scope i nodes)
      (bindNodes f params caller scope i nodes) := by
  induction nodes generalizing i with
  | nil => exact .pure rfl
  | cons node rest ih =>
    refine (hgf.eval node caller).bind fun value k hk => ?_
    subst hk
    cases value with
    | none => exact .pure rfl
    | some x => exact .inert_bind .own fun _ => .inert_bind declareIn_inert fun _ => ih

theorem bindValues_inert (ids : List VarId) : Inert (bindValues params scope i ids) := by
  induction ids generalizing i with
  | nil => exact .pure
  | cons id rest ih =>
    exact (Inert.onHeap Heap.allocLink_placeless).bind fun _ => .bind declareIn_inert fun _ => ih

theorem bindMissing_inert {names : List String} : Inert (bindMissing scope names) :=
  .forM (fun _ => (Inert.onHeap (.lift _)).bind fun _ => declareIn_inert) names

theorem bindArguments_flows (hgf : g.Tracks f) :
    Flows .next Binds (bindArguments g params args caller scope)
      (bindArguments f params args caller scope) := by
  cases args with
  | nodes nodes =>
    refine (bindNodes_flows hgf).bind fun bound k hk => ?_
    subst hk
    cases bound with
    | false => exact .pure rfl
    | true => exact .inert_bind bindMissing_inert fun _ => .pure rfl
  | values ids =>
    exact .inert_bind (bindValues_inert ids) fun _ => .inert_bind bindMissing_inert fun _ =>
      .pure rfl

theorem invoke_flows (hgf : g.Tracks f) (fuel : Nat) (hfn : fn.Fit .free) :
    Flows .next (fun _ => Settles) ((Probe.strict alarm).invoke g fuel fn args caller scope)
      (Probe.off.invoke f fuel fn args caller scope) := by
  refine (bindArguments_flows hgf).bind fun bound k hk => ?_
  subst hk
  unfold Function.Fit at hfn
  cases bound with
  | false => exact .pure (.inr rfl)
  | true =>
    cases hbody : fn.body with
    | native n =>
      rw [hbody] at hfn
      exact (Library.run_flows hgf hfn.1).bind fun _ _ hk =>
        Probe.leave_flows (Settles.endsList hk)
    | script block =>
      rw [hbody] at hfn
      exact (runList_flows hgf fuel hfn).bind fun _ _ hk => Probe.leave_flows hk

theorem enterCall_flows {b b' : ScopeId → Exec Unit} {P : Unit → FlowKind → Prop}
    (hb : ∀ n, Flows k P (b n) (b' n)) :
    Flows k P (enterCall fn caller b) (enterCall fn caller b') := by
  have hopen : Store.Careful (·.Fit .free) (do
      let scope ← Store.createChild caller fn.name
      Store.setBelongsTo scope fn
      return scope) :=
    Store.Careful.createChild.bind fun _ => Store.Careful.setBelongsTo.bind fun _ => .pure _
  refine .get_bind fun r _ => ?_
  dsimp only
  split
  · exact .fails (.left .fail)
  refine .inert_bind (.onStore hopen) fun n => .inert_bind (.modifyMachine fun _ => rfl) fun _ => ?_
  refine (hb n).attempt_bind (fun _ _ hq => ?_) fun _ => .bind fun _ => .leaveScope
  refine .inert_bind (.modifyMachine fun _ => rfl) fun _ => ?_
  exact (Flows.inert .leaveScope).mono fun _ _ he => he ▸ hq

-- With every check in place the interpreter does what it does without.
theorem interpreter_tracks (fuel : Nat) :
    ((Probe.strict alarm).interpreter fuel).Tracks (Probe.off.interpreter fuel) := by
  induction fuel with
  | zero =>
    exact ⟨fun _ _ => .fails .outOfFuel, fun _ _ => .fails .outOfFuel, fun _ => .fails .outOfFuel⟩
  | succ n ih =>
    refine ⟨fun node scope => ?_, fun scope hn => ?_, fun hfn => ?_⟩
    · exact Probe.around_flows (evalNode_flows ih) fun v k hk => beq_iff_eq.mpr hk
    · exact Probe.around_flows (execNode_flows ih n hn) fun _ _ hk => hk
    · refine Probe.around_flows (enterCall_flows fun n' => invoke_flows ih n hfn) fun _ k hk => ?_
      rcases hk with rfl | rfl <;> rfl

section Programs

variable {id : VarId} {node : Node} {list : List Node} {tree : Tree}

theorem keepLast_inert : Inert (keepLast id) := by
  have hkeep : Inert (modify fun r => { r with last := some id } : Exec Unit) :=
    fun _ hr => ⟨hr, rfl⟩
  refine Inert.get.bind fun r => hkeep.bind fun _ => ?_
  split
  · exact .option fun _ => .release
  · exact .pure

theorem topStatement_flows (hgf : g.Tracks f) (hn : Discipline.free.executable node) :
    Flows .next (fun _ k => k ≠ .failed) (topStatement g scope node) (topStatement f scope node) := by
  unfold topStatement
  split
  · refine (hgf.eval _ scope).located.bind fun value k hk => ?_
    refine (Flows.inert (.option fun _ => keepLast_inert)).mono fun _ k' hk' => ?_
    subst hk' hk
    cases value <;> exact nofun
  · exact (hgf.exec scope hn).mono fun _ _ => ne_failed_of_mayEnd

theorem readOutcome_inert : Inert readOutcome := by
  refine Inert.get.bind fun r => ?_
  dsimp only
  split
  · split
    · exact Inert.ofExcept.bind fun _ => .pure
    · exact Inert.pure.bind fun _ => .pure
  · exact Inert.pure.bind fun _ => .pure

theorem runProgram_flows (hgf : g.Tracks f) (fuel : Nat)
    (hn : ∀ n ∈ list, Discipline.free.executable n) :
    Flows .next (fun _ => Settles) ((Probe.strict alarm).runProgram g fuel list scope)
      (Probe.off.runProgram f fuel list scope) := by
  have hlist : Flows .next (fun _ k => k.endsList = true)
      ((Probe.strict alarm).list (runFrom (topStatement g scope) list fuel list))
      (Probe.off.list (runFrom (topStatement f scope) list fuel list)) :=
    Probe.around_flows (runFrom_flows (fun node hmem => topStatement_flows hgf (hn node hmem)) fuel
      fun _ h => h) fun _ _ h => h
  have hbody : Flows .next (fun _ => Settles)
      (do
        (Probe.strict alarm).list (runFrom (topStatement g scope) list fuel list)
        (Probe.strict alarm).leave
        readOutcome)
      (do
        Probe.off.list (runFrom (topStatement f scope) list fuel list)
        Probe.off.leave
        readOutcome) := by
    refine hlist.bind fun _ k hk => (Probe.leave_flows hk).bind fun _ k hk => ?_
    exact (Flows.inert readOutcome_inert).mono fun _ k' hk' => hk' ▸ hk
  refine hbody.attempt_bind (fun outcome k hk => ?_) fun _ => ?_
  · refine .inert_bind .takeResult fun _ => .inert_bind (.option fun _ => .release) fun _ => ?_
    refine .inert_bind .get fun _ => .inert_bind (.option fun _ => .release) fun _ => ?_
    exact .pure hk
  · exact .bind fun _ => .bind fun _ => .bind fun _ => .bind fun _ => .ofExcept

theorem runTree_flows (hgf : g.Tracks f) (fuel : Nat) (ht : Interpreter.Runs .free tree) :
    Flows .next (fun _ => Settles) ((Probe.strict alarm).runTree g fuel tree scope)
      (Probe.off.runTree f fuel tree scope) := by
  unfold Probe.runTree
  split
  · exact .fails .fail
  rename_i hfine
  split
  · exact .fails .fail
  split
  · exact .pure (.inl rfl)
  · exact runProgram_flows hgf fuel (ht.statements (by simpa using hfine))

end Programs

end Interpreter

namespace Machine

variable {α : Type} {m : Machine} {config : Config} {calls : List HostCall} {x y : Exec α}
  {Q : α → FlowKind → Prop}

theorem start_eq_of_flows (h : Flows .next Q x y) (hm : m.idle.Tame) : m.start x = m.start y := by
  have hagree := h m.idle hm rfl
  unfold Agree at hagree
  unfold start perform
  rcases hx : x.run.run m.idle with ⟨_ | _, s⟩ <;> rcases hy : y.run.run m.idle with ⟨_ | _, t⟩ <;>
    rw [hx, hy] at hagree
  · obtain ⟨rfl, rfl⟩ := hagree
    rfl
  · exact hagree.elim
  · exact hagree.elim
  · obtain ⟨rfl, rfl, -⟩ := hagree
    rfl

theorem Reached.tame (h : Reached config calls m) : m.idle.Tame :=
  Arena.all_of_get? fun _ _ hsc _ hf => h.rests.1.fit hsc hf

-- Whatever alarm is raised where an expression, a statement, a list, a call or a body is entered or
-- left with another signal than it should be, a program never raises it.
theorem Reached.keeps_flow (h : Reached config calls m) (alarm : Halt) (fuel : Nat)
    (source : String) :
    (Probe.strict alarm).run m fuel (Tree.parse source) = m.run fuel (Tree.parse source) ∧
      ∀ scope, (Probe.strict alarm).runIn m fuel (Tree.parse source) scope =
        m.runIn fuel (Tree.parse source) scope := by
  have htree : ∀ scope, Flows .next (fun _ => Settles)
      ((Probe.strict alarm).runTree ((Probe.strict alarm).interpreter fuel) fuel
        (Tree.parse source) scope)
      (Probe.off.runTree (Probe.off.interpreter fuel) fuel (Tree.parse source) scope) := fun scope =>
    Interpreter.runTree_flows (Interpreter.interpreter_tracks fuel) fuel (Discipline.free_runs source)
  refine ⟨?_, fun scope => ?_⟩
  · rw [← Probe.run_off]
    refine start_eq_of_flows (Q := fun _ => Settles) ?_ h.tame
    refine .inert_bind (.onStore .createChild) fun scope => ?_
    refine (htree scope).attempt_bind (fun outcome k hk => ?_) fun _ => .bind fun _ => .left .ofExcept
    refine (Flows.inert (.onStore .destroy)).attempt_bind (fun _ k' hk' => ?_) fun _ =>
      .bind fun _ => .left .ofExcept
    exact .pure (hk' ▸ hk)
  · rw [← Probe.runIn_off]
    exact start_eq_of_flows (htree scope) h.tame

-- A program that leaves a call by a jump, a loop by a `break` and itself by `exit`.
theorem Reached.keeps_flow_jumping :
    (((Probe.strict .outOfFuel).run (ofConfig {}) 20 (Tree.parse
      "f() { for (;;) { goto a; exit; a: break; } } var x = f(); exit;")).1.toOption.map
        (·.completion)) = some .exited := by
  rw [(Reached.start.keeps_flow .outOfFuel 20 _).1]
  decide +kernel

end Machine

end FinLang

import FinLang.Machine.Run
import FinLang.Proofs.Machine.Call

namespace FinLang

-- A program between two of its statements, with the value that it keeps.
structure Between (D : Discipline) (A : ScopeId → Prop) (K : VarId → Prop) (scope : ScopeId)
    (r₀ r : Run) : Prop where
  frame : Frame K (· = scope) r₀ { r with last := r₀.last }
  state : State D A K r.last.toList scope r
  flow : r.flow = .start

-- A program behind one of its statements.
structure TopPost (D : Discipline) (A : ScopeId → Prop) (K : VarId → Prop) (scope : ScopeId)
    (r₀ r : Run) : Prop where
  frame : Frame K (· = scope) r₀ { r with last := r₀.last }
  state : State D A K (r.flow.result.toList ++ r.last.toList) scope r
  carries : Carries D r
  kind : r.flow.kind ≠ .failed
  quiet : r.flow.kind = .returning ∨ r.flow.kind = .exiting ∨ r.flow.result = none

def TopFail (D : Discipline) (A : ScopeId → Prop) (K : VarId → Prop) (scope : ScopeId) (r₀ : Run) :
    Halt → Run → Prop
  | .outOfFuel, _ => True
  | .failure f, r => Frame K (· = scope) r₀ { r with last := r₀.last } ∧
      State D A K r.last.toList scope r ∧ r.flow.result = none ∧ D.admits f.cause

-- A program that has ended: nothing is left of it but what it declared.
structure Settled (D : Discipline) (A : ScopeId → Prop) (K : VarId → Prop) (scope : ScopeId)
    (r₀ r : Run) : Prop where
  frame : Frame K (· = scope) r₀ { r with last := r₀.last }
  state : State D A K [] scope r

def SettledFail (D : Discipline) (A : ScopeId → Prop) (K : VarId → Prop) (scope : ScopeId)
    (r₀ : Run) : Halt → Run → Prop
  | .outOfFuel, _ => True
  | .failure f, r => Settled D A K scope r₀ r ∧ D.admits f.cause

variable {α : Type} {D : Discipline} {A : ScopeId → Prop} {K : VarId → Prop}
  {P : ScopeId → Prop} {xs : List VarId} {scope : ScopeId} {r₀ r r' : Run} {x : VarId}
  {E : Halt → Run → Prop} {self : Interpreter} {node : Node}

theorem Frame.relast (hf : Frame K P r r') (l : Option VarId) :
    Frame K P { r with last := l } { r' with last := l } :=
  { hf with last := rfl }

theorem Between.later (hb : Between D A K scope r₀ r) (hf : Frame K (· = scope) r r') :
    Frame K (· = scope) r₀ { r' with last := r₀.last } :=
  hb.frame.trans (hf.relast r₀.last)

namespace TopPost

theorem result_eq_none (hp : TopPost D A K scope r₀ r) (hret : r.flow.kind ≠ .returning)
    (hexit : r.flow.kind ≠ .exiting) : r.flow.result = none :=
  (hp.quiet.resolve_left hret).resolve_left hexit

theorem state_eq (hp : TopPost D A K scope r₀ r) (hres : r.flow.result = none) :
    State D A K r.last.toList scope r := by
  have hst := hp.state
  rwa [hres, Option.toList_none, List.nil_append] at hst

theorem resume (hp : TopPost D A K scope r₀ r) (hres : r.flow.result = none) :
    Between D A K scope r₀ { r with flow := .start } :=
  ⟨hp.frame.trans (.of_machine rfl rfl), (hp.state_eq hres).congr rfl, rfl⟩

theorem next (hp : TopPost D A K scope r₀ r) (hkind : r.flow.kind = .next) :
    Between D A K scope r₀ r := by
  have hres := hp.result_eq_none (by rw [hkind]; nofun) (by rw [hkind]; nofun)
  have hflow : r.flow = .start := by rw [Flow.start, ← hkind, ← hres]
  exact ⟨hp.frame, hp.state_eq hres, hflow⟩

theorem of_between (hb : Between D A K scope r₀ r) : TopPost D A K scope r₀ r where
  frame := hb.frame
  state := by
    rw [hb.flow]
    exact hb.state
  carries := by
    rw [Carries, hb.flow]
    simp [Flow.start]
  kind := by
    rw [hb.flow]
    simp [Flow.start]
  quiet := by
    rw [hb.flow]
    exact .inr (.inr rfl)

end TopPost

theorem TopFail.of_fail {e : Halt} (hb : Between D A K scope r₀ r)
    (he : FailPost D A K P r.last.toList scope r e r') (hP : ∀ s, P s → s = scope) :
    TopFail D A K scope r₀ e r' := by
  cases e with
  | outOfFuel => trivial
  | failure f =>
    obtain ⟨hf, hst, hres, hc⟩ := he
    exact ⟨hb.later (hf.mono (fun _ hk => hk) hP), hf.last ▸ hst, hres, hc⟩

-- A jump goes on at its label or fails.
theorem TopPost.jump {label : String} (hp : TopPost D A K scope r₀ r)
    (hkind : r.flow.kind = .goto label) :
    Between D A K scope r₀ { r with flow := r.flow.withKind .next } ∧
      TopFail D A K scope r₀ (.failure (.of (.labelNotInBlock label)))
        { r with flow := r.flow.withKind .failed } := by
  have hres := hp.result_eq_none (by rw [hkind]; nofun) (by rw [hkind]; nofun)
  have hstart : r.flow.withKind .next = .start := by rw [Flow.withKind, hres]; rfl
  refine ⟨by rw [hstart]; exact hp.resume hres, ?_⟩
  exact ⟨hp.frame.trans (.of_machine rfl rfl), (hp.state_eq hres).congr rfl, hres,
    D.ordinary (c := .labelNotInBlock label) (by simp [Cause.Ordinary, Cause.kind])⟩

namespace Interpreter

open Exec

theorem keepLast_ensures (hst : State D A K (x :: r.last.toList) scope r) :
    Ensures (keepLast x) r
      (fun _ r' => Frame K P { r with last := some x } r' ∧
        State D A K r'.last.toList scope r' ∧ r'.flow = r.flow) E := by
  rw [keepLast, Ensures.bind_iff, Ensures.get_iff, Ensures.bind_iff, Ensures.modify_iff]
  generalize hr : Run.mk r.machine r.flow (some x) = r₁
  have hst₁ : State D A K (x :: r.last.toList) scope r₁ := hst.congr (by rw [← hr])
  have hlast : r₁.last = some x := by rw [← hr]
  have hflow : r₁.flow = r.flow := by rw [← hr]
  split
  · have hst₂ : State D A K (r.last.toList ++ [x]) scope r₁ :=
      hst₁.same fun y => by simp [or_comm]
    refine (release_option (P := P) hst₂).mono ?_ fun _ _ he => he
    rintro _ r₂ ⟨hm, -⟩
    refine ⟨hm.frame, ?_, hm.flow.trans hflow⟩
    rw [hm.frame.last, hlast]
    exact hm.state
  · rename_i hsame
    have hsame : r.last = some x := by simpa using hsame
    refine ⟨.refl, ?_, hflow⟩
    rw [hlast]
    exact hst₁.same fun y => by simp [hsame]

-- A statement is executed while the kept value waits.
theorem Sound.exec_beside (hself : self.Sound D) (hn : D.executable node)
    (hst : State D A K xs scope r) (hflow : r.flow = .start) :
    Ensures (self.exec node scope) r
      (fun _ r' => Frame K (· = scope) r r' ∧ State D A K (r'.flow.result.toList ++ xs) scope r' ∧
        Carries D r' ∧ r'.flow.kind ≠ .failed ∧
        (r'.flow.kind = .returning ∨ r'.flow.kind = .exiting ∨ r'.flow.result = none))
      (FailPost D A K (· = scope) xs scope r) := by
  refine (hself.exec hn hst.protect hflow).mono ?_ fun _ _ he => he.unprotect hst
  rintro _ r' hp
  exact ⟨hp.frame.unprotect, hst.unprotect hp.state hp.frame.keeps, hp.carries, hp.kind, hp.quiet⟩

theorem evaluable_of_expression (hn : D.executable node)
    (hexpr : isExpressionStatement node = true) : ∀ c ∈ node.children, D.evaluable c := by
  simp only [isExpressionStatement, Bool.and_eq_true, beq_iff_eq] at hexpr
  obtain ⟨⟨hkind, hop⟩, -⟩ := hexpr
  have hrule := D.execRule hn
  simpa [Node.ExecRule, hkind, hop, Node.isScopedBlock] using hrule

theorem topStatement_sound (hself : self.Sound D) (hn : D.executable node)
    (hb : Between D A K scope r₀ r) :
    Ensures (topStatement self scope node) r (fun _ r' => TopPost D A K scope r₀ r')
      (TopFail D A K scope r₀) := by
  unfold topStatement
  split
  · rename_i operand rest hexpr hchildren
    have heval := evaluable_of_expression hn hexpr operand (by simp [hchildren])
    rw [Ensures.bind_iff, located_iff]
    refine (hself.eval_beside heval hb.state hb.flow).mono ?_ ?_
    · rintro (_ | x) r₁ hr
      · obtain ⟨hf, hst, hcar, hkind⟩ := hr
        refine Ensures.pure_iff.mpr ⟨hb.later hf.some_scope, ?_, hcar, by rw [hkind]; nofun,
          .inr (.inl hkind)⟩
        rw [hf.last]
        exact hst
      · obtain ⟨hf, hst, -, hflow⟩ := hr
        rw [← hf.last] at hst
        refine (keepLast_ensures (P := (· = scope)) hst).mono ?_ fun _ _ he => he
        rintro _ r₂ ⟨hf₂, hst₂, hflow₂⟩
        refine .of_between ⟨?_, hst₂, hflow₂.trans hflow⟩
        exact (hb.later hf.some_scope).trans (hf₂.relast r₀.last)
    · intro e r₁ he
      exact .of_fail hb he.locate fun _ => False.elim
  · refine (hself.exec_beside hn hb.state hb.flow).mono ?_ ?_
    · rintro _ r₁ ⟨hf, hst, hcar, hkind, hquiet⟩
      refine ⟨hb.later hf, ?_, hcar, hkind, hquiet⟩
      rw [hf.last]
      exact hst
    · intro e r₁ he
      exact .of_fail hb he fun _ hs => hs

theorem runStatements_sound (hself : self.Sound D) (fuel : Nat) {list : List Node}
    (hn : ∀ n ∈ list, D.executable n) (hb : Between D A K scope r₀ r) :
    Ensures (runFrom (topStatement self scope) list fuel list) r
      (fun _ r' => TopPost D A K scope r₀ r') (TopFail D A K scope r₀) := by
  refine runFrom_ensures (R := Between D A K scope r₀) fuel (fun _ h => h) (fun _ _ => trivial) ?_
    (fun _ hp => hp.next) ?_ (fun _ => .of_between) hb
  · intro n hin r₁ hr
    exact topStatement_sound hself (hn n hin) hr
  · exact fun r₁ label hp hkind => hp.jump hkind

-- A program whose statements have been run; its result and the value that it
-- kept are still there.
structure Ended (D : Discipline) (A : ScopeId → Prop) (K : VarId → Prop) (scope : ScopeId)
    (r₀ r : Run) : Prop where
  frame : Frame K (· = scope) r₀ { r with last := r₀.last }
  state : State D A K (r.flow.result.toList ++ r.last.toList) scope r

theorem leaveProgram_sound (hp : TopPost D A K scope r₀ r) :
    Ensures leaveBody r (fun _ r' => Ended D A K scope r₀ r') (TopFail D A K scope r₀) := by
  have hfail : ∀ {c : Cause}, r.flow.kind ≠ .returning → r.flow.kind ≠ .exiting → D.admits c →
      TopFail D A K scope r₀ (.failure (.of c)) r := fun hret hexit hc =>
    have hres := hp.result_eq_none hret hexit
    ⟨hp.frame, hp.state_eq hres, hres, hc⟩
  have hok : ∀ kind : FlowKind, Ended D A K scope r₀ { r with flow := ⟨kind, r.flow.result⟩ } :=
    fun kind => ⟨hp.frame.trans (.of_machine rfl rfl), hp.state.congr rfl⟩
  rw [leaveBody, Ensures.bind_iff, flow_iff, Ensures.bind_iff]
  rcases hflow : r.flow with ⟨kind, result⟩
  simp only [hflow] at hfail hok
  cases kind with
  | next => exact hok .next
  | returning => exact hok .next
  | exiting => exact hok .exiting
  | goto label =>
    exact hfail (by simp) (by simp)
      (D.ordinary (c := .labelNotFound label) (by simp [Cause.Ordinary, Cause.kind]))
  | breaking => exact hfail (by simp) (by simp) (D.outsideLoop _)
  | continuing => exact hfail (by simp) (by simp) (D.outsideLoop _)
  | failed => exact absurd (congrArg Flow.kind hflow) hp.kind

-- Whatever is still there can be read.
theorem readOutcome_ensures {Q : Outcome → Run → Prop} (hs : r.store.Sound [])
    (hq : ∀ outcome, Q outcome r) : Ensures readOutcome r Q E := by
  rw [readOutcome, Ensures.bind_iff, Ensures.get_iff]
  simp only
  split
  · split
    · rename_i id _ hlive
      obtain ⟨value, hvalue⟩ := hs.heap.toValue_ok (Heap.contains_iff.mp hlive)
      exact Ensures.bind_iff.mpr ((ofExcept_ok hvalue).mpr (hq _))
    · exact hq _
  · exact hq _

-- Both are released, and what is left is how it ended.
theorem Ended.release {outcome : Except Failure Outcome} (he : Ended D A K scope r₀ r)
    (hE : ∀ f r', outcome = .error f → Settled D A K scope r₀ r' → E (.failure f) r') :
    Ensures (do
      (← takeResult).forM Exec.release
      (← get).last.forM Exec.release
      ofExcept outcome) r (fun _ r' => Settled D A K scope r₀ r') E := by
  rw [Ensures.bind_iff, takeResult_iff, Ensures.bind_iff]
  generalize hr : Run.mk r.machine _ r.last = r₁
  have hst₁ : State D A K (r.flow.result.toList ++ r₁.last.toList) scope r₁ := by
    rw [← hr]
    exact he.state.congr rfl
  have hf₁ : Frame K (· = scope) r₀ { r₁ with last := r₀.last } := by
    rw [← hr]
    exact he.frame.trans (.of_machine rfl rfl)
  refine (release_option (P := (· = scope)) hst₁).mono ?_ fun _ _ he => he
  rintro _ r₂ ⟨hm, -⟩
  rw [Ensures.bind_iff, Ensures.get_iff, Ensures.bind_iff]
  have hst₂ : State D A K (r₂.last.toList ++ []) scope r₂ := by
    rw [List.append_nil, hm.frame.last]
    exact hm.state
  refine (release_option (P := (· = scope)) hst₂).mono ?_ fun _ _ he => he
  rintro _ r₃ ⟨hm', -⟩
  have hsettled : Settled D A K scope r₀ r₃ :=
    ⟨(hf₁.trans (hm.frame.relast _)).trans (hm'.frame.relast _), hm'.state⟩
  cases outcome with
  | ok a => exact hsettled
  | error f => exact hE f r₃ rfl hsettled

theorem runProgram_sound (hself : self.Sound D) (fuel : Nat) {children : List Node}
    (hn : ∀ n ∈ children, D.executable n) (hst : State D A K [] scope r) (hflow : r.flow = .start)
    (hlast : r.last = none) :
    Ensures (runProgram self fuel children scope) r (fun _ r' => Settled D A K scope r r')
      (SettledFail D A K scope r) := by
  have hb : Between D A K scope r r := ⟨.refl, by rw [hlast]; exact hst, hflow⟩
  rw [runProgram, Ensures.bind_iff, attempt_iff]
  have hbody : Ensures (do
      runFrom (topStatement self scope) children fuel children
      leaveBody
      readOutcome) r (fun _ r' => Ended D A K scope r r') (TopFail D A K scope r) := by
    rw [Ensures.bind_iff]
    refine (runStatements_sound hself fuel hn hb).mono ?_ fun _ _ he => he
    rintro _ r₁ hp
    rw [Ensures.bind_iff]
    refine (leaveProgram_sound hp).mono ?_ fun _ _ he => he
    rintro _ r₂ he
    exact readOutcome_ensures he.state.sound fun _ => he
  refine hbody.mono ?_ ?_
  · rintro outcome r₁ he
    exact he.release fun _ _ hf => nomatch hf
  · rintro (f | _) r₁ he
    · obtain ⟨hf, hst₁, hres, hc⟩ := he
      have hended : Ended D A K scope r r₁ := ⟨hf, by rw [hres]; exact hst₁⟩
      refine hended.release fun f' r' hf' hs => ?_
      cases hf'
      exact ⟨hs, hc⟩
    · trivial

-- A tree that can be run.
structure Runs (D : Discipline) (tree : Tree) : Prop where
  clean : tree.hasErrors = false ∨ ∀ n, D.admits (.treeErrors n)
  program : tree.hasErrors = false → tree.root.kind = .program
  statements : tree.hasErrors = false → ∀ n ∈ tree.root.children, D.executable n

theorem runTree_sound (hself : self.Sound D) (fuel : Nat) {tree : Tree} (ht : Runs D tree)
    (hst : State D A K [] scope r) (hflow : r.flow = .start) (hlast : r.last = none) :
    Ensures (runTree self fuel tree scope) r (fun _ r' => Settled D A K scope r r')
      (SettledFail D A K scope r) := by
  have hsame : Settled D A K scope r r := ⟨.refl, hst⟩
  unfold runTree
  cases herr : tree.hasErrors with
  | true => exact ⟨hsame, (ht.clean.resolve_left (by simp [herr])) _⟩
  | false =>
    simp only [Bool.false_eq_true, if_false, ht.program herr, bne_self_eq_false]
    split
    · exact hsame
    · exact runProgram_sound hself fuel (ht.statements herr) hst hflow hlast

end Interpreter

end FinLang

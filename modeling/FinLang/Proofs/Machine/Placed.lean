import FinLang.Proofs.Machine.Failures
import FinLang.Proofs.Machine.Locations
import FinLang.Proofs.Mirror.Host

namespace FinLang

variable {α β : Type} {size : Nat}

def Halt.Marked : Halt → Prop
  | .failure f => f.span.isSome = true
  | .outOfFuel => True

-- A part all failures of which have a place.
def Marked (x : Exec α) : Prop :=
  ∀ r : Run, Ensures x r (fun _ _ => True) fun e _ => e.Marked

namespace Marked

theorem bind {x : Exec α} {k : α → Exec β} (hx : Marked x) (hk : ∀ a, Marked (k a)) :
    Marked (x >>= k) :=
  fun r => (hx r).bind fun a r' _ => hk a r'

theorem pure {a : α} : Marked (Pure.pure a : Exec α) :=
  fun _ => trivial

theorem located {s : Option Span} {x : Exec α} (hs : s.isSome = true) : Marked (Exec.located s x) := by
  obtain ⟨t, rfl⟩ := Option.isSome_iff_exists.mp hs
  intro r
  rw [Exec.located_iff]
  refine Ensures.trivially.mono (fun _ _ h => h) ?_
  rintro (f | _) _ -
  · rcases hspan : f.span with _ | _ <;>
      simp [Halt.Marked, Halt.locate, Failure.locate, hspan]
  · trivial

end Marked

namespace Interpreter

open Exec

variable {S : Token → Prop} {self : Interpreter} {node : Node} {scope : ScopeId} {t : Token}

theorem evalSingle_marked : Marked (evalSingle (.ofToken t) scope) := by
  have halloc : ∀ {p : Payload}, Marked (onHeap (Heap.alloc p)) := fun _ => onHeap_iff.mpr trivial
  simp only [evalSingle, Node.ofToken]
  split
  case h_4 =>
    intro r
    refine Ensures.bind_iff.mpr (Ensures.get_iff.mpr ?_)
    split
    · trivial
    · exact Marked.located rfl r
  case h_5 => exact .located rfl
  all_goals exact halloc

theorem evalExpression_marked {children : List Node} (ht : t.operator?.isSome = true) :
    Marked (evalExpression self (.expression t children) scope) := by
  obtain ⟨op, hop⟩ := Option.isSome_iff_exists.mp ht
  simp only [evalExpression, Node.expression, hop]
  exact .located rfl

-- A value fails in one of its tokens, if at all.
theorem evalNode_marked (hv : Parsed S .value node) : Marked (evalNode self node scope) := by
  have hbinding : ∀ {t : Token} {row}, t.binding? = some row → t.operator?.isSome = true :=
    fun ht => by
      obtain ⟨op, hop, -⟩ := Token.operator?_of_binding ht
      rw [hop]
      rfl
  cases hv with
  | token => exact .bind evalSingle_marked fun _ => .pure
  | leading ht | trailing ht | infixed ht => exact evalExpression_marked (hbinding ht)
  | group ht | list ht | call ht | access ht =>
    exact evalExpression_marked (by rw [ht]; rfl)

theorem execNode_marked (hp : Parsed S .statement node) (hn : node.Inside size) (fuel : Nat) :
    Marked (execNode self fuel node scope) := by
  have hspan : node.token.isSome = true → node.span?.isSome = true := by
    rcases node with ⟨_, _ | _, _⟩
    · exact nofun
    · exact fun _ => rfl
  cases hp with
  | label => exact .pure
  | branch => exact .located (hspan (hn.branch rfl))
  | @function name _ _ _ hname =>
    refine .located (hspan ?_)
    rcases name with ⟨_ | _, _ | _, _⟩ <;> first | rfl | cases hname
  | _ => exact .located (hspan rfl)

theorem ofFuel_marked (fuel : Nat) :
    (∀ {node : Node} {scope}, Parsed S .value node → Marked ((ofFuel fuel).eval node scope)) ∧
      ∀ {node : Node} {scope}, Parsed S .statement node → node.Inside size →
        Marked ((ofFuel fuel).exec node scope) := by
  cases fuel with
  | zero => exact ⟨fun _ _ => trivial, fun _ _ _ => trivial⟩
  | succ fuel => exact ⟨evalNode_marked, fun hp hn => execNode_marked hp hn fuel⟩

end Interpreter

-- A failure without a place: a jump to a label that a program has not, or one
-- out of a loop that is not there.
def Failure.Stray (f : Failure) : Prop :=
  f.span = none ∧
    ((∃ label, f.cause = .labelNotInBlock label) ∨ ∃ word, f.cause = .outsideLoop word)

def Halt.Answered (size : Nat) : Halt → Prop
  | .failure f => (∃ s ∈ f.span, s.Inside size) ∨ f.Stray
  | .outOfFuel => True

theorem Halt.Marked.locate_eq {e : Halt} {s : Option Span} (hm : e.Marked) : e.locate s = e := by
  rcases e with f | _
  · obtain ⟨cause, span⟩ := f
    obtain ⟨t, rfl⟩ := Option.isSome_iff_exists.mp hm
    cases s <;> rfl
  · rfl

theorem Halt.Marked.answered {e : Halt} (hm : e.Marked) (hi : e.Inside size) : e.Answered size := by
  rcases e with f | _
  · obtain ⟨s, hs⟩ := Option.isSome_iff_exists.mp hm
    exact .inl ⟨s, hs, hi s hs⟩
  · trivial

namespace Interpreter

open Exec

variable {A : ScopeId → Prop} {K : VarId → Prop} {scope : ScopeId} {r₀ r : Run} {node : Node}
  {list : List Node} {S : Token → Prop}

theorem keepLast_mindful {id : VarId} : FinLang.Mindful size (keepLast id) := by
  refine Careful.get.bind fun r _ =>
    (Careful.modified (f := fun r => { r with last := some id }) fun _ => rfl).bind fun _ _ => ?_
  split
  · exact Careful.optionForM (fun _ => .release) _
  · exact .pure trivial

-- The operand of an expression statement lies inside, if not its semicolon.
theorem operand_of_expression {operand : Node} {rest : List Node} (hp : Parsed S .statement node)
    (hc : Builder.Closed size node) (hexpr : isExpressionStatement node = true)
    (hchildren : node.children = operand :: rest) : Parsed S .value operand ∧ operand.Inside size := by
  simp only [isExpressionStatement, Bool.and_eq_true, beq_iff_eq] at hexpr
  obtain ⟨⟨hkind, hop⟩, -⟩ := hexpr
  have hin : operand.Inside size := by
    rcases hc with hc | ⟨t, e, rfl, -, he⟩
    · exact hc.child (by simp [hchildren])
    · cases hchildren
      exact he
  refine ⟨?_, hin⟩
  cases hp with
  | expression _ he =>
    cases hchildren
    exact he
  | block ht =>
    simp [Node.operator?, ht] at hop
  | _ => cases hkind

theorem inside_of_other (hc : Builder.Closed size node) (hexpr : isExpressionStatement node ≠ true) :
    node.Inside size := by
  rcases hc with hc | ⟨t, e, rfl, ht, -⟩
  · exact hc
  · simp [isExpressionStatement, Node.operator?, ht] at hexpr

theorem topStatement_answers (fuel : Nat) (hp : Parsed (fun _ => True) .statement node)
    (hc : Builder.Closed size node) (hb : Between .free A K scope r₀ r) (hr : r.Known size) :
    Ensures (topStatement (ofFuel fuel) scope node) r (fun _ r' => r'.Known size)
      fun e _ => e.Answered size := by
  have hself : (ofFuel fuel).Mindful size := ofFuel_mindful fuel
  obtain ⟨heval, hexec⟩ := @ofFuel_marked size (fun _ => True) fuel
  unfold topStatement
  split
  · rename_i operand rest hexpr hchildren
    obtain ⟨hv, hi⟩ := operand_of_expression hp hc hexpr hchildren
    have hbeside := (ofFuel_sound Discipline.free_loose fuel).eval_beside (.inr (.item hv)) hb.state hb.flow
    rw [Ensures.bind_iff, located_iff]
    refine ((hself.eval hi r hr).and ((heval hv r).and hbeside)).mono ?_ ?_
    · rintro (_ | x) r₁ ⟨⟨-, hr₁⟩, -, hpost⟩
      · exact hr₁
      · obtain ⟨hf, hst, -⟩ := hpost
        rw [← hf.last] at hst
        have hkept := keepLast_ensures (P := (· = scope)) (E := fun _ _ => False) hst
        exact ((keepLast_mindful r₁ hr₁).and hkept).mono (fun _ _ h => h.1.2) fun _ _ he => he.2.elim
    · rintro e r₁ ⟨⟨hin, -⟩, hm, -⟩
      rw [hm.locate_eq]
      exact hm.answered hin
  · rename_i hother
    have hi : node.Inside size := by
      refine inside_of_other hc fun hexpr => ?_
      cases hp with
      | expression _ _ => exact hother _ _ hexpr rfl
      | block ht => simp [isExpressionStatement, Node.operator?, ht] at hexpr
      | _ => cases hexpr
    exact ((hself.exec hi r hr).and (hexec hp hi r)).mono (fun _ _ h => h.1.2)
      fun _ _ he => he.2.answered he.1.1

theorem runStatements_answers (fuel : Nat) (hp : ∀ n ∈ list, Parsed (fun _ => True) .statement n)
    (hc : ∀ n ∈ list, Builder.Closed size n) (hb : Between .free A K scope r₀ r) (hr : r.Known size) :
    Ensures (runFrom (topStatement (ofFuel fuel) scope) list fuel list) r
      (fun _ r' => TopPost .free A K scope r₀ r' ∧ r'.Known size)
      fun e r' => TopFail .free A K scope r₀ e r' ∧ e.Answered size := by
  refine runFrom_ensures (R := fun r => Between .free A K scope r₀ r ∧ r.Known size) fuel
    (fun _ h => h) (fun _ _ => ⟨trivial, trivial⟩) ?_ (fun _ h hkind => ⟨h.1.next hkind, h.2⟩) ?_
    (fun _ h => ⟨.of_between h.1, h.2⟩) ⟨hb, hr⟩
  · rintro n hn r₁ ⟨hb₁, hr₁⟩
    exact (topStatement_sound (ofFuel_sound Discipline.free_loose fuel) (.inl (hp n hn)) hb₁).and
      (topStatement_answers fuel (hp n hn) (hc n hn) hb₁ hr₁)
  · rintro r₁ label ⟨hp₁, hr₁⟩ hkind
    obtain ⟨hnext, hfail⟩ := hp₁.jump hkind
    exact ⟨⟨hnext, hr₁⟩, hfail, .inr ⟨rfl, .inl ⟨label, rfl⟩⟩⟩

-- A list of statements takes its own jumps, and lets none of them out.
theorem runStraight_next {statement : Node → Exec Unit} {nodes : List Node} (hr : r.flow.kind = .next) :
    Ensures (runStraight statement nodes) r
      (fun left r' => left = false → r'.flow.kind = .next) fun _ _ => True := by
  induction nodes generalizing r with
  | nil => exact fun _ => hr
  | cons n rest ih =>
    rw [runStraight, Ensures.bind_iff]
    refine Ensures.trivially.mono (fun _ r₁ _ => ?_) fun _ _ he => he
    refine Ensures.bind_iff.mpr (Ensures.bind_iff.mpr (flow_iff.mpr (Ensures.pure_iff.mpr ?_)))
    split
    · rename_i hnext
      exact ih (by simpa [Flow.isNext] using hnext)
    · intro hleft
      cases hleft

theorem runFrom_no_jump {statement : Node → Exec Unit} {nodes : List Node} (fuel : Nat)
    (hr : r.flow.kind = .next) : Ensures (runFrom statement list fuel nodes) r
      (fun _ r' => ∀ label, r'.flow.kind ≠ .goto label) fun _ _ => True := by
  induction fuel generalizing nodes r with
  | zero => trivial
  | succ fuel ih =>
    rw [runFrom, Ensures.bind_iff]
    refine (runStraight_next hr).mono ?_ fun _ _ he => he
    rintro (_ | _) r₁ hleft
    · intro label hkind
      cases (hleft rfl).symm.trans hkind
    · refine Ensures.bind_iff.mpr (flow_iff.mpr ?_)
      split
      · split
        · exact Ensures.bind_iff.mpr (setKind_iff.mpr (ih rfl))
        · trivial
      · rename_i hother
        exact fun label hkind => hother label hkind

theorem leaveProgram_answers (hp : TopPost .free A K scope r₀ r)
    (hjump : ∀ label, r.flow.kind ≠ .goto label) :
    Ensures leaveBody r (fun _ r' => Ended .free A K scope r₀ r')
      fun e r' => TopFail .free A K scope r₀ e r' ∧ e.Answered size := by
  have hanswer : Ensures leaveBody r (fun _ _ => True) fun e _ => e.Answered size := by
    rw [leaveBody, Ensures.bind_iff, flow_iff, Ensures.bind_iff]
    rcases hflow : r.flow with ⟨kind, result⟩
    have hkind := congrArg Flow.kind hflow
    cases kind with
    | next | returning | exiting => trivial
    | goto label => exact absurd hkind (hjump label)
    | breaking | continuing => exact .inr ⟨rfl, .inr ⟨_, rfl⟩⟩
    | failed => exact absurd hkind hp.kind
  exact ((leaveProgram_sound hp).and hanswer).mono (fun _ _ h => h.1) fun _ _ he => he

theorem runProgram_answers (fuel : Nat) (hp : ∀ n ∈ list, Parsed (fun _ => True) .statement n)
    (hc : ∀ n ∈ list, Builder.Closed size n) (hst : State .free A K [] scope r)
    (hflow : r.flow = .start) (hlast : r.last = none) (hr : r.Known size) :
    Ensures (runProgram (ofFuel fuel) fuel list scope) r (fun _ r' => Settled .free A K scope r r')
      fun e r' => SettledFail .free A K scope r e r' ∧ e.Answered size := by
  have hb : Between .free A K scope r r := ⟨.refl, by rw [hlast]; exact hst, hflow⟩
  have hbody : Ensures (do
      runFrom (topStatement (ofFuel fuel) scope) list fuel list
      leaveBody
      readOutcome) r (fun _ r' => Ended .free A K scope r r')
      fun e r' => TopFail .free A K scope r e r' ∧ e.Answered size := by
    rw [Ensures.bind_iff]
    refine ((runStatements_answers fuel hp hc hb hr).and
      (runFrom_no_jump fuel (by rw [hflow]; rfl))).mono ?_ fun _ _ he => he.1
    rintro _ r₁ ⟨⟨hp₁, -⟩, hjump⟩
    rw [Ensures.bind_iff]
    refine (leaveProgram_answers hp₁ hjump).mono ?_ fun _ _ he => he
    rintro _ r₂ he
    exact readOutcome_ensures he.state.sound fun _ => he
  rw [runProgram, Ensures.bind_iff, attempt_iff]
  refine hbody.mono ?_ ?_
  · rintro outcome r₁ he
    exact he.release fun _ _ hf => by cases hf
  · rintro (f | _) r₁ ⟨he, hanswer⟩
    · obtain ⟨hf, hst₁, hres, hcause⟩ := he
      have hended : Ended .free A K scope r r₁ := ⟨hf, by rw [hres]; exact hst₁⟩
      refine hended.release fun f' r' hf' hs => ?_
      cases hf'
      exact ⟨⟨hs, hcause⟩, hanswer⟩
    · exact ⟨trivial, trivial⟩

theorem runTree_answers (fuel : Nat) {source : String} (hfine : (Tree.parse source).hasErrors = false)
    (hst : State .free A K [] scope r) (hflow : r.flow = .start) (hlast : r.last = none)
    (hr : r.Known source.utf8ByteSize) :
    Ensures (runTree (ofFuel fuel) fuel (Tree.parse source) scope) r
      (fun _ r' => Settled .free A K scope r r')
      fun e r' => SettledFail .free A K scope r e r' ∧ e.Answered source.utf8ByteSize := by
  obtain ⟨body, hroot, hbody⟩ := Tree.parse_statements hfine
  have hclosed := Tree.parse_closed source
  unfold runTree
  simp only [hfine, hroot, Bool.false_eq_true, if_false, bne_self_eq_false] at hclosed ⊢
  split
  · exact ⟨.refl, hst⟩
  · exact runProgram_answers fuel hbody hclosed hst hflow hlast hr

end Interpreter

def Function.isNative (f : Function) : Bool :=
  match f.body with
  | .script _ => false
  | .native _ => true

namespace Machine

variable {config : Config} {m : Machine} {fuel : Nat} {source : String} {f : Failure}

-- The functions of a new machine are those of the library.
theorem Restored.known (h : Restored config m) (size : Nat) : m.store.scopes.Known (Function.Inside size) := by
  have hnative : (((ofConfig {}).store.scope? (ofConfig {}).root).all fun sc =>
      sc.funcs.all Function.isNative) = true := by decide +kernel
  refine Arena.all_of_get? fun s sc hsc f hf block hblock => ?_
  have hsc' : (ofConfig config).store.scope? s = some sc := (h.store.scopes.get? s).symm.trans hsc
  rw [scope_ofConfig hsc', ofConfig_eq config] at hsc'
  generalize ofConfig {} = m₀ at hnative hsc'
  have hfuncs := List.all_eq_true.mp (by simpa [hsc'] using hnative) f hf
  simp [Function.isNative, hblock] at hfuncs

theorem start_fails {part : Exec α} {P : Halt → Prop} {e : Halt}
    (h : Ensures part m.idle (fun _ _ => True) fun e _ => P e)
    (he : (m.start part).1 = .error e) : P e := by
  unfold Ensures at h
  unfold start perform at he
  rcases hrun : part.run.run m.idle with ⟨_ | _, _⟩
  all_goals
    rw [hrun] at h he
    cases he
  exact h

theorem run_answers {A : ScopeId → Prop} {K : VarId → Prop} (hst : State .free A K [] m.root m.idle)
    (hlive : ∃ sc, m.store.scope? m.root = some sc) (hk : m.store.scopes.Known (Function.Inside source.utf8ByteSize))
    (hfine : (Tree.parse source).hasErrors = false)
    (hf : (m.run fuel (Tree.parse source)).1 = .error (.failure f)) :
    (Halt.failure f).Answered source.utf8ByteSize := by
  refine start_fails (P := Halt.Answered source.utf8ByteSize) ?_ hf
  rw [Ensures.bind_iff]
  have hopened : Mindful source.utf8ByteSize (Exec.onStore (Store.createChild m.root "program")) :=
    .onStore .createChild
  have hno : Ensures (Exec.onStore (Store.createChild m.root "program")) m.idle (fun _ _ => True)
      fun _ _ => False := by
    rw [Exec.onStore_iff]
    refine (Store.createChild_ensures hst.sound).mono (fun _ _ _ => trivial) fun e st he => ?_
    obtain ⟨sc, hsc⟩ := hlive
    cases he.2.2.symm.trans hsc
  refine ((Exec.createChild_ensures hst rfl).and ((hopened m.idle hk).and hno)).mono ?_ fun _ _ he => he.2.2.elim
  rintro n r₁ ⟨⟨he, hflow, -⟩, ⟨-, hr₁⟩, -⟩
  rw [Ensures.bind_iff, Exec.attempt_iff]
  refine (Interpreter.runTree_answers fuel hfine he.state (hflow.trans rfl) he.frame.last hr₁).mono ?_ ?_
  · intro outcome r hs
    exact (@settled_ensures _ _ _ _ (.ok outcome) _ _ _ _ he hs fun _ _ hg => nomatch hg).mono
      (fun _ _ _ => trivial) fun _ _ he => he
  · rintro (g | _) r ⟨hs, hanswer⟩
    · refine (settled_ensures he hs.1 fun g' r' hg _ => ?_).mono (fun _ _ _ => trivial)
        fun _ _ he => he
      cases hg
      exact hanswer
    · trivial

-- A failure of a program has a place in its source, unless a jump at its top
-- has nowhere to go.
theorem Aged.run_placed (h : Aged config m) (hfine : (Tree.parse source).hasErrors = false)
    (hf : (m.run fuel (Tree.parse source)).1 = .error (.failure f)) :
    (∃ s, f.span = some s ∧ s.start < s.stop ∧ s.stop ≤ source.utf8ByteSize) ∨
      f.span = none ∧ ((∃ label, f.cause = .labelNotInBlock label) ∨
        ∃ word, f.cause = .outsideLoop word) := by
  have hr := h.restored
  have hlive : ∃ sc, m.store.scope? m.root = some sc := by
    obtain ⟨sc, hsc⟩ := live_root_ofConfig config
    refine ⟨sc, ?_⟩
    rw [hr.root]
    exact (hr.store.scopes.get? _).trans hsc
  have hst := Store.Rests.state (r := m.idle) hr.rests.1 (.inl hlive)
  rcases run_answers hst hlive (hr.known _) hfine hf with ⟨s, hs, hin⟩ | hstray
  · exact .inl ⟨s, hs, hin.nonempty, hin.stop_le⟩
  · exact .inr hstray

example : failsWith (·.span == some ⟨0, 1⟩) ((ofConfig {}).run 9 (Tree.parse "x;")).1 = true := by
  decide +kernel

-- The end of the source ends the statement here; its semicolon is no place.
theorem Aged.run_placed_division : ∃ f,
    ((ofConfig {}).run 9 (Tree.parse "1 / 0")).1 = .error (.failure f) ∧
      ∃ s, f.span = some s ∧ s.start < s.stop ∧ s.stop ≤ "1 / 0".utf8ByteSize := by
  obtain ⟨f, hf, hsome⟩ := exists_of_failsWith (r := ((ofConfig {}).run 9 (Tree.parse "1 / 0")).1)
    (·.span.isSome) (by decide +kernel)
  refine ⟨f, hf, (Aged.fresh.run_placed (by decide +kernel) hf).resolve_right fun hnone => ?_⟩
  rw [hnone.1] at hsome
  cases hsome

theorem run_unplaced : (Tree.parse "goto nowhere;").hasErrors = false ∧
    ∃ f, ((ofConfig {}).run 9 (Tree.parse "goto nowhere;")).1 = .error (.failure f) ∧
      f.span = none := by
  refine ⟨by decide +kernel, ?_⟩
  obtain ⟨f, hf, hnone⟩ := exists_of_failsWith
    (r := ((ofConfig {}).run 9 (Tree.parse "goto nowhere;")).1) (·.span == none) (by decide +kernel)
  exact ⟨f, hf, by simpa using hnone⟩

end Machine

end FinLang

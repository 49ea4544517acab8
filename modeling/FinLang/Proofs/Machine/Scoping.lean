import FinLang.Proofs.Machine.Bodies
import FinLang.Proofs.Machine.Host

namespace FinLang

-- The machine behind a part, however the part has ended.
def Exec.after {α : Type} (part : Exec α) (r : Run) : Run :=
  (part.run.run r).2

namespace Run

-- Machines at work that programs lead to. A run may be left at any point of it,
-- and go on with any flow.
inductive Arises (config : Config) : Run → Prop
  | fresh (flow : Flow) (last : Option VarId) : Arises config ⟨Machine.ofConfig config, flow, last⟩
  | flows {r : Run} (flow : Flow) (last : Option VarId) (h : Arises config r) :
      Arises config ⟨r.machine, flow, last⟩
  | opens {r : Run} (parent : ScopeId) (name : String) (h : Arises config r) :
      Arises config (Exec.after (Exec.onStore (Store.createChild parent name)) r)
  | closes {r : Run} (scope : ScopeId) (h : Arises config r) :
      Arises config (Exec.after (Exec.onStore (Store.destroy scope)) r)
  | evaluates {r : Run} (ok : Point → Run → Bool) (fuel : Nat) (node : Node) (scope : ScopeId)
      (h : Arises config r) :
      Arises config (Exec.after ((Interpreter.watched ok fuel).eval node scope) r)
  | executes {r : Run} (ok : Point → Run → Bool) (fuel : Nat) (node : Node) (scope : ScopeId)
      (h : Arises config r) :
      Arises config (Exec.after ((Interpreter.watched ok fuel).exec node scope) r)
  | calls {r : Run} (ok : Point → Run → Bool) (fuel : Nat) (f : Function) {args : Arguments}
      (caller : ScopeId) (hargs : args.Bound r) (h : Arises config r) :
      Arises config (Exec.after ((Interpreter.watched ok fuel).call f args caller) r)
  | runs {r : Run} (ok : Point → Run → Bool) (fuel : Nat) (tree : Tree) (scope : ScopeId)
      (h : Arises config r) :
      Arises config (Exec.after ((Interpreter.watched ok fuel).runTree fuel tree scope) r)

-- What lives, its parents, marks and bindings, and how deep calls are nested.
structure SameScopes (r r' : Run) : Prop where
  scopes : ∀ s, r'.scope? s = r.scope? s
  depth : r'.machine.depth = r.machine.depth

-- The same, bindings excepted that one scope has gained.
structure Gained (P : Permit) (r r' : Run) : Prop where
  others : ∀ s, s ≠ P.scope → r'.scope? s = r.scope? s
  own : P.Grows (r.scope? P.scope) (r'.scope? P.scope)
  depth : r'.machine.depth = r.machine.depth

end Run

-- Where a part returns, with a result or a failure.
def Exec.Returns {α : Type} (part : Exec α) (r : Run) (Q : Run → Prop) : Prop :=
  Ensures part r (fun _ r' => Q r') fun e r' => e ≠ .outOfFuel → Q r'

open Interpreter in
-- What a construct does to the scopes. What an executed node binds has been
-- declared or defined by a node that was executed in the very scope: it is among
-- any points that are enough for the run.
structure Run.Disciplined (config : Config) (fuel : Nat) (r : Run) : Prop where
  eval : ∀ node scope, Exec.Returns ((ofFuel fuel).eval node scope) r r.SameScopes
  call : ∀ f args caller, args.Bound r →
    Exec.Returns ((ofFuel fuel).call f args caller) r r.SameScopes
  exec : ∀ ok node scope,
    ((watched ok fuel).exec node scope).run.run r = ((ofFuel fuel).exec node scope).run.run r →
    Exec.Returns ((ofFuel fuel).exec node scope) r (r.Gained (.of ok scope))
  evalDepth : ∀ ok node scope,
    (Exec.after ((watched ok fuel).eval node scope) r).machine.depth ≤ config.maxCallDepth
  execDepth : ∀ ok node scope,
    (Exec.after ((watched ok fuel).exec node scope) r).machine.depth ≤ config.maxCallDepth
  callDepth : ∀ ok f args caller, args.Bound r →
    (Exec.after ((watched ok fuel).call f args caller) r).machine.depth ≤ config.maxCallDepth
  limit : ∀ f args caller, config.maxCallDepth ≤ r.machine.depth → fuel ≠ 0 →
    ((ofFuel fuel).call f args caller).run.run r =
      (.error (.failure (.of (.callDepth config.maxCallDepth))), r)

-- A part that may be executed anywhere and leaves a machine that holds together.
def Lasting {α : Type} (part : Exec α) : Prop :=
  ∀ r : Run, r.Fine → Ensures part r (fun _ r' => r.Follows r') fun _ r' => r.Follows r'

variable {α β : Type} {P : Permit} {config : Config} {ok : Point → Run → Bool} {scope : ScopeId}
  {r r' r'' : Run} {x : VarId} {self : Interpreter} {node : Node} {part : Exec α}

theorem Evaluated.follows {v : Option VarId} (h : Evaluated r v r') (hf : r.Fine) : r.Follows r' := by
  cases v with
  | some x => exact h.1.calm.follows hf
  | none => exact Calm.follows h hf

theorem Halted.follows {R : Run → Run → Prop} {e : Halt} (h : Halted R r e r')
    (hR : ∀ r', R r r' → r.Follows r') : r.Follows r' := by
  cases e with
  | failure f => exact hR r' h
  | outOfFuel => exact h

theorem Evaluated.sameScopes {v : Option VarId} (h : Evaluated r v r') : r.SameScopes r' := by
  cases v with
  | some x => exact ⟨h.1.scopes, h.1.depth⟩
  | none => exact ⟨h.scopes, h.depth⟩

theorem Ensures.after {Q : Run → Prop} (h : Ensures part r (fun _ => Q) fun _ => Q) :
    Q (part.after r) := by
  unfold Ensures at h
  unfold Exec.after
  split at h <;> rename_i heq <;> rw [heq] <;> exact h

theorem Ensures.of_after {Q : Run → Prop} (h : Q (part.after r)) :
    Ensures part r (fun _ => Q) fun _ => Q := by
  unfold Exec.after at h
  unfold Ensures
  split <;> rename_i heq <;> rwa [heq] at h

theorem Ensures.returns {R : Run → Run → Prop} {Q : α → Run → Prop} {S : Run → Prop}
    (h : Ensures part r Q (Halted R r)) (hq : ∀ a r', Q a r' → S r') (hr : ∀ r', R r r' → S r') :
    part.Returns r S :=
  h.mono hq fun e r' he hne => by
    cases e with
    | failure f => exact hr r' he
    | outOfFuel => exact absurd rfl hne

namespace Lasting

theorem bind {k : α → Exec β} (hp : Lasting part) (hk : ∀ a, Lasting (k a)) :
    Lasting (part >>= k) :=
  fun r hf => (hp r hf).bind fun a r' h =>
    (hk a r' h.fine).mono (fun _ _ h' => h.trans h') fun _ _ h' => h.trans h'

theorem pure {a : α} : Lasting (Pure.pure a : Exec α) :=
  fun _ hf => .refl hf

theorem ofExcept {v : Except Failure α} : Lasting (Exec.ofExcept v) := by
  cases v with
  | ok a => exact pure
  | error f => exact fun _ hf => .refl hf

theorem attempt (hp : Lasting part) : Lasting (Exec.attempt part) := by
  intro r hf
  rw [Exec.attempt_iff]
  refine (hp r hf).mono (fun _ _ h => h) ?_
  rintro (f | _) r' h <;> exact h

theorem located {s : Option Span} (hp : Lasting part) : Lasting (Exec.located s part) :=
  fun r hf => Exec.located_iff.mpr (hp r hf)

theorem release : Lasting (Exec.release x) :=
  fun _ hf => (Exec.release_still hf).mono (fun _ _ hs => hs.1.follows hf) fun _ _ he => he

theorem releaseOption {o : Option VarId} : Lasting (o.forM Exec.release) := by
  cases o with
  | none => exact pure
  | some x => exact release

end Lasting

theorem Regular.lasting (hp : Regular P part) : Lasting part :=
  fun r hf => (hp r hf).mono (fun _ _ h => h.follows hf) fun _ _ he =>
    he.follows fun _ h => h.follows hf

namespace Interpreter

open Exec

theorem eval_lasting (hself : self.Orderly ok) : Lasting (self.eval node scope) :=
  fun _ hf => (hself.eval hf).mono (fun _ _ h => h.follows hf) fun _ _ he =>
    he.follows fun _ h => h.follows hf

theorem exec_lasting (hself : self.Orderly ok) : Lasting (self.exec node scope) :=
  Regular.lasting fun _ hf => hself.exec hf

theorem call_follows {f : Function} {args : Arguments} {caller : ScopeId} (hself : self.Orderly ok)
    (hf : r.Fine) (hargs : args.Bound r) :
    Ensures (self.call f args caller) r (fun _ r' => r.Follows r') fun _ r' => r.Follows r' :=
  (hself.call hf hargs).mono (fun _ _ h => h.follows hf) fun _ _ he =>
    he.follows fun _ h => h.follows hf

theorem keepLast_lasting : Lasting (keepLast x) := by
  intro r hf
  rw [keepLast, Ensures.bind_iff, Ensures.get_iff, Ensures.bind_iff, Ensures.modify_iff]
  have hkept : r.Follows { r with last := some x } := ⟨⟨hf.sound, hf.depth⟩, rfl, id⟩
  split
  · exact (Lasting.releaseOption _ hkept.fine).mono (fun _ _ h => hkept.trans h) fun _ _ h =>
      hkept.trans h
  · exact hkept

theorem topStatement_lasting (hself : self.Orderly ok) : Lasting (topStatement self scope node) := by
  unfold topStatement
  split
  · refine (eval_lasting hself).located.bind fun value => ?_
    cases value with
    | none => exact .pure
    | some x => exact keepLast_lasting
  · exact exec_lasting hself

theorem readOutcome_lasting : Lasting readOutcome := by
  intro r hf
  rw [readOutcome, Ensures.bind_iff, Ensures.get_iff]
  simp only
  split
  · split
    · exact Lasting.bind .ofExcept (fun _ => .pure) r hf
    · exact Lasting.bind .pure (fun _ => .pure) r hf
  · exact Lasting.bind .pure (fun _ => .pure) r hf

theorem runProgram_lasting (hself : self.Orderly ok) (fuel : Nat) {children : List Node} :
    Lasting (runProgram self fuel children scope) := by
  have hstatements : Lasting (runFrom (topStatement self scope) children fuel children) := by
    intro r hf
    have hkind : ∀ {r' : Run} {k : FlowKind}, r.Follows r' →
        r.Follows { r' with flow := r'.flow.withKind k } := fun h =>
      ⟨⟨h.fine.sound, h.fine.depth⟩, h.config, h.anchored⟩
    refine runFrom_ensures (R := r.Follows) fuel (fun _ h => h) (fun _ h => h) (fun node _ r₁ h => ?_)
      (fun _ h _ => h) (fun _ _ h _ => ⟨hkind h, hkind h⟩) (fun _ h => h) (.refl hf)
    exact (topStatement_lasting hself r₁ h.fine).mono (fun _ _ h' => h.trans h') fun _ _ h' =>
      h.trans h'
  have htake : Lasting takeResult := fun _ hf =>
    takeResult_iff.mpr ⟨⟨hf.sound, hf.depth⟩, rfl, id⟩
  have hget : Lasting (MonadState.get : Exec Run) := fun _ hf => Run.Follows.refl hf
  refine (hstatements.bind fun _ => (Regular.leaveBody (P := .any scope)).lasting.bind fun _ =>
    readOutcome_lasting).attempt.bind fun outcome => ?_
  exact htake.bind fun _ => .bind Lasting.releaseOption fun _ => hget.bind fun _ =>
    .bind Lasting.releaseOption fun _ => .ofExcept

theorem runTree_lasting (hself : self.Orderly ok) (fuel : Nat) {tree : Tree} :
    Lasting (runTree self fuel tree scope) := by
  unfold runTree
  split
  · exact fun _ hf => .refl hf
  split
  · exact fun _ hf => .refl hf
  split
  · exact .pure
  · exact runProgram_lasting hself fuel

end Interpreter

theorem Exec.createChild_lasting {name : String} :
    Lasting (Exec.onStore (Store.createChild scope name)) := by
  intro r hf
  refine (createChild_opened hf).mono (fun _ _ h => h.1.follows hf) ?_
  rintro _ _ ⟨-, rfl⟩
  exact .refl hf

theorem Exec.destroy_lasting : Lasting (Exec.onStore (Store.destroy scope)) := by
  intro r hf
  rw [onStore_iff]
  rcases hsc : r.scope? scope with _ | sc
  · rw [Store.destroy, Ensures.bind_iff]
    exact (Store.readScopes_lookup_stale hsc).mpr (.refl hf)
  · refine (Store.destroy_ensures hf.sound hsc).mono (fun _ st' h => ⟨⟨h.1, hf.depth⟩, rfl, ?_⟩)
      fun _ _ he => he
    -- A target that had gone would have been forgotten.
    rintro ha l t ⟨w, hw, hp⟩
    obtain ⟨G, hfreed, -⟩ := h.freed
    obtain ⟨-, v, hv, rfl⟩ := hfreed.of_some hw
    obtain ⟨hlink, hGt⟩ := Payload.without_eq_link_iff.mp hp
    obtain ⟨s, u, hu, ho⟩ := ha l t ⟨v, hv, hlink⟩
    exact ⟨s, _, hfreed.some hGt hu, ho⟩

-- The library has no links.
theorem Machine.not_points_ofConfig (config : Config) (l t : VarId) :
    ¬(Machine.ofConfig config).store.heap.Points l t := by
  have hinstall : ∀ root, Store.Upholds (Heap.WithinLinks Heap.empty) (Machine.install root) := by
    intro root
    have hI : Heap.Durable (Heap.WithinLinks Heap.empty) := Heap.durable_within
    refine Store.Upholds.bind (.forM (fun _ => ?_) _) fun _ => .forM (fun _ => .addFunction) _
    exact (Store.Upholds.onHeap (hI.alloc (p := .numeric _) nofun)).bind fun _ => (Store.Upholds.declare hI).bind fun _ =>
      .onHeap hI.setWriteProtected
  have hempty : Heap.WithinLinks Heap.empty
      ((Store.createScope "root" none).run Store.empty).2.heap := ⟨Arena.sound_empty, .refl⟩
  unfold Machine.ofConfig
  rcases hbase : (Store.createScope "root" none).run Store.empty with ⟨root, st⟩
  rw [hbase] at hempty
  have h := hinstall root st hempty
  unfold Ensures at h
  rcases hrun : (Machine.install root).run.run st with ⟨_ | _, st'⟩ <;> rw [hrun] at h <;>
    simp only [hrun]
  all_goals
    intro hp
    obtain ⟨v, hv, -⟩ := h.2 l t hp
    cases hv

namespace Run.Arises

theorem follows (h : Arises config r) : r.Fine ∧ r.machine.config = config ∧ r.Anchored := by
  have hnext : ∀ {r r' : Run}, r.Fine ∧ r.machine.config = config ∧ r.Anchored → r.Follows r' →
      r'.Fine ∧ r'.machine.config = config ∧ r'.Anchored := fun hr h =>
    ⟨h.fine, h.config.trans hr.2.1, h.anchored hr.2.2⟩
  have horder := Interpreter.watched_orderly
  induction h with
  | fresh flow last =>
    have hsound := (Machine.rests_ofConfig .free config).1.sound
    have hlinks := Machine.not_points_ofConfig config
    obtain ⟨hdepth, hconfig⟩ := Machine.depth_ofConfig config
    generalize Machine.ofConfig config = m at hsound hlinks hdepth hconfig
    exact ⟨⟨hsound, hdepth ▸ Nat.zero_le _⟩, hconfig, fun l t hp => absurd hp (hlinks l t)⟩
  | flows flow last h ih => exact ⟨⟨ih.1.sound, ih.1.depth⟩, ih.2⟩
  | opens parent name h ih => exact hnext ih (Exec.createChild_lasting _ ih.1).after
  | closes scope h ih => exact hnext ih (Exec.destroy_lasting _ ih.1).after
  | evaluates ok fuel node scope h ih => exact hnext ih (Interpreter.eval_lasting (horder ok fuel) _ ih.1).after
  | executes ok fuel node scope h ih => exact hnext ih (Interpreter.exec_lasting (horder ok fuel) _ ih.1).after
  | calls ok fuel f caller hargs h ih =>
    exact hnext ih (Interpreter.call_follows (horder ok fuel) ih.1 hargs).after
  | runs ok fuel tree scope h ih => exact hnext ih (Interpreter.runTree_lasting (horder ok fuel) fuel _ ih.1).after

theorem fine (h : Arises config r) : r.Fine ∧ r.machine.config = config :=
  ⟨h.follows.1, h.follows.2.1⟩

-- Whatever a host has called a machine for, it is among these.
theorem of_reached {calls : List HostCall} {m : Machine} (h : Machine.Reached config calls m)
    (flow : Flow) (last : Option VarId) : Arises config ⟨m, flow, last⟩ := by
  have hreturned : ∀ {α : Type} {m m' : Machine} {part : Exec α},
      Machine.returned (m.start part) = some m' → (part.after m.idle).machine = m' := by
    intro α m m' part hm
    have hafter : (m.start part).2 = (part.after m.idle).machine := rfl
    rw [← hafter]
    rcases hrun : m.start part with ⟨(_ | _) | _, m₁⟩ <;> rw [hrun] at hm <;> cases hm
    · rfl
    · rfl
  have hwatched : ∀ {r : Run} {fuel : Nat} {tree : Tree} {scope : ScopeId}, Arises config r →
      Arises config (Exec.after ((Interpreter.ofFuel fuel).runTree fuel tree scope) r) :=
    fun {r fuel tree scope} h =>
      Interpreter.watched_all fuel ▸ h.runs (fun _ _ => true) fuel tree scope
  induction h generalizing flow last with
  | start => exact .fresh flow last
  | @call calls m m' fuel c hreached hm ih =>
    have hidle : Arises config m.idle := ih .start none
    cases c with
    | run source =>
      rw [← hreturned hm]
      refine .flows flow last (Ensures.after (Q := Arises config) ?_)
      rw [Ensures.bind_iff]
      refine (Ensures.of_after (hidle.opens m.root "program")).mono (fun n r₁ h₁ => ?_) fun _ _ he => he
      have hclose : ∀ {r₂ : Run} (outcome : Except Failure Outcome), Arises config r₂ →
          Ensures (do
            let destroyed ← Exec.attempt (Exec.onStore (Store.destroy n))
            let outcome ← Exec.ofExcept outcome
            Exec.ofExcept destroyed
            return outcome) r₂ (fun _ => Arises config) fun _ => Arises config := by
        intro r₂ outcome h₂
        rw [Ensures.bind_iff, Exec.attempt_iff]
        refine (Ensures.of_after (h₂.closes n)).mono (fun _ r₃ h₃ => ?_) ?_
        · cases outcome <;> exact h₃
        · rintro (f | _) r₃ h₃
          · cases outcome <;> exact h₃
          · exact h₃
      rw [Ensures.bind_iff, Exec.attempt_iff]
      refine (Ensures.of_after (hwatched h₁)).mono (fun outcome r₂ h₂ => hclose (.ok outcome) h₂) ?_
      rintro (f | _) r₂ h₂
      · exact hclose (.error f) h₂
      · exact h₂
    | openSession =>
      cases hm
      exact .flows flow last (hidle.opens m.root "session")
    | runIn source scope =>
      rw [← hreturned hm]
      exact .flows flow last (hwatched hidle)
    | closeSession scope =>
      cases hm
      exact .flows flow last (hidle.closes scope)

-- However a construct is left, the scopes are as they were, and calls have never
-- been nested beyond the limit.
theorem disciplined (h : Arises config r) (fuel : Nat) : r.Disciplined config fuel := by
  obtain ⟨hf, hconfig⟩ := h.fine
  have hdepth : ∀ {r' : Run}, r.Follows r' → r'.machine.depth ≤ config.maxCallDepth := fun h =>
    hconfig ▸ h.config ▸ h.fine.depth
  have horder := Interpreter.watched_orderly
  have hall := Interpreter.watched_all fuel ▸ horder (fun _ _ => true) fuel
  refine ⟨fun node scope => ?_, fun f args caller hargs => ?_, fun ok node scope hsame => ?_,
    fun ok node scope => ?_, fun ok node scope => ?_, fun ok f args caller hargs => ?_,
    fun f args caller hlimit hfuel => ?_⟩
  · exact (hall.eval hf).returns (fun _ _ h => h.sameScopes) fun _ hc => ⟨hc.scopes, hc.depth⟩
  · exact (hall.call hf hargs).returns (fun _ _ hc => ⟨hc.scopes, hc.depth⟩) fun _ hc =>
      ⟨hc.scopes, hc.depth⟩
  · have hexec : Ensures ((Interpreter.watched ok fuel).exec node scope) r
        (fun _ r' => Moves (.of ok scope) r r') (Halted (Moves (.of ok scope)) r) :=
      (horder ok fuel).exec hf
    unfold Ensures at hexec
    rw [hsame] at hexec
    exact Ensures.returns (Q := fun _ r' => Moves (.of ok scope) r r') hexec
      (fun _ _ hm => ⟨hm.others, hm.own, hm.depth⟩) fun _ hm => ⟨hm.others, hm.own, hm.depth⟩
  · exact hdepth (Interpreter.eval_lasting (horder ok fuel) r hf).after
  · exact hdepth (Interpreter.exec_lasting (horder ok fuel) r hf).after
  · exact hdepth (Interpreter.call_follows (horder ok fuel) hf hargs).after
  · obtain ⟨n, rfl⟩ := Nat.exists_eq_succ_of_ne_zero hfuel
    subst hconfig
    exact Interpreter.enterCall_refused hlimit

-- Where no calls are allowed the first one is refused.
theorem disciplined_callless :
    let r : Run := ⟨Machine.ofConfig ⟨0, false⟩, .start, none⟩
    Arises ⟨0, false⟩ r ∧ r.Disciplined ⟨0, false⟩ 3 ∧
      ((Interpreter.ofFuel 3).call ⟨"f", [], .script .always⟩ (.nodes []) r.machine.root).run.run r =
        (.error (.failure (.of (.callDepth 0))), r) := by
  intro r
  have h : Arises ⟨0, false⟩ r := .fresh .start none
  exact ⟨h, disciplined h 3, (disciplined h 3).limit _ _ _ (Nat.zero_le _) (by decide)⟩

end Run.Arises

end FinLang

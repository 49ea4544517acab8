import FinLang.Proofs.Agree
import FinLang.Proofs.Machine.Locations
import FinLang.Proofs.Machine.Probe
import FinLang.Proofs.Machine.Rest

namespace FinLang

-- Every function comes from a parsed source or from the library.
abbrev Run.Tame (r : Run) : Prop :=
  r.machine.store.scopes.Known (·.Fit .free)

variable {α β : Type}

-- Two parts that come to the same where the flow has a given kind, and what is known of the flow
-- behind them.
def Flows (k : FlowKind) (Q : α → FlowKind → Prop) (x y : Exec α) : Prop :=
  ∀ r : Run, r.Tame → r.flow.kind = k → Agree x y r r
    (fun a b s t => a = b ∧ s = t ∧ s.Tame ∧ Q a s.flow.kind) fun e e' s t => e = e' ∧ s = t

-- A part that leaves the kind of the flow as it is.
def Inert (x : Exec α) : Prop :=
  ∀ r : Run, r.Tame → Ensures x r (fun _ r' => r'.Tame ∧ r'.flow.kind = r.flow.kind)
    fun _ _ => True

-- A part that never comes to a value.
def Fails (x : Exec α) : Prop :=
  ∀ r : Run, Ensures x r (fun _ _ => False) fun _ _ => True

-- Behind an expression there is a value, or an `exit` has interrupted it.
abbrev ValueFlow (v : Option α) (k : FlowKind) : Prop :=
  k = if v.isSome then .next else .exiting

-- Behind what holds no `return`, loop or label of its own.
abbrev Settles (k : FlowKind) : Prop :=
  k = .next ∨ k = .exiting

variable {k k' : FlowKind} {Q : α → FlowKind → Prop} {R : β → FlowKind → Prop} {x y : Exec α}
  {n scope : ScopeId} {name : String} {id : VarId}

namespace Fails

theorem fail {c : Cause} : Fails (Exec.fail c : Exec α) :=
  fun _ => trivial

theorem outOfFuel : Fails (Exec.outOfFuel : Exec α) :=
  fun _ => trivial

theorem throw {e : Halt} : Fails (throw e : Exec α) :=
  fun _ => trivial

theorem ofExcept {f : Failure} : Fails (Exec.ofExcept (.error f) : Exec α) :=
  fun _ => trivial

theorem left {f : α → Exec β} (hx : Fails x) : Fails (x >>= f) :=
  fun r => (hx r).bind fun _ _ => False.elim

theorem bind {f : α → Exec β} (hf : ∀ a, Fails (f a)) : Fails (x >>= f) :=
  fun _ => Ensures.trivially.bind fun a r' _ => hf a r'

end Fails

namespace Inert

theorem pure {a : α} : Inert (Pure.pure a : Exec α) :=
  fun _ hr => ⟨hr, rfl⟩

theorem of_fails (hx : Fails x) : Inert x :=
  fun r _ => (hx r).mono (fun _ _ => False.elim) fun _ _ he => he

theorem bind {f : α → Exec β} (hx : Inert x) (hf : ∀ a, Inert (f a)) : Inert (x >>= f) :=
  fun r hr => (hx r hr).bind fun a r' h =>
    (hf a r' h.1).mono (fun _ _ h' => ⟨h'.1, h'.2.trans h.2⟩) fun _ _ he => he

theorem ofExcept {v : Except Failure α} : Inert (Exec.ofExcept v) := by
  cases v with
  | ok a => exact pure
  | error f => exact of_fails .ofExcept

theorem get : Inert (MonadState.get : Exec Run) :=
  fun _ hr => ⟨hr, rfl⟩

theorem flow : Inert Exec.flow :=
  fun _ hr => ⟨hr, rfl⟩

theorem carry {result : Option VarId} :
    Inert (modify fun r => { r with flow := { r.flow with result := result } } : Exec Unit) :=
  fun _ hr => ⟨hr, rfl⟩

theorem modifyMachine {f : Machine → Machine} (hf : ∀ m, (f m).store = m.store) :
    Inert (Exec.modifyMachine f) :=
  fun r hr => Ensures.modify_iff.mpr ⟨by rw [Run.Tame, hf]; exact hr, rfl⟩

theorem onStore {op : StoreM α} (hop : Store.Careful (·.Fit .free) op) : Inert (Exec.onStore op) :=
  fun r hr => Exec.onStore_iff.mpr ((hop r.machine.store hr).mono (fun _ _ h => ⟨h, rfl⟩)
    fun _ _ _ => trivial)

theorem onHeap {op : HeapM α} (hop : Placeless op) : Inert (Exec.onHeap op) :=
  onStore (.onHeap hop)

theorem readHeap {f : Heap → Except Failure α} : Inert (Exec.readHeap f) :=
  .bind get fun _ => ofExcept

theorem readScopes {f : Scopes → Except Failure α} : Inert (Exec.readScopes f) :=
  .bind get fun _ => ofExcept

theorem release : Inert (Exec.release id) :=
  onHeap Heap.release_placeless

theorem option {f : α → Exec Unit} (hf : ∀ a, Inert (f a)) {v : Option α} : Inert (v.forM f) := by
  cases v with
  | none => exact pure
  | some a => exact hf a

theorem forM {f : α → Exec Unit} (hf : ∀ a, Inert (f a)) (l : List α) : Inert (l.forM f) := by
  induction l with
  | nil => exact pure
  | cons a rest ih =>
    simp only [List.forM_eq_forM, List.forM_cons] at ih ⊢
    exact (hf a).bind fun _ => ih

theorem mapM {f : α → Exec β} (hf : ∀ a, Inert (f a)) (l : List α) : Inert (l.mapM f) := by
  induction l with
  | nil => exact pure
  | cons a rest ih =>
    rw [List.mapM_cons]
    exact (hf a).bind fun _ => ih.bind fun _ => pure

theorem setResult : Inert (Exec.setResult id) :=
  .bind flow fun _ => .bind carry fun _ => option fun _ => release

theorem takeResult : Inert Exec.takeResult :=
  .bind flow fun _ => .bind carry fun _ => pure

theorem attempt_bind {f : Except Failure α → Exec β} (hx : Inert x) (hok : ∀ a, Inert (f (.ok a)))
    (herr : ∀ e, Fails (f (.error e))) : Inert (Exec.attempt x >>= f) := by
  intro r hr
  rw [Ensures.bind_iff, Exec.attempt_iff]
  refine (hx r hr).mono ?_ ?_
  · rintro a r₁ ⟨hr₁, hk⟩
    exact (hok a r₁ hr₁).mono (fun _ _ h => ⟨h.1, h.2.trans hk⟩) fun _ _ he => he
  · rintro (e | _) r₁ -
    · exact (herr e r₁).mono (fun _ _ => False.elim) fun _ _ he => he
    · trivial

theorem located {s : Option Span} (hx : Inert x) : Inert (Exec.located s x) :=
  fun r hr => Exec.located_iff.mpr (hx r hr)

theorem own : Inert (Exec.own id) := by
  refine .bind readHeap fun v => ?_
  split
  · exact pure
  · exact (onHeap Heap.duplicate_placeless).bind fun _ => .bind release fun _ => pure

theorem rescueResult : Inert (Exec.rescueResult n) := by
  refine .bind flow fun f => ?_
  split
  · exact pure
  refine .bind readHeap fun _ => .bind readHeap fun _ => ?_
  split
  · exact (onHeap Heap.duplicate_placeless).bind fun _ =>
      (onHeap Heap.update_placeless).bind fun _ => setResult
  · split
    · exact setResult
    · exact pure

end Inert

theorem Fails.leaveScope {f : Failure} : Fails (Exec.leaveScope n (.error f)) := by
  have hfailed : Fails (do
      (← Exec.takeResult).forM Exec.release
      let destroyed ← Exec.attempt (Exec.onStore (Store.destroy n))
      Exec.ofExcept (.error f)
      Exec.ofExcept destroyed) :=
    .bind fun _ => .bind fun _ => .bind fun _ => .left .ofExcept
  exact hfailed

theorem Inert.leaveScope : Inert (Exec.leaveScope n (.ok ())) := by
  refine .attempt_bind rescueResult (fun _ => ?_) fun e => ?_
  · exact (onStore .destroy).attempt_bind (fun _ => .bind pure fun _ => pure)
      fun _ => .bind fun _ => .ofExcept
  · dsimp only
    exact .bind fun _ => .bind fun _ => .bind fun _ => .left .ofExcept

theorem Agree.left_ensures {s t : Run} {P : α → α → Run → Run → Prop} {E : Halt → Halt → Run → Run → Prop}
    (h : Agree x y s t P E) : Ensures x s (fun a s' => ∃ b t', P a b s' t') fun _ _ => True := by
  unfold Agree at h
  unfold Ensures
  rcases hx : x.run.run s with ⟨_ | a, s'⟩ <;> rcases hy : y.run.run t with ⟨_ | b, t'⟩ <;>
    rw [hx, hy] at h
  · trivial
  · trivial
  · exact h.elim
  · exact ⟨b, t', h⟩

namespace Flows

theorem mono {P : α → FlowKind → Prop} (hx : Flows k P x y) (h : ∀ a k', P a k' → Q a k') :
    Flows k Q x y :=
  fun r hr hk => (hx r hr hk).mono (fun _ _ _ _ hq => ⟨hq.1, hq.2.1, hq.2.2.1, h _ _ hq.2.2.2⟩)
    fun _ _ _ _ he => he

theorem bind {f g : α → Exec β} (hx : Flows k Q x y)
    (hf : ∀ a k', Q a k' → Flows k' R (f a) (g a)) : Flows k R (x >>= f) (y >>= g) := by
  refine fun r hr hk => (hx r hr hk).bind ?_
  rintro a _ s _ ⟨rfl, rfl, hs, hq⟩
  exact hf a _ hq s hs rfl

theorem inert (hx : Inert x) : Flows k (fun _ k' => k' = k) x x :=
  fun r hr hk => .of_run_eq rfl ((hx r hr).mono
    (fun _ _ h => ⟨rfl, rfl, h.1, h.2.trans hk⟩) fun _ _ _ => ⟨rfl, rfl⟩)

theorem fails (hx : Fails x) : Flows k Q x x :=
  fun r _ _ => .of_run_eq rfl ((hx r).mono (fun _ _ => False.elim) fun _ _ _ => ⟨rfl, rfl⟩)

theorem pure {a : α} (ha : Q a k) : Flows k Q (Pure.pure a) (Pure.pure a) :=
  fun _ hr hk => ⟨rfl, rfl, hr, hk ▸ ha⟩

theorem inert_bind {f g : α → Exec β} (hx : Inert x) (hf : ∀ a, Flows k R (f a) (g a)) :
    Flows k R (x >>= f) (x >>= g) :=
  (inert hx).bind fun a _ hk => hk ▸ hf a

theorem get_bind {f g : Run → Exec β} (hf : ∀ r : Run, r.Tame → Flows k R (f r) (g r)) :
    Flows k R (MonadState.get >>= f) (MonadState.get >>= g) :=
  fun r hr hk => hf r hr r hr hk

theorem flow_bind {f g : Flow → Exec β} (hf : ∀ fl : Flow, fl.kind = k → Flows k R (f fl) (g fl)) :
    Flows k R (Exec.flow >>= f) (Exec.flow >>= g) :=
  fun r hr hk => hf r.flow hk r hr hk

theorem setKind {P : Unit → FlowKind → Prop} (h : P () k') :
    Flows k P (Exec.setKind k') (Exec.setKind k') :=
  fun _ hr _ => ⟨rfl, rfl, hr, h⟩

theorem setFlow {f : Flow} : Flows k (fun _ k' => k' = f.kind) (Exec.setFlow f) (Exec.setFlow f) :=
  fun _ hr _ => ⟨rfl, rfl, hr, rfl⟩

theorem attempt_bind {f : Except Failure α → Exec β} (hx : Flows k Q x y)
    (hok : ∀ a k', Q a k' → Flows k' R (f (.ok a)) (f (.ok a)))
    (herr : ∀ e, Fails (f (.error e))) : Flows k R (Exec.attempt x >>= f) (Exec.attempt y >>= f) := by
  intro r hr hk
  have hended : Agree (Exec.attempt x) (Exec.attempt y) r r
      (fun v w s t => v = w ∧ s = t ∧ ∀ a, v = .ok a → s.Tame ∧ Q a s.flow.kind)
      fun e e' s t => e = e' ∧ s = t := by
    refine Agree.tryCatch ((hx r hr hk).bind ?_) ?_
    · rintro a _ s _ ⟨rfl, rfl, hs, hq⟩
      refine ⟨rfl, rfl, fun b hb => ?_⟩
      cases hb
      exact ⟨hs, hq⟩
    · rintro (e | _) _ s _ ⟨rfl, rfl⟩
      · exact ⟨rfl, rfl, nofun⟩
      · exact ⟨rfl, rfl⟩
  refine hended.bind ?_
  rintro (e | a) _ s _ ⟨rfl, rfl, hs⟩
  · exact .of_run_eq rfl ((herr e s).mono (fun _ _ => False.elim) fun _ _ _ => ⟨rfl, rfl⟩)
  · obtain ⟨hs, hq⟩ := hs a rfl
    exact hok a _ hq s hs rfl

theorem onFailure {cleanup : Exec Unit} (hx : Flows k Q x y) :
    Flows k Q (Exec.onFailure x cleanup) (Exec.onFailure y cleanup) :=
  hx.attempt_bind (fun _ _ hq => pure hq) fun _ => .bind fun _ => .throw

theorem located {s : Option Span} (hx : Flows k Q x y) :
    Flows k Q (Exec.located s x) (Exec.located s y) := by
  intro r hr hk
  have h := hx r hr hk
  unfold Agree at *
  rw [Exec.run_located, Exec.run_located]
  rcases hx : x.run.run r with ⟨_ | _, _⟩ <;> rcases hy : y.run.run r with ⟨_ | _, _⟩ <;>
    rw [hx, hy] at h
  · exact ⟨congrArg (Halt.locate s) h.1, h.2⟩
  · exact h
  · exact h
  · exact h

theorem withScope {f g : ScopeId → Exec Unit} {P : Unit → FlowKind → Prop}
    (hf : ∀ n, Flows k P (f n) (g n)) :
    Flows k P (Exec.withScope scope name f) (Exec.withScope scope name g) := by
  refine inert_bind (.onStore .createChild) fun n => ?_
  refine (hf n).attempt_bind (fun _ _ hq => ?_) fun _ => .leaveScope
  exact (inert .leaveScope).mono fun _ _ he => he ▸ hq

-- A part with a flow of its own leaves the other flow alone.
theorem withFreshFlow {x y : Exec Unit} {P : FlowKind → Prop} (hx : Flows .next (fun _ => P) x y) :
    Flows k (fun inner k' => k' = k ∧ P inner.kind) (Exec.withFreshFlow x) (Exec.withFreshFlow y) := by
  refine flow_bind fun outer houter => .bind setFlow fun _ _ hstart => ?_
  subst hstart
  refine hx.attempt_bind (fun _ k' hp => ?_) fun e => .bind fun _ => .throw
  refine flow_bind fun inner hinner => .bind setFlow fun _ _ hback => pure ?_
  exact ⟨hback.trans houter, hinner ▸ hp⟩

end Flows

namespace Probe

variable {alarm : Halt} {fine : α → FlowKind → Bool}

theorem demand_run {fine : FlowKind → Bool} {r : Run} (h : fine r.flow.kind = true) :
    (demand alarm fine).run.run r = (.ok (), r) := by
  have hdemand : Ensures (demand alarm fine) r (fun _ r' => r' = r) fun _ _ => False := by
    rw [demand, Ensures.bind_iff, Exec.flow_iff, if_pos h]
    exact rfl
  unfold Ensures at hdemand
  rcases hrun : (demand alarm fine).run.run r with ⟨_ | _, r'⟩
  · rw [hrun] at hdemand
    exact hdemand.elim
  · rw [hrun] at hdemand
    rw [hdemand]

-- Where all is well there is no alarm.
theorem around_run {r : Run} (hnext : r.flow.kind = .next)
    (h : Ensures x r (fun a r' => fine a r'.flow.kind = true) fun _ _ => True) :
    (around alarm fine x).run.run r = x.run.run r := by
  unfold around
  rw [run_bind_of_ok (demand_run (by simp [hnext]))]
  unfold Ensures at h
  rcases hrun : x.run.run r with ⟨e | a, r'⟩
  · simp only [Bind.bind, ExceptT.bind, ExceptT.mk, ExceptT.run, StateT.bind, StateT.run] at *
    rw [hrun]
    rfl
  · rw [hrun] at h
    rw [run_bind_of_ok hrun, run_bind_of_ok (demand_run h)]
    rfl

theorem around_flows (hx : Flows .next Q x y) (hq : ∀ a k, Q a k → fine a k = true) :
    Flows .next Q (around alarm fine x) y := by
  intro r hr hk
  have h := hx r hr hk
  have hfine : Ensures x r (fun a r' => fine a r'.flow.kind = true) fun _ _ => True := by
    refine h.left_ensures.mono ?_ fun _ _ he => he
    rintro a s ⟨b, t, -, -, -, hqa⟩
    exact hq a _ hqa
  unfold Agree at h ⊢
  rw [around_run hk hfine]
  exact h

-- Behind a value the flow is at the next statement.
theorem operand_flows : Flows .next (fun _ k => k = .next) (strict alarm).operand off.operand := by
  refine Flows.flow_bind fun fl hfl => ?_
  have hinside : fl.insideExpression = .ok () := by simp [Flow.insideExpression, hfl]
  simp only [hinside]
  exact .pure rfl

-- What leaves a list can leave a body.
theorem leave_flows (hk : k.endsList = true) :
    Flows k (fun _ => Settles) (strict alarm).leave off.leave := by
  have hleave : Flows k (fun _ => Settles) Exec.leaveBody Exec.leaveBody := by
    refine Flows.flow_bind fun fl hfl => ?_
    rcases hend : fl.leaveBody with e | fl'
    · exact (Flows.fails .ofExcept).bind fun _ _ (h : False) => h.elim
    · refine (Flows.pure (Q := fun f _ => f = fl') rfl).bind fun f _ hf => ?_
      refine .mono Flows.setFlow fun _ k' hk' => ?_
      subst hf
      unfold Flow.leaveBody at hend
      split at hend <;> cases hend
      · exact .inl (hk'.trans ‹_›)
      · exact .inr (hk'.trans ‹_›)
      · exact .inl hk'
  intro r hr hkind
  have hrun : ((strict alarm).leave).run.run r = Exec.leaveBody.run.run r := by
    have hend : r.flow.kind.endsList = true := hkind ▸ hk
    unfold strict
    dsimp only
    rw [run_bind_of_ok (show (Exec.flow : Exec Flow).run.run r = (.ok r.flow, r) from rfl)]
    generalize r.flow.kind = kind at hend
    cases kind <;> first | rfl | cases hend
  have h := hleave r hr hkind
  unfold Agree at h ⊢
  rw [hrun]
  exact h

end Probe

end FinLang

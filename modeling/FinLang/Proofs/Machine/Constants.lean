import FinLang.Proofs.Machine.Scoping

namespace FinLang

open Heap (Keeps Step)

-- A store to start from. Its outermost scope binds constants only.
structure Outset where
  store : Store
  root : ScopeId
  sound : store.Sound []
  pristine : store.Pristine root
  live : ∃ sc, store.scope? root = some sc

namespace Outset

abbrev Fixed (o : Outset) : VarId → Prop :=
  o.store.Bound o.root

-- The constants are as they were, and so are their names. The scope may bind more by now.
structure Lasts (o : Outset) (st : Store) : Prop where
  keeps : Keeps o.Fixed o.store.heap st.heap
  binds : ∃ vars funcs, st.scope? o.root = (o.store.scope? o.root).map (·.extend vars funcs)

end Outset

-- A machine at work that holds together, with its constants.
structure Run.Secure (o : Outset) (r : Run) : Prop where
  fine : r.Fine
  lasts : o.Lasts r.store

-- A part that may be executed anywhere and leaves the constants alone, also where it fails or
-- stops for want of fuel.
def Keeping {α : Type} (o : Outset) (part : Exec α) : Prop :=
  ∀ r : Run, r.Secure o → Ensures part r (fun _ r' => r'.Secure o) fun _ r' => r'.Secure o

-- No constant is handed over by link.
def Arguments.Spares (o : Outset) : Arguments → Prop
  | .nodes _ => True
  | .values ids => ∀ x ∈ ids, ¬o.Fixed x

variable {α β : Type} {o : Outset} {P : Permit} {n scope : ScopeId} {r r' : Run} {x y : VarId}
  {name : String} {part : Exec α} {h : Heap} {st : Store}

theorem Scope.map_extend_nil (a : Option Scope) : a.map (·.extend [] []) = a := by
  cases a <;> simp [Scope.extend]

namespace Run.Secure

theorem closed (hr : r.Secure o) : r.heap.Closed o.Fixed :=
  (o.pristine.closed o.sound).keeps o.sound.heap hr.fine.sound.heap hr.lasts.keeps

theorem frozen (hr : r.Secure o) (hx : o.Fixed x) : r.heap.Frozen x := by
  have ⟨sc, _, hsc, hin⟩ := hx
  exact (hr.lasts.keeps.frozen hx).mpr ((o.pristine sc hsc).2 _ hin).frozen

theorem owned (hr : r.Secure o) (hx : o.Fixed x) : r.heap.OwnedBy x (.scope o.root) := by
  have ⟨_, _, hsc, hin⟩ := hx
  exact (hr.lasts.keeps.ownedBy hx).mpr (o.sound.bound hsc hin)

theorem not_fixed (hr : r.Secure o) (hd : r.heap.Detached x) : ¬o.Fixed x :=
  fun hx => (hr.frozen hx).not_detached hd

-- What another scope binds is none of the constants.
theorem not_fixed_of_bound {sc : Scope} (hr : r.Secure o) (hsc : r.scope? scope = some sc)
    (hin : (name, x) ∈ sc.vars) (hne : scope ≠ o.root) : ¬o.Fixed x := by
  intro hx
  obtain ⟨v, hv, ho⟩ := hr.fine.sound.bound hsc hin
  have howner := (Heap.ownedBy_iff hv).mp (hr.owned hx)
  rw [ho] at howner
  exact hne (Owner.scope.inj howner)

theorem root_live (hr : r.Secure o) : ∃ sc, r.scope? o.root = some sc := by
  obtain ⟨vars, funcs, hroot⟩ := hr.lasts.binds
  obtain ⟨sc, hsc⟩ := o.live
  exact ⟨_, hroot.trans (by rw [hsc]; rfl)⟩

theorem of_step {T : VarId → Prop} (hr : r.Secure o) (hstep : Step o.Fixed T [] r.heap h) :
    (r.withHeap h).Secure o :=
  ⟨⟨hr.fine.sound.step hstep, hr.fine.depth⟩, hr.lasts.keeps.trans hstep.keeps, hr.lasts.binds⟩

-- The store changes, with bindings for the outermost scope at most.
theorem of_store (hr : r.Secure o) (hs : st.Sound []) (hk : Keeps o.Fixed r.heap st.heap)
    (hroot : ∃ vars funcs, st.scope? o.root = (r.scope? o.root).map (·.extend vars funcs)) :
    (r.withStore st).Secure o := by
  refine ⟨⟨hs, hr.fine.depth⟩, hr.lasts.keeps.trans hk, ?_⟩
  obtain ⟨vars, funcs, hold⟩ := hr.lasts.binds
  obtain ⟨vars', funcs', hnew⟩ := hroot
  refine ⟨vars ++ vars', funcs ++ funcs', hnew.trans ?_⟩
  rw [show r.scope? o.root = _ from hold]
  cases o.store.scope? o.root <;> simp [Scope.extend]

-- Other scopes change.
theorem of_scopes (hr : r.Secure o) (hs : st.Sound []) (hk : Keeps o.Fixed r.heap st.heap)
    (hroot : st.scope? o.root = r.scope? o.root) : (r.withStore st).Secure o :=
  hr.of_store hs hk ⟨[], [], hroot.trans (Scope.map_extend_nil _).symm⟩

-- Only the store matters, and how deep calls are nested.
theorem congr (hr : r.Secure o) (hs : r'.store = r.store)
    (hd : r'.machine.depth ≤ r'.machine.config.maxCallDepth) : r'.Secure o := by
  obtain ⟨hfine, hlasts⟩ := hr
  rw [← hs] at hlasts
  exact ⟨⟨by rw [hs]; exact hfine.sound, hd⟩, hlasts⟩

end Run.Secure

namespace Keeping

theorem bind {k : α → Exec β} (hp : Keeping o part) (hk : ∀ a, Keeping o (k a)) :
    Keeping o (part >>= k) :=
  fun r hr => (hp r hr).bind fun a r' hr' => hk a r' hr'

theorem pure {a : α} : Keeping o (Pure.pure a : Exec α) :=
  fun _ hr => hr

theorem fail {c : Cause} : Keeping o (Exec.fail c : Exec α) :=
  fun _ hr => hr

theorem outOfFuel : Keeping o (Exec.outOfFuel : Exec α) :=
  fun _ hr => hr

theorem ofExcept {v : Except Failure α} : Keeping o (Exec.ofExcept v) := by
  cases v with
  | ok a => exact pure
  | error f => exact fun _ hr => hr

theorem get : Keeping o (MonadState.get : Exec Run) :=
  fun _ hr => hr

theorem flow : Keeping o Exec.flow :=
  fun _ hr => hr

theorem setFlow {f : Flow} : Keeping o (Exec.setFlow f) :=
  fun _ hr => ⟨⟨hr.fine.sound, hr.fine.depth⟩, hr.lasts⟩

theorem setKind {k : FlowKind} : Keeping o (Exec.setKind k) :=
  fun _ hr => ⟨⟨hr.fine.sound, hr.fine.depth⟩, hr.lasts⟩

theorem takeResult : Keeping o Exec.takeResult :=
  fun _ hr => Exec.takeResult_iff.mpr ⟨⟨hr.fine.sound, hr.fine.depth⟩, hr.lasts⟩

theorem isNext : Keeping o Interpreter.isNext :=
  .bind flow fun _ => pure

theorem leaveBody : Keeping o Exec.leaveBody :=
  .bind flow fun _ => .bind ofExcept fun _ => setFlow

theorem readHeap {f : Heap → Except Failure α} : Keeping o (Exec.readHeap f) :=
  .bind get fun _ => ofExcept

theorem readScopes {f : Scopes → Except Failure α} : Keeping o (Exec.readScopes f) :=
  .bind get fun _ => ofExcept

theorem attempt (hp : Keeping o part) : Keeping o (Exec.attempt part) := by
  intro r hr
  rw [Exec.attempt_iff]
  refine (hp r hr).mono (fun _ _ h => h) ?_
  rintro (f | _) r' h <;> exact h

theorem onFailure {cleanup : Exec Unit} (hp : Keeping o part) (hc : Keeping o cleanup) :
    Keeping o (Exec.onFailure part cleanup) := by
  refine hp.attempt.bind fun ended => ?_
  cases ended with
  | ok a => exact pure
  | error f => exact hc.bind fun _ _ hr => hr

theorem located {s : Option Span} (hp : Keeping o part) : Keeping o (Exec.located s part) :=
  fun r hr => Exec.located_iff.mpr (hp r hr)

theorem forM_option {v : Option α} {f : α → Exec Unit} (hf : ∀ a, Keeping o (f a)) :
    Keeping o (v.forM f) := by
  cases v with
  | none => exact pure
  | some a => exact hf a

theorem mapM {f : α → Exec β} (hf : ∀ a, Keeping o (f a)) (l : List α) : Keeping o (l.mapM f) := by
  induction l with
  | nil => exact pure
  | cons a rest ih =>
    rw [List.mapM_cons]
    exact (hf a).bind fun _ => ih.bind fun _ => pure

theorem forM {f : α → Exec Unit} (hf : ∀ a, Keeping o (f a)) (l : List α) : Keeping o (l.forM f) := by
  induction l with
  | nil => exact pure
  | cons a rest ih =>
    simp only [List.forM_eq_forM, List.forM_cons] at ih ⊢
    exact (hf a).bind fun _ => ih

theorem onHeap {op : HeapM α}
    (hop : ∀ r : Run, r.Secure o → Ensures op r.heap (fun _ h => ∃ T, Step o.Fixed T [] r.heap h)
      fun _ h => h = r.heap) : Keeping o (Exec.onHeap op) := by
  intro r hr
  rw [Exec.onHeap_iff]
  refine (hop r hr).mono (fun _ h hstep => hr.of_step hstep.choose_spec) ?_
  rintro _ _ rfl
  exact hr

theorem release : Keeping o (Exec.release x) :=
  onHeap fun _ hr => (Heap.release_ensures hr.fine.sound.heap hr.closed hr.not_fixed).mono
    (fun _ _ hq => ⟨_, hq.1⟩) fun _ _ he => he

theorem releaseAll {ids : List VarId} : Keeping o (Exec.onHeap (Heap.releaseAll ids)) :=
  onHeap fun _ hr => (Heap.releaseAll_ensures ids hr.fine.sound.heap hr.closed
    fun _ _ => hr.not_fixed).mono (fun _ _ hq => ⟨_, hq.1⟩) fun _ _ he => he

theorem alloc {p : Payload} (hp : p.elements = #[]) (hl : ∀ t, p ≠ .link t) :
    Keeping o (Exec.onHeap (Heap.alloc p)) :=
  onHeap fun _ hr => (Heap.alloc_ensures hr.fine.sound.heap (fun _ => hr.closed.live) hp hl).mono
    (fun _ _ ht => ⟨_, ht.step⟩) fun _ _ he => he

theorem duplicate : Keeping o (Exec.onHeap (Heap.duplicate x)) := by
  refine onHeap fun r hr => ?_
  by_cases hx : r.heap.Live x
  · exact (Heap.duplicate_ensures hr.fine.sound.heap (fun _ => hr.closed.live) hx).mono
      (fun _ _ ht => ⟨_, ht.step⟩) fun _ _ he => he
  · rw [Heap.duplicate, Ensures.bind_iff]
    exact (Heap.read_error (f := fun h => h.toValue x) (Heap.toValue_stale hx)).mpr rfl

theorem calculate {op : Operator} {operands : List VarId} :
    Keeping o (Exec.onHeap (Operation.calculate op operands)) :=
  onHeap fun _ hr => (Operation.calculate_step hr.fine.sound.heap hr.closed fun _ _ hx =>
    hr.frozen hx).mono (fun _ _ hq => ⟨_, hq.1⟩) fun _ _ he => he

theorem setResult : Keeping o (Exec.setResult x) := by
  refine .bind flow fun f => ?_
  have hset : Keeping o (modify fun r => { r with flow := { r.flow with result := some x } } : Exec Unit) :=
    fun _ hr => Ensures.modify_iff.mpr ⟨⟨hr.fine.sound, hr.fine.depth⟩, hr.lasts⟩
  exact hset.bind fun _ => forM_option fun _ => release

theorem own : Keeping o (Exec.own x) := by
  refine .bind readHeap fun v => ?_
  split
  · exact pure
  · exact .bind duplicate fun _ => .bind release fun _ => pure

-- The copy that is protected is none of the constants.
theorem rescueResult : Keeping o (Exec.rescueResult n) := by
  refine .bind flow fun f => ?_
  cases f.result with
  | none => exact pure
  | some id =>
    refine .bind readHeap fun target => .bind readHeap fun owning => ?_
    split
    · intro r hr
      by_cases hlive : r.heap.Live target
      swap
      · rw [Ensures.bind_iff, Exec.onHeap_iff, Heap.duplicate, Ensures.bind_iff]
        exact (Heap.read_error (f := fun h => h.toValue target) (Heap.toValue_stale hlive)).mpr hr
      rw [Ensures.bind_iff, Exec.onHeap_iff]
      refine (Heap.duplicate_ensures hr.fine.sound.heap (fun _ => hr.closed.live) hlive).mono ?_
        fun _ _ he => he
      intro copy h ht
      have hr₁ := hr.of_step ht.step
      obtain ⟨v, hv, -⟩ := ht.record
      rw [Ensures.bind_iff, Exec.onHeap_iff]
      refine (Heap.update_iff hv).mpr (setResult _ (hr₁.of_step (T := fun _ => False) ?_))
      exact .change hr₁.fine.sound.heap.change_protected (hr₁.not_fixed ht.detached) fun _ => rfl
    · split
      · exact setResult
      · exact pure

end Keeping

namespace Exec

-- A new scope is not the outermost one.
theorem createChild_secure (hr : r.Secure o) :
    Ensures (onStore (Store.createChild scope name)) r
      (fun n r' => r'.Secure o ∧ n ≠ o.root) (fun _ r' => r'.Secure o) := by
  rw [onStore_iff]
  refine (Store.createChild_ensures hr.fine.sound).mono ?_ ?_
  · rintro n st ⟨-, hc⟩
    have hne : n ≠ o.root := by
      rintro rfl
      obtain ⟨sc, hsc⟩ := hr.root_live
      cases hc.fresh.symm.trans hsc
    refine ⟨hr.of_scopes hc.sound ?_ (hc.others _ hne.symm), hne⟩
    rw [hc.heap]
    exact .refl
  · rintro _ _ ⟨rfl, -⟩
    exact hr

-- With a scope go the variables that it owns, which are none of the constants.
theorem destroy_keeping (hne : n ≠ o.root) : Keeping o (onStore (Store.destroy n)) := by
  intro r hr
  rw [onStore_iff]
  rcases hsc : r.scope? n with _ | sc
  · rw [Store.destroy, Ensures.bind_iff]
    exact (Store.readScopes_lookup_stale hsc).mpr hr
  refine (Store.destroy_ensures hr.fine.sound hsc).mono ?_ fun _ _ he => he
  rintro _ st ⟨hs, hscope, G, hfreed, hG⟩
  refine hr.of_scopes hs (hfreed.keeps hr.closed hr.fine.sound.heap.linked fun x hx hfix => ?_)
    ((hscope _).trans (if_neg hne.symm))
  obtain ⟨top, htop, hb⟩ := hG x hx
  obtain ⟨v, hv, ho⟩ := hr.owned hfix
  cases hb.eq_of_root (hr.fine.sound.heap.forest.root_of_owner hv (by simp [ho])).2
  rw [Heap.ownedBy_iff hv, ho] at htop
  exact hne (Owner.scope.inj htop).symm

theorem leaveScope_keeping {ended : Except Failure Unit} (hne : n ≠ o.root) :
    Keeping o (leaveScope n ended) := by
  have hrest : ∀ ended' : Except Failure Unit, Keeping o (dropScope n ended') := by
    intro ended'
    have hgo : Keeping o (do
        let destroyed ← attempt (onStore (Store.destroy n))
        ofExcept ended'
        ofExcept destroyed) :=
      (destroy_keeping hne).attempt.bind fun _ => .bind Keeping.ofExcept fun _ => .ofExcept
    cases ended' with
    | ok _ => exact hgo
    | error f =>
      exact .bind Keeping.takeResult fun _ => (Keeping.forM_option fun _ => .release).bind fun _ => hgo
  unfold leaveScope
  cases ended with
  | ok _ => exact .bind (.attempt Keeping.rescueResult) hrest
  | error f => exact hrest (.error f)

theorem withScope_keeping {body : ScopeId → Exec Unit} (hbody : ∀ n, n ≠ o.root → Keeping o (body n)) :
    Keeping o (withScope scope name body) := by
  intro r hr
  rw [withScope, Ensures.bind_iff]
  refine (createChild_secure hr).mono ?_ fun _ _ he => he
  rintro n r₁ ⟨hr₁, hne⟩
  exact ((hbody n hne).attempt.bind fun _ => leaveScope_keeping hne) r₁ hr₁

-- A variable that nobody owns yet gets a name.
theorem declare_loose_secure {T : VarId → Prop} (hr : r.Secure o) (hx : ¬o.Fixed x)
    (hstep : Step o.Fixed T [x] r.heap h) (hd : h.Detached x) (ha : h.Aimed x) :
    Ensures (onStore (Store.declare scope name x)) (r.withHeap h) (fun _ r' => r'.Secure o)
      fun _ r' => r'.Secure o := by
  have hs : (r.withHeap h).store.Sound [x] := hr.fine.sound.step hstep
  have hclosed : h.Closed o.Fixed := hr.closed.keeps hr.fine.sound.heap hstep.sound hstep.keeps
  rw [onStore_iff]
  refine (Store.declare_ensures hs hclosed hx hd ha).mono ?_ ?_
  · intro _ st hdec
    obtain ⟨sc, hsc, hsc'⟩ := hdec.scope
    have hsc : r.scope? scope = some sc := hsc
    refine hr.of_store hdec.sound (hstep.keeps.trans hdec.keeps) ?_
    by_cases hroot : o.root = scope
    · refine ⟨[(name, x)], [], ?_⟩
      rw [hroot, hsc', hsc]
      simp [Scope.extend]
    · exact ⟨[], [], (hdec.others _ hroot).trans (Scope.map_extend_nil _).symm⟩
  · intro e st hnot
    have hsound : st.Sound [] := by
      have hs' := hs.step hnot.step
      obtain ⟨heap, scopes⟩ := st
      cases hnot.scopes
      exact hs'
    refine hr.of_scopes hsound (hstep.keeps.trans hnot.step.keeps) ?_
    rw [Store.scope?, hnot.scopes]
    rfl

theorem declare_secure (hr : r.Secure o) (hd : r.heap.Detached x) :
    Ensures (onStore (Store.declare scope name x)) r (fun _ r' => r'.Secure o)
      fun _ r' => r'.Secure o := by
  have hs := hr.fine.sound.heap
  have hloose := hs.loosen (hs.forest.root_of_detached hd) (by simp)
  have hstep : Step o.Fixed (fun _ => False) [x] r.heap r.heap :=
    ⟨hloose, .refl, fun _ _ => .rfl, fun _ => .inl⟩
  exact declare_loose_secure (r := r) (h := r.heap) hr (hr.not_fixed hd) hstep hd (hs.rules.aimed hd)

theorem own_declare_keeping {k : Exec β} (hk : Keeping o k) :
    Keeping o (do
      let id ← own x
      onStore (Store.declare scope name id)
      k) := by
  intro r hr
  rw [Ensures.bind_iff]
  refine ((Keeping.own r hr).and (own_still hr.fine)).mono ?_ fun _ _ he => he.1
  rintro y r₁ ⟨hr₁, -, hd, -⟩
  exact (declare_secure hr₁ hd).bind fun _ => hk

theorem null_declare_keeping {k : Exec β} (hk : Keeping o k) :
    Keeping o (do
      let id ← onHeap Heap.allocNull
      onStore (Store.declare scope name id)
      k) := by
  intro r hr
  have halloc : Keeping o (onHeap Heap.allocNull) := .alloc (p := .null) rfl nofun
  rw [Ensures.bind_iff]
  refine ((halloc r hr).and (alloc_quiet (p := .null) (E := fun _ _ => True) hr.fine rfl nofun)).mono ?_
    fun _ _ he => he.1
  rintro y r₁ ⟨hr₁, -, -, hd, -⟩
  exact (declare_secure hr₁ hd).bind fun _ => hk

-- A link to what is no constant knows nothing of the constants.
theorem link_declare_secure {sc : Scope} {s : ScopeId} {old : String} (hr : r.Secure o)
    (hx : ¬o.Fixed x) (hsc : r.scope? s = some sc) (hin : (old, x) ∈ sc.vars) :
    Ensures (do
      let link ← onHeap (Heap.allocLink x)
      onStore (Store.declare scope name link)) r (fun _ r' => r'.Secure o)
      fun _ r' => r'.Secure o := by
  have hs := hr.fine.sound.heap
  obtain ⟨v, hv, ho⟩ := hr.fine.sound.bound hsc hin
  obtain ⟨t, w, hstands⟩ := hs.stands ⟨v, hv⟩
  have hleft : w.leftValue = true :=
    hstands.left_of_left hs.rules (by simp) hv (hs.rules.bound hv (by simp) ho)
  rw [Ensures.bind_iff, onHeap_iff]
  refine (Heap.allocLink_ensures hs hr.closed hstands (mt (hstands.closed hr.closed).mpr hx)).mono ?_
    fun _ _ he => he
  rintro l h ⟨hstep, hfresh, hd, ha⟩
  refine declare_loose_secure hr (fun hl => ?_) hstep hd (ha hleft)
  obtain ⟨u, hu⟩ := hr.closed.live hl
  cases hfresh.symm.trans hu

theorem addFunction_keeping {f : Function} : Keeping o (onStore (Store.addFunction scope f)) := by
  intro r hr
  rw [onStore_iff]
  refine (Store.addFunction_ensures hr.fine.sound).mono ?_ ?_
  · rintro _ st ⟨hs, hheap, ⟨sc, hsc, hsc'⟩, hothers⟩
    have hsc : r.scope? scope = some sc := hsc
    refine hr.of_store hs (by rw [hheap]; exact .refl) ?_
    by_cases hroot : o.root = scope
    · refine ⟨[], [f], ?_⟩
      rw [hroot, hsc', hsc]
      simp [Scope.extend]
    · exact ⟨[], [], (hothers _ hroot).trans (Scope.map_extend_nil _).symm⟩
  · rintro _ _ ⟨rfl, -⟩
    exact hr

end Exec

end FinLang

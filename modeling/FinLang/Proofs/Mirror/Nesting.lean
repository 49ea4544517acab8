import FinLang.Proofs.Machine.Scoping
import FinLang.Proofs.Mirror.Machine

namespace FinLang

open Run (Steady Twins)
open Interpreter (openCall_opened)

variable {α β γ δ : Type} {ρ : Renaming} {m m' : Machine} {r r' r₀ : Run} {x : VarId}
  {n scope : ScopeId} {g : α → β} {i : γ → δ} {part : Exec α} {part' : Exec β} {name : String}
  {h : Heap} {f : Function}

theorem Run.Twins.deeper (hr : r.Twins ρ m m' r') (hf : r.deeper.Fine) (hf' : r'.deeper.Fine) :
    r.deeper.Twins ρ m m' r'.deeper :=
  ⟨⟨hr.store, hr.root, hr.config, congrArg (· + 1) hr.depth, hr.flow, hr.last, hr.printed⟩, hf, hf',
    hr.nested⟩

theorem Run.Fine.higher (hf : r.Fine) : r.higher.Fine :=
  ⟨hf.sound, Nat.le_trans (Nat.sub_le ..) hf.depth⟩

theorem Run.Twins.higher (hr : r.Twins ρ m m' r') : r.higher.Twins ρ m m' r'.higher :=
  ⟨⟨hr.store, hr.root, hr.config, congrArg (· - 1) hr.depth, hr.flow, hr.last, hr.printed⟩,
    hr.fine.higher, hr.fine'.higher, hr.nested⟩

namespace Exec

section Declare

-- What is loose can be marked.
theorem succeeds_of_loose (hs : h.Sound [x]) : Heap.Succeeds (Heap.setLeftValue x true) h := by
  have hlive := (hs.forest.loose_root (List.mem_cons_self ..)).1
  exact (Heap.setLeftValue_ensures hs.forest.arena (hs.forest.within hlive)).mono
    (fun _ _ _ => trivial) fun _ _ he => he

theorem declare_steady (hf : r.Fine) (hd : r.heap.Detached x) :
    Ensures (onStore (Store.declare scope name x)) r (fun _ s => Steady r s) (Halted Steady r) := by
  have hs := hf.sound.heap
  have hloose : r.store.Sound [x] :=
    ⟨hs.loosen (hs.forest.root_of_detached hd) (by simp), hf.sound.scopes, hf.sound.bound, hf.sound.owned⟩
  rw [onStore_iff]
  refine (Store.declare_ensures hloose Heap.closed_nothing id hd (hs.rules.aimed hd)).mono ?_ ?_
  · rintro _ st hdec
    refine ⟨⟨hdec.sound, hf.depth⟩, fun s => ?_⟩
    by_cases hsc : s = scope
    · obtain ⟨sc, hold, hnew⟩ := hdec.scope
      rw [hsc]
      exact (congrArg _ hnew).trans (congrArg (Option.map Scope.parent) hold).symm
    · exact congrArg _ (hdec.others s hsc)
  · rintro e st hnot
    have hsound := hloose.step hnot.step
    obtain ⟨heap, scopes⟩ := st
    cases hnot.scopes
    exact ⟨⟨hsound, hf.depth⟩, fun _ => rfl⟩

-- A temporary gets a name.
theorem declare_agrees (hr : r.Twins ρ m m' r') (hd : r.heap.Detached x) (hd' : r'.heap.Detached (ρ x)) :
    Agrees ρ m m' id (onStore (Store.declare scope name x))
      (onStore (Store.declare (ρ scope) name (ρ x))) r r' := by
  have hloose : ∀ {s : Run} {y : VarId}, s.Fine → s.heap.Detached y → s.heap.Sound [y] := fun hf hd =>
    hf.sound.heap.loosen (hf.sound.heap.forest.root_of_detached hd) (by simp)
  refine agrees_of_steady (onStore_mirrors hr.toMirrors (Store.declare_agrees hr.store ?_ ?_)) hr
    (declare_steady hr.fine hd) (declare_steady hr.fine' hd')
  · exact succeeds_of_loose (hloose hr.fine hd)
  · exact succeeds_of_loose (hloose hr.fine' hd')

theorem own_declare_follows {k : Exec γ} {k' : Exec δ} (hk : Parallel ρ m m' i k k') :
    Parallel ρ m m' i
      (do
        let id ← own x
        onStore (Store.declare scope name id)
        k)
      (do
        let id ← own (ρ x)
        onStore (Store.declare (ρ scope) name id)
        k') := by
  intro r r' hr
  refine Agree.bind ((own_follows r r' hr).given (own_still hr.fine) (own_still hr.fine')) ?_
  rintro y _ s s' ⟨⟨rfl, hs⟩, ⟨-, hd, -⟩, -, hd', -⟩
  exact (declare_agrees hs hd hd').next fun _ => hk

theorem null_declare_follows {k : Exec γ} {k' : Exec δ} (hk : Parallel ρ m m' i k k') :
    Parallel ρ m m' i
      (do
        let id ← onHeap Heap.allocNull
        onStore (Store.declare scope name id)
        k)
      (do
        let id ← onHeap Heap.allocNull
        onStore (Store.declare (ρ scope) name id)
        k') := by
  intro r r' hr
  have hnull : ∀ {s : Run}, s.Fine →
      Ensures (onHeap Heap.allocNull) s (fun y s' => s'.heap.Detached y) fun _ _ => True := fun hf =>
    (alloc_quiet (p := .null) hf rfl nofun).mono (fun _ _ h => h.2.2.1) fun _ _ he => he
  refine Agree.bind ((alloc_follows (p := .null) rfl nofun r r' hr).given (hnull hr.fine)
    (hnull hr.fine')) ?_
  rintro y _ s s' ⟨⟨rfl, hs⟩, hd, hd'⟩
  exact (declare_agrees hs hd hd').next fun _ => hk

theorem bound_mirrors (hr : r.Twins ρ m m' r') {sc : Scope} {s : ScopeId} (hsc : r.scope? s = some sc)
    (hin : (name, x) ∈ sc.vars) : r'.scope? (ρ s) = some (sc.rename ρ) ∧ (name, ρ x) ∈ (sc.rename ρ).vars :=
  ⟨(hr.store.scopes.get? s).trans (congrArg _ hsc), List.mem_map.mpr ⟨_, hin, rfl⟩⟩

-- A new link gets a name. Until then nothing owns it.
theorem link_declare_agrees {sc : Scope} {s : ScopeId} {old : String} (hr : r.Twins ρ m m' r')
    (hsc : r.scope? s = some sc) (hin : (old, x) ∈ sc.vars) :
    Agrees ρ m m' id
      (do
        let link ← onHeap (Heap.allocLink x)
        onStore (Store.declare scope name link))
      (do
        let link ← onHeap (Heap.allocLink (ρ x))
        onStore (Store.declare (ρ scope) name link)) r r' := by
  obtain ⟨hsc', hin'⟩ := bound_mirrors hr hsc hin
  have hlink : ∀ {s : Run} {t : ScopeId} {sc : Scope} {y : VarId}, s.Fine → s.scope? t = some sc →
      (old, y) ∈ sc.vars → Ensures (onHeap (Heap.allocLink y)) s (fun l s' => s'.heap.Sound [l])
        fun _ _ => False := by
    intro s t sc y hf hsc hin
    obtain ⟨v, hv, -⟩ := hf.sound.bound hsc hin
    obtain ⟨u, w, hstands⟩ := hf.sound.heap.stands ⟨v, hv⟩
    exact onHeap_iff.mpr ((Heap.allocLink_ensures hf.sound.heap Heap.closed_nothing hstands id).mono
      (fun _ _ hq => hq.1.sound) fun _ _ he => he)
  refine agrees_of_steady ?_ hr
    ((link_declare_moves (P := .any scope) hr.fine rfl trivial hsc hin).mono (fun _ _ h => h.steady)
      fun _ _ he => he.mono fun _ h => h.steady)
    ((link_declare_moves (P := .any (ρ scope)) hr.fine' rfl trivial hsc' hin').mono
      (fun _ _ h => h.steady) fun _ _ he => he.mono fun _ h => h.steady)
  refine Agree.bind ((onStore_mirrors hr.toMirrors (Store.onHeap_follows Heap.allocLink_follows _ _
    hr.store)).given (hlink hr.fine hsc hin) (hlink hr.fine' hsc' hin')) ?_
  rintro l _ s s' ⟨⟨rfl, hs⟩, hl, hl'⟩
  exact onStore_mirrors hs (Store.declare_agrees hs.store (succeeds_of_loose hl) (succeeds_of_loose hl'))

theorem addFunction_follows :
    Parallel ρ m m' id (onStore (Store.addFunction scope f)) (onStore (Store.addFunction (ρ scope) f)) := by
  have hsteady : ∀ {s : Run} {t : ScopeId}, s.Fine → Ensures (onStore (Store.addFunction t f)) s
      (fun _ s' => Steady s s') (Halted Steady s) := fun {s t} hf =>
    (addFunction_moves (P := .any t) hf rfl trivial).mono (fun _ _ h => h.steady) fun _ _ he =>
      he.mono fun _ h => h.steady
  exact fun r r' hr => agrees_of_steady (onStore_mirrors hr.toMirrors (Store.addFunction_follows _ _
    hr.store)) hr (hsteady hr.fine) (hsteady hr.fine')

end Declare

section Scope

theorem createChild_agrees (hr : r.Twins ρ m m' r') :
    Agree (onStore (Store.createChild scope name)) (onStore (Store.createChild (ρ scope) name)) r r'
      (fun n n' s s' => n' = ρ n ∧ s.Twins ρ m m' s' ∧ Opened n r s) (Run.Failed ρ m m') := by
  have hnested : Ensures (onStore (Store.createChild scope name)) r
      (fun n s => Opened n r s ∧ s.store.scopes.Nested) (fun _ s => s = r) := by
    have hcreated : Ensures (onStore (Store.createChild scope name)) r
        (fun n s => (∃ sc, r.scope? scope = some sc) ∧ Store.Created r.store scope n s.store)
        fun _ _ => True :=
      onStore_iff.mpr ((Store.createChild_ensures hr.fine.sound).mono (fun _ _ h => h) fun _ _ _ => trivial)
    refine ((createChild_opened hr.fine).and hcreated).mono ?_ fun _ _ he => he.1.2
    rintro n s ⟨⟨ho, -⟩, hlive, hc⟩
    obtain ⟨sc, -, -, hp, hsc⟩ := hc.scope
    exact ⟨ho, hr.nested.opened hc.fresh hc.others hsc hp hlive⟩
  refine ((onStore_mirrors hr.toMirrors (Store.createChild_follows _ _ hr.store)).and hnested
    (createChild_opened hr.fine')).mono ?_ ?_
  · rintro n _ s s' ⟨⟨rfl, hs⟩, ⟨ho, hn⟩, ho', -⟩
    exact ⟨rfl, ⟨hs, ho.fine, ho'.fine, hn⟩, ho⟩
  · rintro _ _ s s' ⟨⟨⟨f, f', rfl, rfl, hf⟩, hs⟩, rfl, -, rfl⟩
    exact ⟨hf, hr⟩

-- What has been opened is closed again.
theorem destroy_agrees (ho : Opened n r₀ r) (hf : r₀.Fine) (hn : r₀.store.scopes.Nested)
    (hr : r.Twins ρ m m' r') :
    Agrees ρ m m' id (onStore (Store.destroy n)) (onStore (Store.destroy (ρ n))) r r' := by
  refine ((onStore_mirrors hr.toMirrors (Store.destroy_follows _ _ hr.store)).and
    (destroy_calm (E := fun _ => Calm r₀) ho hf) (destroy_lasting _ hr.fine')).mono ?_ ?_
  · rintro _ _ s s' ⟨⟨rfl, hs⟩, hc, hl⟩
    exact ⟨rfl, hs, hc.fine, hl.fine, hc.steady.nested hn⟩
  · rintro _ _ s s' ⟨⟨⟨f, f', rfl, rfl, hff⟩, hs⟩, hc, hl⟩
    exact ⟨hff, hs, hc.fine, hl.fine, hc.steady.nested hn⟩

theorem rescueResult_follows : Parallel ρ m m' id (rescueResult n) (rescueResult (ρ n)) := by
  refine flow_follows.bind fun fl => ?_
  simp only [Flow.rename]
  cases fl.result with
  | none => exact .pure rfl
  | some x =>
    simp only [Option.map_some]
    refine .bind (readHeap_follows fun _ _ hm => hm.resolve) fun t => ?_
    refine .bind (readHeap_follows fun hs hs' hm => hm.owningScope hs hs') fun o => ?_
    refine .ite ?_ (fun _ => ?_) fun _ => .ite (by simp) (fun _ => setResult_follows) fun _ => .pure rfl
    · cases o <;> simp
    · exact duplicate_follows.bind fun _ => setWriteProtected_follows.bind fun _ => setResult_follows

-- However the body of a scope has ended, what travels is moved out of it.
theorem leaveScope_agrees {ended ended' : Except Failure Unit} (ho : Opened n r₀ r) (hf : r₀.Fine)
    (hn : r₀.store.scopes.Nested) (hr : r.Twins ρ m m' r') (hended : Alike id ended ended') :
    Agrees ρ m m' id (leaveScope n ended) (leaveScope (ρ n) ended') r r' := by
  have hgo : ∀ {s s' : Run} {ended ended' : Except Failure Unit}, Opened n r₀ s →
      s.Twins ρ m m' s' → Alike id ended ended' →
      Agrees ρ m m' id
        (do
          let destroyed ← attempt (onStore (Store.destroy n))
          ofExcept ended
          ofExcept destroyed)
        (do
          let destroyed ← attempt (onStore (Store.destroy (ρ n)))
          ofExcept ended'
          ofExcept destroyed) s s' := by
    intro s s' ended ended' ho hs hended
    refine Agree.bind (attempt_agree (destroy_agrees ho hf hn hs) fun he => he.1) ?_
    rintro (f | _) (f' | _) t t' hq
    · exact (ofExcept_follows hended).bind (fun _ => throw_follows hq.1) t t' hq.2
    · exact hq.elim
    · exact hq.elim
    · exact (ofExcept_follows hended).bind (fun _ => .pure rfl) t t' hq.2
  have hfailed : ∀ {s s' : Run} {f f' : Failure}, Opened n r₀ s → s.Twins ρ m m' s' → f.Alike f' →
      Agrees ρ m m' id
        (do
          (← takeResult).forM release
          let destroyed ← attempt (onStore (Store.destroy n))
          ofExcept (.error f)
          ofExcept destroyed)
        (do
          (← takeResult).forM release
          let destroyed ← attempt (onStore (Store.destroy (ρ n)))
          ofExcept (.error f')
          ofExcept destroyed) s s' := by
    intro s s' f f' ho hs hff
    have hdrop : Parallel ρ m m' id (takeResult >>= fun result => result.forM release)
        (takeResult >>= fun result => result.forM release) :=
      takeResult_follows.bind releaseOption_follows
    have hall := Agree.bind ((hdrop s s' hs).left (dropResult_calm (E := fun _ _ => True) ho.fine)
      |>.mono (fun _ _ _ _ h => h) fun _ _ _ _ h => h.1) fun _ _ t t' ht =>
        hgo (ho.calm hf ht.2) ht.1.2 (show Alike id (.error f) (.error f') from hff)
    rwa [bind_assoc, bind_assoc] at hall
  unfold leaveScope
  rcases ended with f | _ <;> rcases ended' with f' | _
  · exact hfailed ho hr hended
  · exact hended.elim
  · exact hended.elim
  · refine Agree.bind ((attempt_agree ((rescueResult_follows r r' hr).left (rescueResult_calm ho.fine))
      fun he => he.1.1).mono (fun _ _ _ _ h => h) fun _ _ _ _ h => h.1) ?_
    rintro (f | _) (f' | _) s s' hq
    · obtain ⟨⟨hff, hs⟩, -, rfl⟩ := hq
      exact hfailed ho hs hff
    · exact hq.elim
    · exact hq.elim
    · obtain ⟨⟨-, hs⟩, hc⟩ := hq
      exact hgo (ho.calm hf hc) hs rfl

theorem withScope_follows {part part' : ScopeId → Exec Unit}
    (hmoves : ∀ n r, r.Fine → ∃ P : Permit, P.scope = n ∧
      Ensures (part n) r (fun _ s => Moves P r s) (Halted (Moves P) r))
    (hpart : ∀ n, Parallel ρ m m' id (part n) (part' (ρ n))) :
    Parallel ρ m m' id (withScope scope name part) (withScope (ρ scope) name part') := by
  intro r r' hr
  refine Agree.bind (createChild_agrees hr) ?_
  rintro n _ s s' ⟨rfl, hs, ho⟩
  obtain ⟨P, hP, hmoves⟩ := hmoves n s hs.fine
  refine Agree.bind ((attempt_agree ((hpart n s s' hs).left hmoves) fun he => he.1.1).mono
    (fun _ _ _ _ h => h) fun _ _ _ _ h => h.1) ?_
  rintro (f | _) (f' | _) t t' hq
  · exact leaveScope_agrees (ho.moves hr.fine hq.2 hP) hr.fine hr.nested hq.1.2 hq.1.1
  · exact hq.elim
  · exact hq.elim
  · exact leaveScope_agrees (ho.moves hr.fine hq.2 hP) hr.fine hr.nested hq.1.2 rfl

-- A call gets a scope, which knows what is called.
theorem openCall_agrees {caller : ScopeId} (hr : r.Twins ρ m m' r') :
    Agree
      (onStore do
        let scope ← Store.createChild caller f.name
        Store.setBelongsTo scope f
        return scope)
      (onStore do
        let scope ← Store.createChild (ρ caller) f.name
        Store.setBelongsTo scope f
        return scope) r r'
      (fun n n' s s' => n' = ρ n ∧ s.Twins ρ m m' s' ∧ Opened n r s) (Run.Failed ρ m m') := by
  have hnested : Ensures (onStore do
        let scope ← Store.createChild caller f.name
        Store.setBelongsTo scope f
        return scope) r (fun _ s => s.store.scopes.Nested) fun _ _ => True := by
    rw [onStore_iff, Ensures.bind_iff]
    refine (Store.createChild_ensures hr.fine.sound).mono ?_ fun _ _ _ => trivial
    rintro n st ⟨hlive, hc⟩
    obtain ⟨sc, -, -, hp, hsc⟩ := hc.scope
    rw [Ensures.bind_iff]
    refine (Store.setBelongsTo_ensures hc.sound hsc).mono ?_ fun _ _ he => he
    rintro _ st' ⟨-, -, hsc', hothers⟩
    exact hr.nested.opened hc.fresh (fun y hy => (hothers y hy).trans (hc.others y hy)) hsc' hp hlive
  have hopen : Store.Parallel ρ ρ.handle
      (do
        let scope ← Store.createChild caller f.name
        Store.setBelongsTo scope f
        return scope)
      (do
        let scope ← Store.createChild (ρ caller) f.name
        Store.setBelongsTo scope f
        return scope) :=
    Store.createChild_follows.bind fun _ => Store.setBelongsTo_follows.bind fun _ => .pure rfl
  refine ((onStore_mirrors hr.toMirrors (hopen _ _ hr.store)).and ((openCall_opened hr.fine).and hnested) (openCall_opened hr.fine')).mono ?_ ?_
  · rintro n _ s s' ⟨⟨rfl, hs⟩, ⟨ho, hn⟩, ho'⟩
    exact ⟨rfl, ⟨hs, ho.fine, ho'.fine, hn⟩, ho⟩
  · rintro _ _ s s' ⟨⟨⟨f, f', rfl, rfl, hf⟩, hs⟩, ⟨⟨-, rfl⟩, -⟩, -, rfl⟩
    exact ⟨hf, hr⟩

-- A call with a flow of its own.
theorem withFreshFlow_agree {part part' : Exec Unit} (hr : r.Twins ρ m m' r')
    (h : Agrees ρ m m' id part part' { r with flow := .start } { r' with flow := .start }) :
    Agrees ρ m m' (Flow.rename ρ) (withFreshFlow part) (withFreshFlow part') r r' := by
  refine Agree.bind (R := fun fl fl' s s' => fl = r.flow ∧ fl' = r.flow.rename ρ ∧ r = s ∧ r' = s')
    (Agree.get_bind_iff.mpr ⟨rfl, hr.flow, rfl, rfl⟩) ?_
  rintro _ _ _ _ ⟨rfl, rfl, rfl, rfl⟩
  refine Agree.bind (R := fun _ _ s s' => s = { r with flow := .start } ∧ s' = { r' with flow := .start })
    (Agree.modify_iff.mpr ⟨rfl, rfl⟩) ?_
  rintro _ _ _ _ ⟨rfl, rfl⟩
  refine Agree.bind (attempt_agree h fun he => he.1) ?_
  rintro (f | _) (f' | _) s s' hq
  · exact (setFlow_follows r.flow).bind (fun _ => throw_follows hq.1) s s' hq.2
  · exact hq.elim
  · exact hq.elim
  · refine flow_follows.bind (fun inner => ?_) s s' hq.2
    exact Follows.bind (setFlow_follows r.flow) fun _ => .pure rfl

end Scope

end Exec

end FinLang

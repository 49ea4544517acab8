import FinLang.Proofs.Machine.Values

namespace FinLang

open Heap (Keeps Step Stays)

-- A variable that is still there when the variables of a scope have gone.
def Heap.Outlives (h : Heap) (n : ScopeId) (y : VarId) : Prop :=
  ∀ root, h.OwnedBy root (.scope n) → ¬h.Below root y

-- The scopes that can be reached from a new one.
abbrev inside (A : ScopeId → Prop) (n s : ScopeId) : Prop :=
  A s ∨ s = n

variable {α : Type} {D : Discipline} {A : ScopeId → Prop} {K : VarId → Prop}
  {P : ScopeId → Prop} {xs ys : List VarId} {scope n : ScopeId} {r r' r₀ : Run} {x : VarId}
  {h : Heap} {E : Halt → Run → Prop} {name : String}

theorem Heap.Detached.outlives {loose : List VarId} (hd : h.Detached x) (hs : h.Sound loose) :
    h.Outlives n x := by
  obtain ⟨v, hv, ho⟩ := hd
  intro root hown hb
  cases hb.eq_of_root (hs.forest.root_of_owner hv (by simp [ho])).2
  rw [Heap.ownedBy_iff hv, ho] at hown
  cases hown

namespace Exec

-- A copy that cannot be written to.
private theorem protectedCopy_ensures (hst : State D A K xs scope r) (hx : r.heap.Live x) :
    Ensures (do
      let copy ← onHeap (Heap.duplicate x)
      onHeap (Heap.setWriteProtected copy true)
      return copy) r
      (fun y r' => Moved D A K P (y :: xs) scope r r' ∧ r'.heap.Detached y ∧
        r.heap.var? y = none) E := by
  rw [Ensures.bind_iff]
  refine (duplicate_ensures (P := P) hst hx).mono ?_ fun _ _ he => he
  rintro y r₁ ⟨hm, ⟨v, hv, ho⟩, hk, hfresh, -⟩
  rw [Ensures.bind_iff, onHeap_iff, Heap.setWriteProtected, Heap.update_iff hv]
  have hstep : Step K (fun _ => False) [] r₁.heap
      (r₁.heap.change y fun v => { v with writeProtected := true }) :=
    .change hm.state.sound.heap.change_protected hk fun _ => rfl
  refine ⟨⟨hm.frame.trans (.of_step hstep), hm.state.step_same hstep, hm.flow⟩, ?_, hfresh⟩
  refine ⟨{ v with writeProtected := true }, ?_, ho⟩
  exact (Heap.var?_change _ _).trans (by rw [if_pos rfl, hv]; rfl)

-- The travelling variable is replaced by one that outlives the scope.
theorem rescueResult_ensures (hst : State D A K r.flow.result.toList scope r)
    (hcar : Carries D r) :
    Ensures (rescueResult n) r
      (fun _ r' => Frame K P r r' ∧ State D A K r'.flow.result.toList scope r' ∧
        Carries D r' ∧ (∀ y ∈ r'.flow.result, r'.heap.Outlives n y) ∧ r'.flow.kind = r.flow.kind ∧
        (r'.flow.result = none ↔ r.flow.result = none))
      (fun e r' => r' = r ∧ ∃ f, e = .failure f ∧ D.admits f.cause) := by
  rw [rescueResult, Ensures.bind_iff, flow_iff]
  rcases hres : r.flow.result with _ | x
  · exact ⟨.refl, hst, hcar, by simp [hres], rfl, by simp [hres]⟩
  have hst : State D A K [x] scope r := by simpa [hres] using hst
  by_cases hlive : r.heap.Live x
  swap
  · rw [Ensures.bind_iff, readHeap_error (Heap.resolve_stale hlive)]
    exact ⟨rfl, _, rfl, ((hcar x hres).resolve_left (mt Heap.Held.live hlive)).2 x⟩
  obtain ⟨t, w, hstands⟩ := hst.sound.heap.stands hlive
  obtain ⟨o, ho, hown⟩ := hst.sound.heap.owningScope_ok ⟨w, hstands.var⟩
  rw [Ensures.bind_iff, readHeap_ok hstands.resolve, Ensures.bind_iff, readHeap_ok ho]
  split
  · have hcopy := protectedCopy_ensures (P := P) (E := fun _ _ => False) hst ⟨w, hstands.var⟩
    rw [Ensures.bind_iff] at hcopy ⊢
    refine hcopy.mono ?_ fun _ _ => False.elim
    intro y r₁ hq
    rw [Ensures.bind_iff] at hq ⊢
    refine hq.mono ?_ fun _ _ => False.elim
    rintro _ r₂ ⟨hm, hd, hfresh⟩
    have hne : y ∉ r₂.flow.result := by
      rw [hm.flow, hres]
      rintro ⟨⟩
      obtain ⟨v, hv⟩ := hlive
      rw [hfresh] at hv
      cases hv
    have hst₂ : State D A K (y :: r₂.flow.result.toList) scope r₂ := by
      rw [hm.flow, hres]
      exact hm.state
    have hheld : r₂.heap.Held y := hd.imp fun _ hv => ⟨hv.1, .inl hv.2⟩
    refine (setResult_ensures (P := P) hst₂ hheld hne).mono ?_ fun _ _ he => he
    rintro _ r₃ ⟨hf, hst₃, hstay, hflow⟩
    have hd₃ : r₃.heap.Detached y := hstay.ownedBy hd
    have hres₃ : r₃.flow.result = some y := by rw [hflow]
    refine ⟨hm.frame.trans hf, by simpa [hres₃] using hst₃, fun z hz => ?_, fun z hz => ?_, ?_,
      by simp [hres₃]⟩
    · cases hres₃.symm.trans hz
      exact .inl (hstay.held hheld)
    · cases hres₃.symm.trans hz
      exact hd₃.outlives hst₃.sound.heap
    · rw [hflow, hm.flow]
  · rename_i hother
    have hout : r.heap.Outlives n t := fun root hown' hb => hother (hown n root hown' hb)
    split
    · rename_i hne
      obtain ⟨v, hv, hlink⟩ := hstands.self_or_link.resolve_left hne
      have hleft := hstands.left hst.sound.heap.rules (by simp) hne
      have hnd : ¬r.heap.Detached x := fun ⟨u, hu, ho⟩ => by
        cases hv.symm.trans hu
        exact hst.sound.heap.rules.plain hv (by simp) ho t hlink
      have hsafe : Heap.Safe K r.heap t := fun hk =>
        absurd (hstands.frozen (hst.safe x (by simp) ((hstands.closed hst.closed).mpr hk))).1 hne
      have hst' : State D A K [t] scope r := by
        refine hst.relist (fun y hy hd => ?_) fun y hy => ?_
        · cases List.mem_singleton.mp hy
          exact absurd hd hnd
        · cases List.mem_singleton.mp hy
          exact hsafe
      refine (setResult_iff hres hnd).mpr
        ⟨.of_machine rfl rfl, hst'.congr rfl, fun y hy => ?_, fun y hy => ?_, rfl, by simp⟩
      · cases hy
        exact .inl ⟨w, hstands.var, .inr hleft⟩
      · cases hy
        exact hout
    · rename_i heq
      have heq : t = x := by simpa using heq
      subst heq
      refine ⟨.refl, by simpa [hres] using hst, hcar, fun y hy => ?_, rfl, by simp [hres]⟩
      cases hres.symm.trans hy
      exact hout

end Exec

-- A new scope inside another one, at the end of its time: all else is as the
-- frame says.
structure Ending (D : Discipline) (A : ScopeId → Prop) (K : VarId → Prop) (scope n : ScopeId)
    (xs : List VarId) (r₀ r : Run) : Prop where
  outer : State D A K [] scope r₀
  fresh : r₀.scope? n = none
  frame : Frame K (· = n) r₀ r
  live : ∃ sc, r.scope? n = some sc
  state : State D (inside A n) K xs n r

namespace Ending

theorem not_owned (he : Ending D A K scope n xs r₀ r) (hx : K x) :
    ¬r.heap.OwnedBy x (.scope n) := by
  intro hown
  obtain ⟨sc, name, hsc, -⟩ := he.outer.sound.owned ((he.frame.keeps.ownedBy hx).mp hown)
  cases he.fresh.symm.trans hsc

theorem later (he : Ending D A K scope n xs r₀ r) (hf : Frame K (· = n) r r')
    (hst : State D (inside A n) K ys n r') : Ending D A K scope n ys r₀ r' where
  outer := he.outer
  fresh := he.fresh
  frame := he.frame.trans hf
  live :=
    have ⟨_, hsc⟩ := he.live
    hf.lasting hsc
  state := hst

theorem destroy (he : Ending D A K scope n xs r₀ r) (hxs : ∀ y ∈ xs, r.heap.Outlives n y) :
    Ensures (Exec.onStore (Store.destroy n)) r
      (fun _ r' => Frame K noScope r₀ r' ∧ State D A K xs scope r' ∧ r'.flow = r.flow ∧
        ∀ y ∈ xs, r.heap.Held y → r'.heap.Held y) E := by
  obtain ⟨sc, hsc⟩ := he.live
  rw [Exec.onStore_iff]
  refine (Store.destroy_ensures he.state.sound hsc).mono ?_ fun _ _ he => he
  rintro _ st' ⟨hs', hscope, G, hf, hG⟩
  have hkG : ∀ x, G x → ¬K x := by
    intro x hx hk
    obtain ⟨root, hown, hb⟩ := hG x hx
    exact he.not_owned ((he.state.closed.below hb).mp hk) hown
  have hkeeps : Keeps K r.heap st'.heap :=
    hf.keeps he.state.closed he.state.sound.heap.linked hkG
  have hkeeps₀ : Keeps K r₀.heap st'.heap := he.frame.keeps.trans hkeeps
  have hscopes : ∀ s, st'.scope? s = r₀.scope? s := by
    intro s
    rw [hscope]
    split
    · subst_vars
      exact he.fresh.symm
    · exact he.frame.scopes s ‹_›
  have hstays : ∀ y ∈ xs, Stays r.heap st'.heap y := by
    refine fun y hy => hf.stays fun hg => ?_
    obtain ⟨root, hown, hb⟩ := hG y hg
    exact hxs y hy root hown hb
  refine ⟨⟨hkeeps₀, fun s _ => hscopes s, fun {s _} hs => ⟨_, (hscopes s).trans hs⟩, he.frame.last,
    he.frame.root, he.frame.depth, he.frame.config⟩, ⟨hs', ?_, fun y hy => ?_, fun y hy => ?_,
    he.outer.reach.of_store hkeeps₀ hscopes, he.outer.here, ?_⟩, rfl,
    fun y hy hheld => (hstays y hy).held hheld⟩
  · exact he.state.closed.keeps he.state.sound.heap hs'.heap hkeeps
  · obtain ⟨w, hw, ho⟩ := hy
    obtain ⟨-, v, hv, rfl⟩ := hf.of_some hw
    exact he.state.detached y ⟨v, hv, ho⟩
  · exact (he.state.safe y hy).of_keeps hkeeps
  · exact he.outer.live.imp_left fun ⟨sc, hsc⟩ => ⟨sc, (hscopes scope).trans hsc⟩

end Ending

namespace Exec

-- The last part of leaving a scope, when a travelling variable has been moved out of it.
def dropScope (n : ScopeId) (ended : Except Failure Unit) : Exec Unit := do
  if let .error _ := ended then
    (← takeResult).forM release
  let destroyed ← attempt (onStore (Store.destroy n))
  ofExcept ended
  ofExcept destroyed

theorem leaveScope_of_ok : leaveScope n (.ok ()) = attempt (rescueResult n) >>= dropScope n :=
  rfl

-- After a failure what travels is released before the scope goes.
private theorem leaveScope_failed {f : Failure} {Q : Unit → Run → Prop}
    (he : Ending D A K scope n r.flow.result.toList r₀ r) (hf : D.admits f.cause) :
    Ensures (dropScope n (.error f)) r Q (FailPost D A K noScope [] scope r₀) := by
  unfold dropScope
  simp only
  rw [Ensures.bind_iff, takeResult_iff, Ensures.bind_iff]
  generalize hr₁ : ({ r with flow := { r.flow with result := none } } : Run) = r₁
  have hframe₁ : Frame K (· = n) r r₁ := .of_machine (by rw [← hr₁]) (by rw [← hr₁])
  have hst₁ : State D (inside A n) K (r.flow.result.toList ++ []) n r₁ := by
    rw [List.append_nil]
    exact he.state.congr (by rw [← hr₁])
  refine (release_option (P := (· = n)) hst₁).mono ?_ fun _ _ he => he
  rintro _ r₂ ⟨hm, -⟩
  rw [Ensures.bind_iff, attempt_iff]
  refine ((he.later (hframe₁.trans hm.frame) hm.state).destroy (by simp)).mono ?_ fun _ _ he => he
  rintro _ r₃ ⟨hframe, hst, hflow, -⟩
  refine ⟨hframe, hst, ?_, hf⟩
  rw [hflow, hm.flow, ← hr₁]

theorem leaveScope_error {f : Failure} {Q : Unit → Run → Prop}
    (he : Ending D A K scope n r.flow.result.toList r₀ r) (hf : D.admits f.cause) :
    Ensures (leaveScope n (.error f)) r Q (FailPost D A K noScope [] scope r₀) :=
  leaveScope_failed he hf

theorem leaveScope_ok (he : Ending D A K scope n r.flow.result.toList r₀ r)
    (hcar : Carries D r) :
    Ensures (leaveScope n (.ok ())) r
      (fun _ r' => Frame K noScope r₀ r' ∧ State D A K r'.flow.result.toList scope r' ∧
        Carries D r' ∧ r'.flow.kind = r.flow.kind ∧
        (r'.flow.result = none ↔ r.flow.result = none))
      (FailPost D A K noScope [] scope r₀) := by
  rw [leaveScope_of_ok, Ensures.bind_iff, attempt_iff]
  refine (rescueResult_ensures (n := n) (P := (· = n)) he.state hcar).mono ?_ ?_
  · rintro _ r₁ ⟨hframe, hst, hcar₁, hout, hkind, hnone⟩
    show Ensures (attempt (onStore (Store.destroy n)) >>= ofExcept) r₁ _ _
    rw [Ensures.bind_iff, attempt_iff]
    refine ((he.later hframe hst).destroy fun y hy => hout y (by simpa using hy)).mono ?_
      fun _ _ he => he
    rintro _ r₂ ⟨hframe₂, hst₂, hflow, hheld⟩
    refine ⟨hframe₂, by rw [hflow]; exact hst₂, fun y hy => ?_, by rw [hflow, hkind],
      by rw [hflow, hnone]⟩
    rw [hflow] at hy ⊢
    exact (hcar₁ y hy).imp_left (hheld y (by simpa using hy))
  · rintro _ _ ⟨rfl, f, rfl, hf⟩
    exact leaveScope_failed he hf

-- A new scope in which nothing is bound yet.
theorem createChild_ensures (hst : State D A K [] scope r) (hflow : r.flow.result = none) :
    Ensures (onStore (Store.createChild scope name)) r
      (fun n r' => Ending D A K scope n [] r r' ∧ r'.flow = r.flow ∧
        (∃ sc, r.scope? scope = some sc) ∧ ∃ sc, sc.vars = [] ∧ r'.scope? n = some sc)
      (FailPost D A K noScope [] scope r) := by
  rw [onStore_iff]
  refine (Store.createChild_ensures hst.sound).mono ?_ ?_
  · rintro n st' ⟨hlive, hc⟩
    obtain ⟨sc, hvars, hfuncs, hparent, hsc⟩ := hc.scope
    have hheap : ∀ y o, st'.heap.OwnedBy y o ↔ r.heap.OwnedBy y o := by
      intro y o
      rw [hc.heap]
    have hkeeps : Keeps K r.heap st'.heap := by
      rw [hc.heap]
      exact .refl
    have hold : ∀ {s sc'}, st'.scope? s = some sc' → s ≠ n → r.scope? s = some sc' :=
      fun hs hne => (hc.others _ hne).symm.trans hs
    refine ⟨⟨hst, hc.fresh, ⟨hkeeps, hc.others, fun {s sc'} hs => ?_, rfl, rfl, rfl, rfl⟩,
      ⟨sc, hsc⟩, ⟨hc.sound, ?_, fun y hy => ?_, by simp, ⟨?_, ?_, ?_⟩, .inr rfl, .inl ⟨sc, hsc⟩⟩⟩,
      rfl, hlive, sc, hvars, hsc⟩
    · refine ⟨sc', (hc.others s ?_).trans hs⟩
      rintro rfl
      cases hc.fresh.symm.trans hs
    · exact hst.closed.keeps hst.sound.heap hc.sound.heap hkeeps
    · exact hst.detached y ((hheap y _).mp hy)
    · rintro s sc' p ha hs hp
      by_cases hsn : s = n
      · subst hsn
        cases hsc.symm.trans hs
        cases hparent.symm.trans hp
        exact .inl hst.here
      · exact .inl (hst.reach.parent (ha.resolve_right hsn) (hold hs hsn) hp)
    · rintro s sc' name' y ha hs hin
      by_cases hsn : s = n
      · subst hsn
        cases hsc.symm.trans hs
        simp [hvars] at hin
      · exact (hst.reach.safe (ha.resolve_right hsn) (hold hs hsn) hin).of_keeps hkeeps
    · rintro s sc' f ha hs hin
      by_cases hsn : s = n
      · subst hsn
        cases hsc.symm.trans hs
        simp [hfuncs] at hin
      · exact hst.reach.fit (ha.resolve_right hsn) (hold hs hsn) hin
  · rintro e st' ⟨rfl, rfl, hnone⟩
    refine ⟨.of_machine rfl rfl, hst.congr rfl, hflow, hst.live.resolve_left ?_ scope⟩
    rintro ⟨sc, hsc⟩
    cases hnone.symm.trans hsc

-- A part that runs in a scope of its own.
theorem withScope_ensures {part : ScopeId → Exec Unit} (hst : State D A K [] scope r)
    (hflow : r.flow = .start)
    (hpart : ∀ n r₁, State D (inside A n) K [] n r₁ → r₁.flow = .start →
      Ensures (part n) r₁ (fun _ r₂ => ExecPost D (inside A n) K n r₁ r₂)
        (FailPost D (inside A n) K (· = n) [] n r₁)) :
    Ensures (withScope scope name part) r (fun _ r' => ExecPost D A K scope r r')
      (FailPost D A K (· = scope) [] scope r) := by
  rw [withScope, Ensures.bind_iff]
  refine (createChild_ensures hst (by rw [hflow]; rfl)).mono ?_ fun _ _ he => he.some_scope
  rintro n r₁ ⟨he, hflow₁, -⟩
  rw [Ensures.bind_iff, attempt_iff]
  refine (hpart n r₁ he.state (hflow₁.trans hflow)).mono ?_ ?_
  · rintro _ r₂ hpost
    refine (leaveScope_ok (he.later hpost.frame hpost.state) hpost.carries).mono ?_
      fun _ _ he => he.some_scope
    rintro _ r₃ ⟨hframe, hst₃, hcar, hkind, hnone⟩
    refine ⟨hframe.some_scope, hst₃, hcar, hkind ▸ hpost.kind, ?_⟩
    rw [hkind, hnone]
    exact hpost.quiet
  · rintro (f | _) r₂ hfail
    · obtain ⟨hframe, hst₂, hres, hf⟩ := hfail
      have he₂ : Ending D A K scope n r₂.flow.result.toList r r₂ :=
        he.later hframe (by rw [hres]; exact hst₂)
      exact (leaveScope_error he₂ hf).mono (fun _ _ hq => hq) fun _ _ he => he.some_scope
    · trivial

end Exec

end FinLang

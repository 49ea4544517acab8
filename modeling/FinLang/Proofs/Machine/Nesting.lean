import FinLang.Proofs.Machine.Moves
import FinLang.Proofs.Store.Links

namespace FinLang

open Heap (Keeps Step)

-- A scope that was not there before; all others are as they were.
structure Opened (n : ScopeId) (r r' : Run) : Prop where
  fine : r'.Fine
  config : r'.machine.config = r.machine.config
  depth : r'.machine.depth = r.machine.depth
  fresh : r.scope? n = none
  live : ∃ sc, r'.scope? n = some sc
  others : ∀ s, s ≠ n → r'.scope? s = r.scope? s
  guards : Guards r r'
  links : Linking n r r'

variable {P : Permit} {K : VarId → Prop} {n scope : ScopeId} {r r₀ r' : Run} {x : VarId}
  {name : String} {E : Halt → Run → Prop} {h : Heap}

theorem Permit.Grows.live {a b : Option Scope} (hg : P.Grows a b) (ha : ∃ sc, a = some sc) :
    ∃ sc, b = some sc := by
  obtain ⟨vars, funcs, rfl, -⟩ := hg
  obtain ⟨sc, rfl⟩ := ha
  exact ⟨_, rfl⟩

-- Scopes last.
theorem Moves.live (hm : Moves P r r') (hs : ∃ sc, r.scope? scope = some sc) :
    ∃ sc, r'.scope? scope = some sc := by
  by_cases heq : scope = P.scope
  · subst heq
    exact hm.own.live hs
  · rwa [hm.others scope heq]

namespace Opened

theorem moves (ho : Opened n r₀ r) (hf : r₀.Fine) (hm : Moves P r r') (hP : P.scope = n) :
    Opened n r₀ r' where
  fine := hm.fine
  config := hm.config.trans ho.config
  depth := hm.depth.trans ho.depth
  fresh := ho.fresh
  live := hm.live ho.live
  others s hs := (hm.others s (hP ▸ hs)).trans (ho.others s hs)
  guards := ho.guards.trans hf ho.fine hm.guards
  links := hP ▸ hm.linking ho.fine (hP.symm ▸ ho.links)

theorem calm (ho : Opened n r₀ r) (hf : r₀.Fine) (hc : Calm r r') : Opened n r₀ r' :=
  ho.moves (P := ⟨n, fun _ => False, fun _ => False⟩) hf hc.moves rfl

-- What another scope owns is not touched.
theorem owned {s : ScopeId} (ho : Opened n r₀ r) (hf : r₀.Fine) (hx : r₀.heap.OwnedBy x (.scope s)) :
    s ≠ n ∧ r.heap.OwnedBy x (.scope s) := by
  obtain ⟨sc, name, hsc, hin⟩ := hf.sound.owned hx
  have hne : s ≠ n := by
    rintro rfl
    cases ho.fresh.symm.trans hsc
  exact ⟨hne, ho.fine.sound.bound ((ho.others s hne).trans hsc) hin⟩

theorem follows (ho : Opened n r₀ r) (hf : r₀.Fine) : r₀.Follows r where
  fine := ho.fine
  config := ho.config
  anchored ha l t hp := by
    have hold : ∀ {k}, r₀.heap.Points k t → ∃ s, r.heap.OwnedBy t (.scope s) := fun hk =>
      (ha _ t hk).imp fun _ ht => (ho.owned hf ht).2
    rcases ho.links l t hp with hp | ⟨-, ht | ⟨k, hk⟩⟩
    · exact hold hp
    · exact ht
    · exact hold hk

end Opened

namespace Exec

theorem createChild_opened (hf : r.Fine) :
    Ensures (onStore (Store.createChild scope name)) r
      (fun n r' => Opened n r r' ∧ ∃ sc, r.scope? scope = some sc)
      (fun e r' => (∃ f, e = .failure f) ∧ r' = r) := by
  rw [onStore_iff]
  refine (Store.createChild_ensures hf.sound).mono ?_ ?_
  · rintro n st' ⟨hlive, hc⟩
    obtain ⟨sc, -, -, -, hsc⟩ := hc.scope
    have hheap : st'.heap = r.heap := hc.heap
    refine ⟨⟨⟨hc.sound, hf.depth⟩, rfl, rfl, hc.fresh, ⟨sc, hsc⟩, hc.others, fun K _ hclear =>
      ⟨?_, hclear⟩, fun l t hp => .inl (hheap ▸ hp)⟩, hlive⟩
    show Keeps K r.heap st'.heap
    rw [hheap]
    exact .refl
  · rintro f st' ⟨rfl, -⟩
    exact ⟨⟨f, rfl⟩, rfl⟩

-- The variables of a scope go with it, and none of them is hidden.
theorem destroy_calm (ho : Opened n r₀ r) (hf : r₀.Fine) :
    Ensures (onStore (Store.destroy n)) r (fun _ r' => Calm r₀ r') E := by
  obtain ⟨sc, hsc⟩ := ho.live
  rw [onStore_iff]
  refine (Store.destroy_ensures ho.fine.sound hsc).mono ?_ fun _ _ he => he
  rintro _ st' ⟨hs', hscope, G, hfreed, hG⟩
  refine ⟨⟨hs', ho.fine.depth⟩, ho.config, ho.depth, fun s => ?_,
    ho.guards.trans hf ho.fine fun K hk hc => ⟨?_, hc⟩, fun l t hp => ?_⟩
  · show st'.scope? s = r₀.scope? s
    rw [hscope]
    split
    · subst_vars
      exact ho.fresh.symm
    · exact ho.others s ‹_›
  · refine hfreed.keeps hk.closed ho.fine.sound.heap.linked fun y hy hky => ?_
    obtain ⟨root, ⟨v, hv, how⟩, hb⟩ := hG y hy
    obtain ⟨w, hw⟩ := hk.closed.live hky
    have hleft := ho.fine.sound.heap.rules.bound hv (by simp) how
    rw [← ho.fine.sound.heap.flagged.below hb hv hw, hk.left hky hw] at hleft
    cases hleft
  · obtain ⟨v, hv, hpay⟩ := hp
    obtain ⟨-, u, hu, rfl⟩ := hfreed.of_some hv
    have hold : r.heap.Points l t := ⟨u, hu, (Payload.without_eq_link_iff.mp hpay).1⟩
    refine (ho.links l t hold).resolve_right fun ⟨hown, _⟩ => ?_
    obtain ⟨w, hw, how⟩ := hown
    cases hu.symm.trans hw
    obtain ⟨sc', name, hsc', -⟩ := hs'.owned ⟨_, hv, how⟩
    rw [hscope, if_pos rfl] at hsc'
    cases hsc'

-- What travels is let go of.
theorem dropResult_calm (hf : r.Fine) :
    Ensures (takeResult >>= fun result => result.forM release) r (fun _ r' => Calm r r') E := by
  have hnone : Calm r { r with flow := { r.flow with result := none } } :=
    .of_flow hf fun _ _ _ => nofun
  rw [Ensures.bind_iff, takeResult_iff]
  rcases hres : r.flow.result with _ | y
  · exact hnone
  · refine (release_still (x := y) hnone.fine).mono ?_ fun _ _ he => he
    rintro _ r₂ ⟨hs, -⟩
    refine ⟨hs.fine, hs.config, hs.depth, hs.scopes, fun K hk hc => ?_, hs.links⟩
    exact ⟨hs.keeps K hk (hc y hres), hs.clear.mpr (hnone.guards K hk hc).2⟩

-- However its body has ended, a scope is left.
theorem leaveScope_calm {ended : Except Failure Unit} (ho : Opened n r₀ r) (hf : r₀.Fine) :
    Ensures (leaveScope n ended) r (fun _ r' => Calm r₀ r') (Halted Calm r₀) := by
  -- After a failure what travels is released first.
  have hrest : ∀ {r₁ : Run} (ended' : Except Failure Unit), Opened n r₀ r₁ →
      Ensures (dropScope n ended') r₁ (fun _ r' => Calm r₀ r') (Halted Calm r₀) := by
    intro r₁ ended' ho₁
    have hgo : ∀ {r₂ : Run}, Opened n r₀ r₂ →
        Ensures (do
          let destroyed ← attempt (onStore (Store.destroy n))
          ofExcept ended'
          ofExcept destroyed) r₂ (fun _ r' => Calm r₀ r') (Halted Calm r₀) := by
      intro r₂ ho₂
      rw [Ensures.bind_iff, attempt_iff]
      refine (destroy_calm ho₂ hf).mono ?_ fun _ _ he => he
      rintro _ r₃ hc
      cases ended' <;> exact hc
    cases ended' with
    | ok _ => exact hgo ho₁
    | error f =>
      unfold dropScope
      simp only
      rw [← bind_assoc, Ensures.bind_iff]
      exact (dropResult_calm ho₁.fine).mono (fun _ _ hc => hgo (ho₁.calm hf hc)) fun _ _ he => he
  unfold leaveScope
  cases ended with
  | error f => exact hrest (.error f) ho
  | ok _ =>
    rw [Ensures.bind_iff, attempt_iff]
    refine (rescueResult_calm ho.fine).mono ?_ ?_
    · rintro _ r₁ hc
      exact hrest (.ok ()) (ho.calm hf hc)
    · rintro _ _ ⟨⟨f, rfl⟩, rfl⟩
      exact hrest (.error f) ho

theorem withScope_calm {part : ScopeId → Exec Unit} (hf : r.Fine)
    (hpart : ∀ n r₁, r₁.Fine → ∃ P : Permit, P.scope = n ∧
      Ensures (part n) r₁ (fun _ r₂ => Moves P r₁ r₂) (Halted (Moves P) r₁)) :
    Ensures (withScope scope name part) r (fun _ r' => Calm r r') (Halted Calm r) := by
  rw [withScope, Ensures.bind_iff]
  refine (createChild_opened hf).mono ?_ ?_
  · rintro n r₁ ⟨ho, -⟩
    obtain ⟨P, hP, hpart⟩ := hpart n r₁ ho.fine
    rw [Ensures.bind_iff, attempt_iff]
    refine hpart.mono ?_ ?_
    · rintro _ r₂ hm
      exact leaveScope_calm (ho.moves hf hm hP) hf
    · rintro (f | _) r₂ hm
      · exact leaveScope_calm (ho.moves hf hm hP) hf
      · exact (ho.follows hf).trans hm
  · rintro _ _ ⟨⟨f, rfl⟩, rfl⟩
    exact Calm.refl hf

-- A temporary, or a link just made, gets a name.
theorem declare_loose_moves (hf : r₀.Fine) (hq : Quiet r₀ r) (hP : P.scope = scope)
    (hname : P.name name) (hx : r₀.Apart x)
    (hstep : ∀ K, r.heap.Hidden K → ¬K x → Step K (· = x) [x] r.heap h) (hd : h.Detached x)
    (ha : h.Aimed x)
    (hlinks : ∀ l t, h.Points l t → r.heap.Points l t ∨
      l = x ∧ ((∃ s, r.heap.OwnedBy t (.scope s)) ∨ ∃ k, r.heap.Points k t)) :
    Ensures (onStore (Store.declare scope name x)) (r.withHeap h)
      (fun _ r' => Moves P r₀ r') (Halted (Moves P) r₀) := by
  have hs : (r.withHeap h).store.Sound [x] := hq.fine.sound.step (hstep nothing .nothing id)
  have hstep₀ : ∀ K, r₀.heap.Hidden K → Step K (· = x) [x] r.heap h := fun K hk =>
    hstep K (hq.hidden hf hk trivial) (hx K hk)
  have hkeep : ∀ K, r₀.heap.Hidden K → Keeps K r₀.heap h := fun K hk =>
    (hq.keeps K hk trivial).trans (hstep₀ K hk).keeps
  have hdec : ∀ K, r₀.heap.Hidden K → Ensures (Store.declare scope name x) (r.withHeap h).store
      (fun _ st => Store.Declared K (r.withHeap h).store scope name x st)
      (fun e st => Store.NotDeclared K (r.withHeap h).store scope x e st) := fun K hk =>
    Store.declare_ensures hs (hk.closed.keeps hf.sound.heap (hstep₀ K hk).sound (hkeep K hk))
      (hx K hk) hd ha
  have hdurable : Store.Upholds (Heap.WithinLinks h) (Store.declare scope name x) :=
    Store.Upholds.declare Heap.durable_within
  have hwithin := hdurable (r.withHeap h).store ⟨hs.heap.forest.arena, .refl⟩
  rw [onStore_iff]
  refine ((Ensures.all hdec).and hwithin).mono ?_ ?_
  · rintro _ st ⟨hall, -, hold⟩
    have hnone := hall nothing .nothing
    obtain ⟨sc, hsc, hsc'⟩ := hnone.scope
    have hsc : r.scope? scope = some sc := hsc
    have hgrows : P.Grows (r.scope? P.scope) (st.scope? P.scope) :=
      ⟨[(name, x)], [], by rw [hP]; exact hsc'.trans (by simp [hsc, Scope.extend]),
        by simpa using hname, by simp⟩
    refine ⟨⟨hnone.sound, hq.fine.depth⟩, hq.config, hq.depth,
      fun s hne => (hnone.others s (hP ▸ hne)).trans (hq.scopes s), hq.scopes P.scope ▸ hgrows,
      fun K hk hc => ⟨(hkeep K hk).trans (hall K hk).keeps, hq.clear.mpr hc⟩, fun l t hp => ?_⟩
    rcases hlinks l t (hold l t hp) with hp | ⟨rfl, ht⟩
    · exact .inl (hq.links l t hp)
    · obtain ⟨v, hv, -⟩ := hd
      refine .inr ⟨hP ▸ ⟨_, hnone.record v hv, rfl⟩, ht.imp (fun ht => ht.imp fun s ht => ?_)
        fun hk => hk.imp fun k => hq.links k t⟩
      obtain ⟨sct, old, hsct, hin⟩ := hq.fine.sound.owned ht
      by_cases heq : s = scope
      · subst heq
        cases hsc.symm.trans hsct
        exact hnone.sound.bound hsc' (List.mem_append_left _ hin)
      · exact hnone.sound.bound ((hnone.others s heq).trans hsct) hin
  · rintro f st ⟨hall, -, hold⟩
    have hnone := hall nothing .nothing
    have hscopes : ∀ s, st.scope? s = r.scope? s := by
      intro s
      rw [Store.scope?, hnone.scopes]
      rfl
    have hsound : st.Sound [] := by
      have hs' := hs.step hnone.step
      obtain ⟨heap, scopes⟩ := st
      cases hnone.scopes
      exact hs'
    refine Calm.moves ⟨⟨hsound, hq.fine.depth⟩, hq.config, hq.depth,
      fun s => (hscopes s).trans (hq.scopes s), fun K hk hc =>
        ⟨(hkeep K hk).trans (hall K hk).step.keeps, hq.clear.mpr hc⟩, fun l t hp => ?_⟩
    -- The variable is no more, so it is no link.
    refine hq.links l t ((hlinks l t (hold l t hp)).resolve_right ?_)
    rintro ⟨rfl, -⟩
    obtain ⟨s, hown⟩ := hsound.heap.link_owned hp
    obtain ⟨v, hv, ho⟩ := hd
    obtain ⟨w, hw, how⟩ := (hnone.step.bound l s).mp hown
    cases hv.symm.trans hw
    cases ho.symm.trans how

-- A detached variable is loose until it gets its owner.
theorem declare_moves (hf : r₀.Fine) (hq : Quiet r₀ r) (hP : P.scope = scope)
    (hname : P.name name) (hx : r₀.Apart x) (hd : r.heap.Detached x) :
    Ensures (onStore (Store.declare scope name x)) r
      (fun _ r' => Moves P r₀ r') (Halted (Moves P) r₀) := by
  have hs := hq.fine.sound.heap
  have hloose := hs.loosen (hs.forest.root_of_detached hd) (by simp)
  exact declare_loose_moves (r := r) (h := r.heap) hf hq hP hname hx
    (fun _ _ _ => ⟨hloose, .refl, fun _ _ => .rfl, fun _ => .inl⟩) hd (hs.rules.aimed hd)
    fun _ _ => .inl

-- A value that is made one's own gets a name.
theorem own_declare_moves (hf : r₀.Fine) (hq : Quiet r₀ r) (hP : P.scope = scope)
    (hname : P.name name) (hx : r₀.Apart x) :
    Ensures (do
      let id ← own x
      onStore (Store.declare scope name id)) r
      (fun _ r' => Moves P r₀ r') (Halted (Moves P) r₀) := by
  rw [Ensures.bind_iff]
  refine (own_still hq.fine).mono ?_ ?_
  · rintro y r₁ ⟨hs, hd, hy⟩
    refine declare_moves hf (hq.use hf hx hs) hP hname (fun K hk => ?_) hd
    exact hy K (hq.hidden hf hk trivial) (hx K hk)
  · rintro _ _ ⟨⟨f, rfl⟩, rfl⟩
    exact hq.moves

-- So does a new null variable,
theorem null_declare_moves (hf : r.Fine) (hP : P.scope = scope) (hname : P.name name) :
    Ensures (do
      let id ← onHeap Heap.allocNull
      onStore (Store.declare scope name id)) r
      (fun _ r' => Moves P r r') (Halted (Moves P) r) := by
  rw [Ensures.bind_iff]
  refine (alloc_quiet (p := .null) hf rfl nofun).mono ?_ fun _ _ he => he
  rintro y r₁ ⟨hq, hy, hd, -⟩
  exact declare_moves hf hq hP hname hy hd

-- and a new link to a variable that some scope binds.
theorem link_declare_moves {sc : Scope} {s : ScopeId} {old : String} (hf : r.Fine)
    (hP : P.scope = scope) (hname : P.name name) (hsc : r.scope? s = some sc)
    (hin : (old, x) ∈ sc.vars) :
    Ensures (do
      let link ← onHeap (Heap.allocLink x)
      onStore (Store.declare scope name link)) r
      (fun _ r' => Moves P r r') (Halted (Moves P) r) := by
  obtain ⟨v, hv, ho⟩ := hf.sound.bound hsc hin
  obtain ⟨t, w, hstands⟩ := hf.sound.heap.stands ⟨v, hv⟩
  have hleft : w.leftValue = true :=
    hstands.left_of_left hf.sound.heap.rules (by simp) hv
      (hf.sound.heap.rules.bound hv (by simp) ho)
  have hlink : ∀ K, r.heap.Hidden K → Ensures (Heap.allocLink x) r.heap
      (fun l h => Step K (· = l) [l] r.heap h ∧ r.heap.var? l = none ∧ h.Detached l ∧
        (w.leftValue = true → h.Aimed l)) fun _ _ => False := fun K hk =>
    Heap.allocLink_ensures hf.sound.heap hk.closed hstands fun hkt => by
      rw [hk.left hkt hstands.var] at hleft
      cases hleft
  rw [Ensures.bind_iff, onHeap_iff]
  refine ((Ensures.all hlink).and (Heap.allocLink_points hf.sound.heap hstands)).mono ?_
    fun _ _ he => (he.1 nothing .nothing).elim
  rintro l h ⟨hall, hpoints⟩
  obtain ⟨-, hfresh, hd, ha⟩ := hall nothing .nothing
  -- The link leads to what the scope binds, or where that leads.
  have htarget : (∃ s, r.heap.OwnedBy t (.scope s)) ∨ ∃ k, r.heap.Points k t :=
    hstands.self_or_link.imp (fun ht => ⟨s, v, by rwa [ht], ho⟩) fun ht => ⟨x, ht⟩
  refine declare_loose_moves (r := r) hf (.refl hf) hP hname (fun K hk hl => ?_)
    (fun K hk _ => (hall K hk).1) hd (ha hleft) fun k u hp =>
      (hpoints k u hp).imp_right fun ⟨hk, hu⟩ => ⟨hk, hu ▸ htarget⟩
  obtain ⟨u, hu⟩ := hk.closed.live hl
  cases hfresh.symm.trans hu

theorem addFunction_moves {f : Function} (hf : r.Fine) (hP : P.scope = scope)
    (hfun : P.function f) :
    Ensures (onStore (Store.addFunction scope f)) r
      (fun _ r' => Moves P r r') (Halted (Moves P) r) := by
  rw [onStore_iff]
  refine (Store.addFunction_ensures hf.sound).mono ?_ ?_
  · rintro _ st' ⟨hs, hheap, ⟨sc, hsc, hsc'⟩, hothers⟩
    have hsc : r.scope? scope = some sc := hsc
    have hheap : st'.heap = r.heap := hheap
    refine ⟨⟨hs, hf.depth⟩, rfl, rfl, fun s hne => hothers s (hP ▸ hne),
      ⟨[], [f], ?_, by simp, by simpa using hfun⟩, fun K _ hc => ⟨?_, hc⟩, fun l t hp =>
        .inl (hheap ▸ hp)⟩
    · rw [hP]
      exact hsc'.trans (by simp [hsc, Scope.extend])
    · show Keeps K r.heap st'.heap
      rw [hheap]
      exact .refl
  · rintro f st' ⟨rfl, -⟩
    exact Moves.refl hf

end Exec

end FinLang

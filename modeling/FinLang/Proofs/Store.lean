import FinLang.Proofs.Heap.Contents
import FinLang.Proofs.Heap.Elements
import FinLang.Store.Basic

namespace FinLang

namespace Store

abbrev scope? (st : Store) (s : ScopeId) : Option Scope :=
  st.scopes.arena.get? s

-- Scopes own the variables that they bind, and no others.
structure Sound (st : Store) (loose : List VarId) : Prop where
  heap : st.heap.Sound loose
  scopes : st.scopes.arena.Sound
  bound : ∀ {s sc name x}, st.scope? s = some sc → (name, x) ∈ sc.vars →
    st.heap.OwnedBy x (.scope s)
  owned : ∀ {x s}, st.heap.OwnedBy x (.scope s) →
    ∃ sc name, st.scope? s = some sc ∧ (name, x) ∈ sc.vars

variable {α : Type} {st st' : Store} {loose loose' : List VarId} {K T : VarId → Prop} {s : ScopeId} {sc : Scope} {id : VarId}
  {name : String} {Q : α → Store → Prop} {E : Failure → Store → Prop}

open Heap (Step Freed Keeps)

theorem onHeap_iff {op : HeapM α} :
    Ensures (onHeap op) st Q E ↔
      Ensures op st.heap (fun a h => Q a { st with heap := h })
        (fun e h => E e { st with heap := h }) := by
  unfold Ensures onHeap
  simp only [ExceptT.run, ExceptT.mk, StateT.run]
  rcases op st.heap with ⟨_ | _, _⟩ <;> rfl

theorem Sound.step {h : Heap} (hs : st.Sound loose) (hstep : Step K T loose' st.heap h) :
    Sound { st with heap := h } loose' where
  heap := hstep.sound
  scopes := hs.scopes
  bound hsc hin := (hstep.bound _ _).mpr (hs.bound hsc hin)
  owned hx := hs.owned ((hstep.bound _ _).mp hx)

theorem readScopes_lookup {Q : Scope → Store → Prop} (hsc : st.scope? s = some sc) :
    Ensures (readScopes (·.lookup s)) st Q E ↔ Q sc st := by
  have : st.scopes.lookup s = .ok sc := by simp [Scopes.lookup, hsc]
  simp [Ensures, readScopes, ExceptT.mk, ExceptT.run, StateT.run, this]

theorem readScopes_lookup_stale {Q : Scope → Store → Prop} (hsc : st.scope? s = none) :
    Ensures (readScopes (·.lookup s)) st Q E ↔ E (.of (.staleScope s)) st := by
  have : st.scopes.lookup s = .error (.of (.staleScope s)) := by simp [Scopes.lookup, hsc]
  simp [Ensures, readScopes, ExceptT.mk, ExceptT.run, StateT.run, this]

theorem updateScope_iff {f : Scope → Scope} {Q : Unit → Store → Prop}
    (hsc : st.scope? s = some sc) :
    Ensures (updateScope s f) st Q E ↔
      Q () { st with scopes := st.scopes.modify s f } := by
  have hc : st.scopes.contains s = true := Arena.contains_iff.mpr ⟨sc, hsc⟩
  simp only [updateScope, Ensures.bind_iff, Ensures.get_iff, hc, if_true]
  exact Ensures.modify_iff

theorem scope?_modify {f : Scope → Scope} (x : ScopeId) :
    scope? { st with scopes := st.scopes.modify s f } x =
      if x = s then (st.scope? x).map f else st.scope? x :=
  Arena.get?_modify s x f

-- A change of a scope that leaves its bindings alone.
theorem Sound.modify {f : Scope → Scope} (hs : st.Sound loose) (hf : ∀ sc, (f sc).vars = sc.vars) :
    Sound { st with scopes := st.scopes.modify s f } loose where
  heap := hs.heap
  scopes := Arena.sound_modify hs.scopes s f
  bound {r sc name x} hsc hin := by
    rw [scope?_modify] at hsc
    split at hsc
    · obtain ⟨sc', hsc', rfl⟩ := Option.map_eq_some_iff.mp hsc
      exact hs.bound hsc' (hf sc' ▸ hin)
    · exact hs.bound hsc hin
  owned {x r} hx := by
    obtain ⟨sc, name, hsc, hin⟩ := hs.owned hx
    by_cases hr : r = s
    · exact ⟨f sc, name, by rw [scope?_modify, if_pos hr, hsc]; rfl, (hf sc).symm ▸ hin⟩
    · exact ⟨sc, name, by rw [scope?_modify, if_neg hr, hsc], hin⟩

-- A new scope, which binds nothing yet.
structure Created (st : Store) (parent : ScopeId) (n : ScopeId) (st' : Store) : Prop where
  sound : st'.Sound []
  heap : st'.heap = st.heap
  fresh : st.scope? n = none
  scope : ∃ sc, sc.vars = [] ∧ sc.funcs = [] ∧ sc.parent = some parent ∧
    st'.scope? n = some sc
  others : ∀ x, x ≠ n → st'.scope? x = st.scope? x

theorem createChild_ensures (hs : st.Sound []) :
    Ensures (createChild s name) st
      (fun n st' => (∃ sc, st.scope? s = some sc) ∧ Created st s n st')
      (fun e st' => st' = st ∧ e = .of (.staleScope s) ∧ st.scope? s = none) := by
  rw [createChild, Ensures.bind_iff]
  rcases hsc : st.scope? s with _ | sc
  · exact (readScopes_lookup_stale hsc).mpr ⟨rfl, rfl, rfl⟩
  · refine (readScopes_lookup hsc).mpr ?_
    refine Ensures.lift_iff.mpr ⟨⟨sc, rfl⟩, ?_⟩
    simp only [createScope, Scopes.create, modifyGet, MonadStateOf.modifyGet, StateT.modifyGet,
      StateT.run, pure]
    generalize hnew : Scope.mk name [] [] none ((some s).bind st.scopes.figure?) (some s) = new
    have hnone := Arena.get?_insert_fresh hs.scopes new
    have hself := Arena.get?_insert_self hs.scopes new
    have hother {x : ScopeId} := @Arena.get?_insert_of_ne _ _ _ hs.scopes new x
    refine ⟨⟨hs.heap, Arena.sound_insert hs.scopes new, ?_, ?_⟩, rfl, hnone,
      ⟨new, by rw [← hnew], by rw [← hnew], by rw [← hnew], hself⟩, fun x hx => hother hx⟩
    · intro r sc' name x hsc' hin
      by_cases hr : r = (st.scopes.arena.insert new).1
      · subst hr
        cases hself.symm.trans hsc'
        simp [← hnew] at hin
      · exact hs.bound ((hother hr).symm.trans hsc') hin
    · intro x r hx
      obtain ⟨sc', name, hsc', hin⟩ := hs.owned hx
      refine ⟨sc', name, (hother ?_).trans hsc', hin⟩
      rintro rfl
      cases hnone.symm.trans hsc'

-- The handle of a new scope is none that has gone out of use.
theorem createChild_passed (hs : st.Sound []) :
    Ensures (createChild s name) st (fun n _ => ∀ p, st.scopes.arena.Passed p → p ≠ n)
      fun _ _ => True := by
  rw [createChild, Ensures.bind_iff]
  rcases hsc : st.scope? s with _ | sc
  · exact (readScopes_lookup_stale hsc).mpr trivial
  refine (readScopes_lookup hsc).mpr (Ensures.lift_iff.mpr ?_)
  rintro p hp rfl
  have hnone := (hp.insert (Scope.mk name [] [] none ((some s).bind st.scopes.figure?) (some s))).get?_eq_none
  cases hnone.symm.trans (Arena.get?_insert_self hs.scopes _)

-- A scope has gone, and with it the variables it owned, in depth.
structure Destroyed (st : Store) (s : ScopeId) (st' : Store) : Prop where
  sound : st'.Sound []
  scope : ∀ x, st'.scope? x = if x = s then none else st.scope? x
  freed : ∃ G, Freed G st.heap st'.heap ∧
    ∀ x, G x → ∃ r, st.heap.OwnedBy r (.scope s) ∧ st.heap.Below r x

-- The roots on the way to a freed variable are those that the scope owned.
private theorem not_freed_of_root {G : VarId → Prop} (hs : st.Sound [])
    (hG : ∀ x, G x → ∃ r, st.heap.OwnedBy r (.scope s) ∧ st.heap.Below r x) {x : VarId} {o : Owner}
    (hx : st.heap.OwnedBy x o) (ho : ∀ p, o ≠ .array p) (hne : o ≠ .scope s) : ¬G x := by
  intro hg
  obtain ⟨r, hr, hb⟩ := hG x hg
  obtain ⟨v, hv, rfl⟩ := hx
  cases hb.eq_of_root (hs.heap.forest.root_of_owner hv ho).2
  rw [Heap.ownedBy_iff hv] at hr
  exact hne hr

-- The bindings of a scope may be freed in any order.
def destroyIn (order : List (String × VarId)) (id : ScopeId) : StoreM Unit := do
  modify fun s => { s with scopes := ⟨s.scopes.arena.erase id⟩ }
  order.forM fun (_, var) => do
    if (← get).heap.contains var then
      onHeap (Heap.free var)

theorem destroyIn_ensures {order : List (String × VarId)} (hs : st.Sound [])
    (hsc : st.scope? s = some sc) (horder : ∀ b, b ∈ order ↔ b ∈ sc.vars) :
    Ensures (destroyIn order s) st (fun _ st' => Destroyed st s st') E := by
  rw [destroyIn, Ensures.bind_iff]
  refine Ensures.modify_iff.mpr ?_
  -- What has not been freed yet is still to come.
  let I : List (String × VarId) → Store → Prop := fun rest st' =>
    st'.heap.Sound [] ∧ st'.scopes.arena = st.scopes.arena.erase s ∧ (∀ b ∈ rest, b ∈ sc.vars) ∧
      ∃ G, Freed G st.heap st'.heap ∧
        (∀ x, G x → ∃ r, st.heap.OwnedBy r (.scope s) ∧ st.heap.Below r x) ∧
        ∀ name x, (name, x) ∈ sc.vars → (name, x) ∈ rest ∨ G x
  have hI : I order { st with scopes := ⟨st.scopes.arena.erase s⟩ } :=
    ⟨hs.heap, rfl, fun b hb => (horder b).mp hb, fun _ => False, .refl, by simp, fun _ _ hin =>
      .inl ((horder _).mpr hin)⟩
  refine (Ensures.forM I ?_ _ _ hI).mono ?_ fun _ _ he => he
  · rintro ⟨name, var⟩ rest st₁ ⟨hs₁, hsc₁, hrest, G, hf, hG, hdone⟩
    have hin := hrest _ (List.mem_cons_self ..)
    have hrest' : ∀ b ∈ rest, b ∈ sc.vars := fun b hb => hrest b (List.mem_cons_of_mem _ hb)
    have hnext : ∀ {G' : VarId → Prop}, (∀ x, G x → G' x) → G' var → ∀ name x, (name, x) ∈ sc.vars →
        (name, x) ∈ rest ∨ G' x := by
      intro G' hsub hvar name' x hx
      rcases hdone name' x hx with hx | hx
      · rcases List.mem_cons.mp hx with he | hx
        · cases he
          exact .inr hvar
        · exact .inl hx
      · exact .inr (hsub x hx)
    obtain ⟨v, hv, ho⟩ := hs.bound hsc hin
    rw [Ensures.bind_iff, Ensures.get_iff]
    split
    · rename_i hlive
      obtain ⟨v₁, hv₁⟩ := Heap.contains_iff.mp hlive
      obtain ⟨-, u, hu, rfl⟩ := hf.of_some hv₁
      rw [hv] at hu
      cases hu
      have hroot := hs₁.forest.root_of_owner hv₁ (by
        show ∀ p, v.owner ≠ .array p
        simp [ho])
      refine onHeap_iff.2 ((Heap.free_ensures (hs₁.loosen hroot (by simp))).mono ?_
        fun _ _ he => he)
      rintro _ h₂ ⟨hs₂, G', hf', hvar, hG'⟩
      refine ⟨hs₂, hsc₁, hrest', _, hf.trans hf', ?_, hnext (fun _ => .inl) (.inr hvar)⟩
      rintro x (hx | hx)
      · exact hG x hx
      · exact ⟨var, ⟨v, hv, ho⟩, hf.below (hG' x hx)⟩
    · rename_i hdead
      refine ⟨hs₁, hsc₁, hrest', G, hf, hG, hnext (fun _ hx => hx) ?_⟩
      by_contra hg
      exact hdead (Heap.contains_iff.mpr ⟨_, hf.some hg hv⟩)
  · rintro _ st' ⟨hs', hsc', -, G, hf, hG, hdone⟩
    have hscope : ∀ x, st'.scope? x = if x = s then none else st.scope? x := by
      intro x
      rw [scope?, hsc']
      split
      · subst_vars
        exact Arena.get?_erase_self _ _
      · exact Arena.get?_erase_of_ne _ ‹_›
    refine ⟨⟨hs', hsc' ▸ Arena.sound_erase hs.scopes s, ?_, ?_⟩, hscope, G, hf, hG⟩
    · intro r sc' name x hr hin
      rw [hscope] at hr
      split at hr
      · cases hr
      · rename_i hne
        obtain ⟨v, hv, ho⟩ := hs.bound hr hin
        have hg := not_freed_of_root hs hG ⟨v, hv, ho⟩ (by simp) (by simpa using hne)
        exact ⟨_, hf.some hg hv, ho⟩
    · rintro x r ⟨v, hv, ho⟩
      obtain ⟨hg, u, hu, rfl⟩ := hf.of_some hv
      obtain ⟨sc', name, hr, hin⟩ := hs.owned ⟨u, hu, ho⟩
      refine ⟨sc', name, ?_, hin⟩
      rw [hscope, if_neg]
      · exact hr
      · rintro rfl
        cases hsc.symm.trans hr
        exact hg ((hdone name x hin).resolve_left (by simp))

theorem destroy_ensures (hs : st.Sound []) (hsc : st.scope? s = some sc) :
    Ensures (destroy s) st (fun _ st' => Destroyed st s st') E :=
  Ensures.bind_iff.mpr ((readScopes_lookup hsc).mpr (destroyIn_ensures hs hsc fun _ => .rfl))

-- A temporary has been bound to a name of a scope.
structure Declared (K : VarId → Prop) (st : Store) (s : ScopeId) (name : String) (id : VarId)
    (st' : Store) : Prop where
  sound : st'.Sound []
  keeps : Keeps K st.heap st'.heap
  detached : ∀ x, st'.heap.Detached x → st.heap.Detached x ∧ x ≠ id
  scope : ∃ sc, st.scope? s = some sc ∧
    st'.scope? s = some { sc with vars := sc.vars ++ [(name, id)] }
  others : ∀ x, x ≠ s → st'.scope? x = st.scope? x
  record : ∀ v, st.heap.var? id = some v →
    st'.heap.var? id = some { v with leftValue := true, owner := .scope s }

-- It has not, and is no more.
structure NotDeclared (K : VarId → Prop) (st : Store) (s : ScopeId) (id : VarId) (e : Failure)
    (st' : Store) : Prop where
  step : Step K (fun _ => False) [] st.heap st'.heap
  detached : ¬st'.heap.Detached id
  scopes : st'.scopes = st.scopes
  cause : e.cause.Ordinary ∨ e.cause = .staleScope s ∧ st.scope? s = none

-- The variable is marked and its owner is still to come.
private structure Marked (K : VarId → Prop) (st : Store) (id : VarId) (h : Heap) : Prop where
  sound : h.Sound [id]
  maps : Heap.Maps (Heap.marking (st.heap.Below id) true) st.heap h
  keeps : Keeps K st.heap h

private theorem Marked.record {v : Variable} {h : Heap} (hm : Marked K st id h)
    (hv : st.heap.var? id = some v) : h.var? id = some { v with leftValue := true } := by
  rw [hm.maps.some hv, Heap.marking_of_pos .refl]

private theorem Marked.aimed {h : Heap} (hm : Marked K st id h) (ha : st.heap.Aimed id) :
    h.Aimed id := by
  refine hm.maps.aimed ha fun x v => ⟨Heap.payload_marking, fun hl => ?_⟩
  unfold Heap.marking
  split
  · rfl
  · exact hl

private theorem Marked.ownedBy {x : VarId} {o : Owner} {h : Heap} (hm : Marked K st id h) :
    h.OwnedBy x o ↔ st.heap.OwnedBy x o := by
  rcases hv : st.heap.var? x with _ | v
  · simp [Heap.OwnedBy, hm.maps x, hv]
  · rw [Heap.ownedBy_iff (hm.maps.some hv), Heap.ownedBy_iff hv, Heap.owner_marking]

private theorem setLeftValue_marked (hs : st.Sound [id]) (hc : st.heap.Closed K) (hk : ¬K id)
    {E : Failure → Heap → Prop} :
    Ensures (Heap.setLeftValue id true) st.heap (fun _ h => Marked K st id h) E := by
  obtain ⟨v, hv⟩ := (hs.heap.forest.loose_root (List.mem_cons_self ..)).1
  refine (Heap.setLeftValue_ensures hs.heap.forest.arena
    (hs.heap.forest.within ⟨v, hv⟩)).mono ?_ fun _ _ he => he
  rintro _ h ⟨ha, hm⟩
  refine ⟨hs.heap.marked ha hm hv (by simp) fun _ => .inl rfl, hm, fun x hx => ?_⟩
  rw [hm x]
  rcases st.heap.var? x with _ | u
  · rfl
  · rw [Option.map_some, Heap.marking_of_neg fun hb => hk ((hc.below hb).mp hx)]

-- Binding a marked variable: it gets its owner, or nothing has changed.
private theorem addVariable_ensures {h : Heap} (hs : st.Sound [id]) (hk : ¬K id)
    (hd : st.heap.Detached id) (ha : st.heap.Aimed id) (hm : Marked K st id h) :
    Ensures (addVariable s name id) { st with heap := h }
      (fun _ st' => Declared K st s name id st')
      (fun e st' => st' = { st with heap := h } ∧
        (e.cause.Ordinary ∨ e.cause = .staleScope s ∧ st.scope? s = none)) := by
  obtain ⟨v, hv, ho⟩ := hd
  have hv₁ := hm.record hv
  have hleft : h.isLeftValue id = .ok true := Heap.isLeftValue_eq hv₁
  unfold addVariable
  split
  · rw [Ensures.bind_iff]
    exact Ensures.throw_iff.mpr ⟨rfl, .inl ⟨nofun, nofun⟩⟩
  have hread : Ensures (readHeap (·.isLeftValue id)) { st with heap := h }
      (fun a st' => a = true ∧ st' = { st with heap := h }) (fun _ _ => False) := by
    simp [Ensures, readHeap, ExceptT.mk, ExceptT.run, StateT.run, hleft]
  rw [Ensures.bind_iff]
  refine hread.mono ?_ fun _ _ => False.elim
  rintro _ _ ⟨rfl, rfl⟩
  rw [if_neg (by simp), Ensures.bind_iff]
  rcases hsc : st.scope? s with _ | sc
  · exact (readScopes_lookup_stale (show scope? { st with heap := h } s = none from hsc)).mpr ⟨rfl, .inr ⟨rfl, rfl⟩⟩
  refine (readScopes_lookup (show scope? { st with heap := h } s = some sc from hsc)).mpr ?_
  split
  · rw [Ensures.bind_iff]
    exact Ensures.throw_iff.mpr ⟨rfl, .inl (by simp [Cause.Ordinary, Failure.of, Cause.kind])⟩
  rw [Ensures.bind_iff, updateScope_iff (show scope? { st with heap := h } s = some sc from hsc), onHeap_iff,
    Heap.setOwner]
  refine (Heap.update_iff hv₁).mpr ?_
  have hs₂ := hm.sound.change_owner (o := .scope s) (List.mem_singleton_self id)
  have hv₂ : (h.change id fun v => { v with owner := .scope s }).var? id =
      some { v with leftValue := true, owner := .scope s } := by
    rw [Heap.var?_change, if_pos rfl, hv₁]
    rfl
  have hmaps : Heap.Maps _ h (h.change id fun v => { v with owner := .scope s }) :=
    Heap.maps_change _
  have haimed := hmaps.aimed (hm.aimed ha) fun x v => by by_cases hx : x = id <;> simp [hx]
  have hs₃ := hs₂.tighten hv₂ (by simp) (by simp) (by simp) fun _ => haimed
  have howned : ∀ {x o}, (h.change id fun v => { v with owner := .scope s }).OwnedBy x o ↔
      if x = id then o = .scope s else st.heap.OwnedBy x o := by
    intro x o
    split
    · subst_vars
      rw [Heap.ownedBy_iff hv₂]
      exact eq_comm
    · rename_i hx
      rw [← hm.ownedBy]
      unfold Heap.OwnedBy
      rw [Heap.var?_change, if_neg hx]
  have hscope : ∀ x, scope? { st with
      scopes := st.scopes.modify s fun sc => { sc with vars := sc.vars ++ [(name, id)] } } x =
      if x = s then some { sc with vars := sc.vars ++ [(name, id)] } else st.scope? x := by
    intro x
    rw [scope?_modify]
    split
    · subst_vars
      rw [hsc]
      rfl
    · rfl
  have hnot : ∀ {r}, ¬st.heap.OwnedBy id (.scope r) := by
    intro r hr
    rw [Heap.ownedBy_iff hv, ho] at hr
    cases hr
  refine ⟨⟨hs₃, Arena.sound_modify hs.scopes _ _, ?_, ?_⟩, fun x hx => ?_, fun x hx => ?_,
    ⟨sc, hsc, (hscope s).trans (if_pos rfl)⟩, fun x hx => (hscope x).trans (if_neg hx),
    fun w hw => by cases hv.symm.trans hw; exact hv₂⟩
  · intro r sc' name' x hr hin
    have hr := (hscope r).symm.trans hr
    by_cases hrs : r = s
    · rw [if_pos hrs] at hr
      cases hr
      subst hrs
      rcases List.mem_append.mp hin with hin | hin
      · have hx := hs.bound hsc hin
        refine howned.mpr ?_
        rw [if_neg]
        · exact hx
        · rintro rfl
          exact hnot hx
      · cases List.mem_singleton.mp hin
        exact howned.mpr (by simp)
    · rw [if_neg hrs] at hr
      have hx := hs.bound hr hin
      refine howned.mpr ?_
      rw [if_neg]
      · exact hx
      · rintro rfl
        exact hnot hx
  · intro x r hx
    have hown := howned.mp hx
    by_cases hxid : x = id
    · rw [if_pos hxid] at hown
      cases hown
      subst hxid
      exact ⟨_, name, (hscope s).trans (if_pos rfl), by simp⟩
    · rw [if_neg hxid] at hown
      obtain ⟨sc', name', hr, hin⟩ := hs.owned hown
      by_cases hrs : r = s
      · subst hrs
        cases hsc.symm.trans hr
        exact ⟨_, name', (hscope r).trans (if_pos rfl), List.mem_append_left _ hin⟩
      · exact ⟨sc', name', (hscope r).trans ((if_neg hrs).trans hr), hin⟩
  · refine Eq.trans ?_ (hm.keeps x hx)
    refine (Heap.var?_change _ _).trans (if_neg ?_)
    rintro rfl
    exact hk hx
  · have hx := howned.mp hx
    split at hx
    · cases hx
    · exact ⟨hx, ‹_›⟩

theorem declare_ensures (hs : st.Sound [id]) (hc : st.heap.Closed K) (hk : ¬K id)
    (hd : st.heap.Detached id) (ha : st.heap.Aimed id) :
    Ensures (declare s name id) st (fun _ st' => Declared K st s name id st')
      (fun e st' => NotDeclared K st s id e st') := by
  rw [declare, Ensures.bind_iff, onHeap_iff]
  refine (setLeftValue_marked hs hc hk).mono ?_ fun _ _ he => he
  rintro _ h hm
  rw [Ensures.tryCatch_iff]
  refine (addVariable_ensures hs hk hd ha hm).mono (fun _ _ hq => hq) ?_
  rintro e st₁ ⟨rfl, hcause⟩
  rw [Ensures.bind_iff, onHeap_iff]
  refine (Heap.free_ensures hm.sound).mono ?_ fun _ _ he => he
  rintro _ h' ⟨hs', G, hf, hid, hG⟩
  have hbelow : ∀ x, G x → st.heap.Below id x := fun x hx =>
    (hm.maps.below fun _ => by rw [Heap.payload_marking]).mp (hG x hx)
  have hck := hc.keeps_of hs.heap (by simpa using hk) hm.sound hm.keeps
  have hstep : Step K (fun _ => False) [] h h' := by
    refine .freed hs' hf hck hm.sound.linked (fun x hx => ?_) fun x s hx hown => ?_
    · exact mt (hc.below (hbelow x hx)).mp hk
    · exact hs.heap.not_scope_of_below hd (hbelow x hx) s (hm.ownedBy.mp hown)
  refine Ensures.throw_iff.mpr ⟨⟨hs', hm.keeps.trans hstep.keeps, fun x s => ?_, fun x hx => ?_⟩,
    ?_, rfl, hcause⟩
  · exact (hstep.bound x s).trans hm.ownedBy
  · exact (hstep.detached x hx).imp_left hm.ownedBy.mp
  · rintro ⟨w, hw, -⟩
    rw [(hf id).1 hid] at hw
    cases hw

-- A new name goes to a temporary as it is. Only an empty name and a name that the scope has are
-- refused.
theorem declare_contents (hs : st.Sound [id]) (hd : st.heap.Detached id)
    (hsc : st.scope? s = some sc) :
    Ensures (declare s name id) st
      (fun _ st' => name ≠ "" ∧ sc.varNamed? name = none ∧ st.heap.SameContents st'.heap)
      (fun e _ => name = "" ∧ e = .of .emptyName ∨
        (sc.varNamed? name).isSome ∧ e = .of (.duplicateVariable name)) := by
  obtain ⟨v, hv, -⟩ := hd
  rw [declare, Ensures.bind_iff, onHeap_iff]
  refine (setLeftValue_marked (K := fun _ => False) hs Heap.closed_nothing not_false).mono ?_
    fun _ _ he => he
  rintro _ h hm
  have hv₁ := hm.record hv
  have hmarked : st.heap.SameContents h := .of_maps hm.maps fun _ _ => Heap.payload_marking
  have hleft : h.isLeftValue id = .ok true := Heap.isLeftValue_eq hv₁
  rw [Ensures.tryCatch_iff]
  -- Whatever the failure, it is handed on when the variable has been freed.
  suffices hadd : Ensures (addVariable s name id) { st with heap := h }
      (fun _ st' => name ≠ "" ∧ sc.varNamed? name = none ∧ st.heap.SameContents st'.heap)
      (fun e st' => st'.heap = h ∧ (name = "" ∧ e = .of .emptyName ∨
        (sc.varNamed? name).isSome ∧ e = .of (.duplicateVariable name))) by
    refine hadd.mono (fun _ _ hq => hq) ?_
    rintro e st' ⟨rfl, he⟩
    rw [Ensures.bind_iff, onHeap_iff]
    exact (Heap.free_ensures hm.sound).mono (fun _ _ _ => he) fun _ _ he => he
  unfold addVariable
  split
  · rename_i hempty
    exact Ensures.bind_iff.mpr ⟨rfl, .inl ⟨String.isEmpty_iff.mp hempty, rfl⟩⟩
  rename_i hname
  have hread : Ensures (readHeap (·.isLeftValue id)) { st with heap := h }
      (fun a st' => a = true ∧ st' = { st with heap := h }) (fun _ _ => False) := by
    simp [Ensures, readHeap, ExceptT.mk, ExceptT.run, StateT.run, hleft]
  rw [Ensures.bind_iff]
  refine hread.mono ?_ fun _ _ => False.elim
  rintro _ _ ⟨rfl, rfl⟩
  have hsc' : scope? { st with heap := h } s = some sc := hsc
  rw [if_neg (by simp), Ensures.bind_iff]
  refine (readScopes_lookup hsc').mpr ?_
  split
  · rename_i hbound
    exact Ensures.bind_iff.mpr ⟨rfl, .inr ⟨hbound, rfl⟩⟩
  rename_i hfree
  rw [Ensures.bind_iff, updateScope_iff hsc', onHeap_iff, Heap.setOwner]
  refine (Heap.update_iff hv₁).mpr ⟨fun he => hname (by simp [he]), ?_, hmarked.trans ?_⟩
  · exact Option.not_isSome_iff_eq_none.mp hfree
  · exact .of_maps (Heap.maps_change _) fun x v => by by_cases hx : x = id <;> simp [hx]

theorem addFunction_ensures {f : Function} (hs : st.Sound []) :
    Ensures (addFunction s f) st
      (fun _ st' => st'.Sound [] ∧ st'.heap = st.heap ∧
        (∃ sc, st.scope? s = some sc ∧ st'.scope? s = some { sc with funcs := sc.funcs ++ [f] }) ∧
        ∀ x, x ≠ s → st'.scope? x = st.scope? x)
      (fun e st' => st' = st ∧
        (e.cause.Ordinary ∨ e.cause = .staleScope s ∧ st.scope? s = none)) := by
  rw [addFunction, Ensures.bind_iff]
  rcases hsc : st.scope? s with _ | sc
  · exact (readScopes_lookup_stale hsc).mpr ⟨rfl, .inr ⟨rfl, rfl⟩⟩
  refine (readScopes_lookup hsc).mpr ?_
  split
  · rw [Ensures.bind_iff]
    exact Ensures.throw_iff.mpr ⟨rfl, .inl ⟨nofun, nofun⟩⟩
  · refine (updateScope_iff hsc).mpr ⟨hs.modify fun _ => rfl, rfl, ⟨sc, rfl, ?_⟩, fun x hx => ?_⟩
    · rw [scope?_modify, if_pos rfl, hsc]
      rfl
    · rw [scope?_modify, if_neg hx]

theorem setBelongsTo_ensures {f : Function} (hs : st.Sound []) (hsc : st.scope? s = some sc) :
    Ensures (setBelongsTo s f) st
      (fun _ st' => st'.Sound [] ∧ st'.heap = st.heap ∧
        st'.scope? s = some { sc with belongsTo := some f } ∧
        ∀ x, x ≠ s → st'.scope? x = st.scope? x) E := by
  refine (updateScope_iff hsc).mpr ⟨hs.modify fun _ => rfl, rfl, ?_, fun x hx => ?_⟩
  · rw [scope?_modify, if_pos rfl, hsc]
    rfl
  · rw [scope?_modify, if_neg hx]

end Store

end FinLang

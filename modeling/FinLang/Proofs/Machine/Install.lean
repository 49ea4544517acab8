import FinLang.Proofs.Machine.Rest

namespace FinLang

open Heap (Step Temporary)

theorem Library.fit_functions (D : Discipline) (f : Function) (hf : f ∈ Library.functions) : f.Fit D := by
  simp only [Library.functions, List.mem_append, List.mem_cons, List.not_mem_nil, or_false,
    List.mem_map] at hf
  rcases hf with (rfl | rfl | rfl | rfl | rfl | rfl | rfl | rfl) | ⟨g, -, rfl⟩ <;>
    exact ⟨by simp, by simp [Native.arguments, Library.native]⟩

namespace Store

-- A number that belongs to a scope and cannot be assigned to.
def Numbered (st : Store) (scope : ScopeId) (x : VarId) (value : Float) : Prop :=
  ∃ v, st.heap.var? x = some v ∧ v.payload = .numeric value ∧ v.owner = .scope scope ∧
    v.writeProtected = true

-- A scope binds certain numbers, in this order, and nothing else.
def Lists (st : Store) (scope : ScopeId) (constants : List (String × Float)) : Prop :=
  ∃ sc, st.scope? scope = some sc ∧
    List.Forall₂ (fun c b => b.1 = c.1 ∧ st.Numbered scope b.2 c.2) constants sc.vars

variable {D : Discipline} {st st' : Store} {root : ScopeId} {name : String} {x : VarId}
  {value : Float} {constants : List (String × Float)}

theorem Numbered.keeps (hx : st.Numbered root x value)
    (hk : st'.heap.var? x = st.heap.var? x) : st'.Numbered root x value :=
  hx.imp fun _ hv => ⟨hk.trans hv.1, hv.2⟩

-- What is bound already is left alone.
theorem Lists.numbered (hl : st.Lists root constants)
    (hk : Heap.Keeps (st.Bound root) st.heap st'.heap) {sc : Scope}
    (hsc : st.scope? root = some sc) :
    List.Forall₂ (fun c b => b.1 = c.1 ∧ st'.Numbered root b.2 c.2) constants sc.vars := by
  obtain ⟨sc', hsc', hall⟩ := hl
  cases hsc'.symm.trans hsc
  refine List.forall₂_iff_get.mpr ⟨hall.length_eq, fun i hc hb => ?_⟩
  have h := (List.forall₂_iff_get.mp hall).2 i hc hb
  exact ⟨h.1, h.2.keeps (hk _ ⟨sc, _, hsc, List.get_mem ..⟩)⟩

theorem Rests.unbound (hr : st.Rests D) (hx : ¬st.heap.Live x) (s : ScopeId) : ¬st.Bound s x := by
  rintro ⟨sc, name, hsc, hin⟩
  obtain ⟨v, hv, -⟩ := hr.sound.bound hsc hin
  exact hx ⟨v, hv⟩

-- The scope is given one more constant.
private theorem constant_ensures (hr : st.Rests D) (hp : st.Pristine root) (value : Float) :
    Ensures (do
      let id ← onHeap (Heap.allocNumeric value)
      declare root name id
      onHeap (Heap.setWriteProtected id true)) st
      (fun _ st' => st'.Rests D ∧ st'.Pristine root ∧
        ∀ done, st.Lists root done → st'.Lists root (done ++ [(name, value)]))
      (fun _ st' => st'.Rests D ∧ st'.Pristine root) := by
  rw [Ensures.bind_iff, onHeap_iff]
  refine (Heap.alloc_iff (p := .numeric value) rfl).mpr ?_
  have hclosed := hp.closed hr.sound
  have ht : Temporary (st.Bound root) st.heap _ _ :=
    Heap.temporary_added (p := .numeric value) hr.sound.heap (fun _ hx => hclosed.live hx) rfl nofun
  have hrecord := hr.sound.heap.forest.var?_added (.temporary (.numeric value))
    (st.heap.fresh (.temporary (.numeric value)))
  rw [if_pos rfl] at hrecord
  generalize st.heap.fresh (.temporary (.numeric value)) = id at ht hrecord ⊢
  generalize st.heap.added (.temporary (.numeric value)) = h at ht hrecord ⊢
  have hs : Sound { st with heap := h } [] := hr.sound.step ht.step
  have hnew : ¬st.Bound root id := hr.unbound (fun ⟨v, hv⟩ => by cases ht.fresh.symm.trans hv) root
  have hloose : Sound ⟨h, st.scopes⟩ [id] :=
    hr.sound.step { ht.step with
      sound := ht.step.sound.loosen (hs.heap.forest.root_of_detached ht.detached) (by simp) }
  have hold : ∀ y, h.Detached y → y = id := fun y hy =>
    (ht.step.detached y hy).resolve_left (hr.settled y)
  have hclosed' : h.Closed (st.Bound root) :=
    hclosed.keeps hr.sound.heap ht.step.sound ht.step.keeps
  rw [Ensures.bind_iff]
  refine (declare_ensures hloose hclosed' hnew ht.detached
    (hs.heap.rules.aimed ht.detached)).mono ?_ ?_
  · rintro _ st₁ hd
    obtain ⟨sc, hsc, hsc₁⟩ := hd.scope
    have hv := hd.record _ hrecord
    have hset : Step (st.Bound root) (fun _ => False) [] st₁.heap
        (st₁.heap.change id fun v => { v with writeProtected := true }) :=
      .change hd.sound.heap.change_protected hnew fun _ => rfl
    rw [onHeap_iff, Heap.setWriteProtected, Heap.update_iff hv]
    have hkeeps := (ht.step.keeps.trans hd.keeps).trans hset.keeps
    have hlast : Heap.var? (st₁.heap.change id fun v => { v with writeProtected := true }) id =
        some { Variable.temporary (.numeric value) with
          leftValue := true, owner := .scope root, writeProtected := true } :=
      (Heap.var?_change _ _).trans (by rw [if_pos rfl, hv]; rfl)
    refine ⟨⟨hd.sound.step hset, fun y hy => ?_, fun {t sc' f} hsc' hin => ?_⟩, fun sc' hsc' => ?_,
      fun done hl => ?_⟩
    · obtain ⟨hy, hne⟩ := hd.detached y ((hset.detached y hy).resolve_right False.elim)
      exact hne (hold y hy)
    · by_cases hts : t = root
      · subst hts
        cases hsc₁.symm.trans hsc'
        exact hr.fit hsc hin
      · exact hr.fit ((hd.others t hts).symm.trans hsc') hin
    · cases hsc₁.symm.trans hsc'
      obtain ⟨hparent, hvars⟩ := hp sc hsc
      refine ⟨hparent, fun b hb => ?_⟩
      rcases List.mem_append.mp hb with hb | hb
      · have hb : st.Bound root b.2 := ⟨sc, b.1, hsc, hb⟩
        exact (hvars b ‹_›).keeps (hkeeps b.2 hb)
      · cases List.mem_singleton.mp hb
        exact ⟨_, value, root, hlast, rfl, rfl, rfl, rfl⟩
    · exact ⟨_, hsc₁, List.rel_append (hl.numbered hkeeps hsc)
        (.cons ⟨rfl, _, hlast, rfl, rfl, rfl⟩ .nil)⟩
  · rintro e st₁ hnot
    have hscopes : ∀ t, st₁.scope? t = st.scope? t := fun t => by rw [scope?, hnot.scopes]
    refine ⟨⟨?_, fun y hy => ?_, fun {t sc' f} hsc' hin => hr.fit (hscopes t ▸ hsc') hin⟩,
      hp.keeps (ht.step.keeps.trans hnot.step.keeps) (hscopes root)⟩
    · have hs' := hs.step hnot.step
      obtain ⟨heap, scopes⟩ := st₁
      cases hnot.scopes
      exact hs'
    · have hy' := (hnot.step.detached y hy).resolve_right False.elim
      exact hnot.detached (hold y hy' ▸ hy)

private theorem addFunction_rests {f : Function} (hr : st.Rests D) (hp : st.Pristine root)
    (hf : f.Fit D) :
    Ensures (addFunction root f) st
      (fun _ st' => st'.Rests D ∧ st'.Pristine root ∧
        ∀ constants, st.Lists root constants → st'.Lists root constants)
      (fun _ st' => st'.Rests D ∧ st'.Pristine root) := by
  refine (addFunction_ensures hr.sound).mono ?_ ?_
  · rintro _ st' ⟨hs, hheap, ⟨sc, hsc, hsc'⟩, hothers⟩
    have hkeeps : Heap.Keeps (st.Bound root) st.heap st'.heap := by
      rw [hheap]
      exact .refl
    refine ⟨⟨hs, by rw [hheap]; exact hr.settled, fun {t sc' g} ht hin => ?_⟩, fun sc' ht => ?_,
      fun constants hl => ?_⟩
    · by_cases hts : t = root
      · subst hts
        cases hsc'.symm.trans ht
        rcases List.mem_append.mp hin with hin | hin
        · exact hr.fit hsc hin
        · cases List.mem_singleton.mp hin
          exact hf
      · exact hr.fit ((hothers t hts).symm.trans ht) hin
    · cases hsc'.symm.trans ht
      exact ⟨(hp sc hsc).1, fun b hb => ((hp sc hsc).2 b hb).keeps (by rw [hheap])⟩
    · have hall := hl.numbered hkeeps hsc
      exact ⟨_, hsc', hall⟩
  · rintro e st' ⟨rfl, -⟩
    exact ⟨hr, hp⟩

-- The library has been declared, as far as it goes.
theorem install_ensures (hr : st.Rests D) (hp : st.Pristine root) :
    Ensures (Machine.install root) st
      (fun _ st' => st'.Rests D ∧ st'.Pristine root ∧
        (st.Lists root [] → st'.Lists root Library.constants))
      (fun _ st' => st'.Rests D ∧ st'.Pristine root) := by
  rw [Machine.install, Ensures.bind_iff]
  -- The constants that are bound, and those that are still to come.
  let I : List (String × Float) → Store → Prop := fun rest st' =>
    st'.Rests D ∧ st'.Pristine root ∧
      ∃ done, Library.constants = done ++ rest ∧ (st.Lists root [] → st'.Lists root done)
  refine (Ensures.forM I ?_ _ _ ⟨hr, hp, [], rfl, id⟩).mono ?_ fun _ _ he => he
  · rintro ⟨name, value⟩ rest st₁ ⟨hr₁, hp₁, done, hdone, hl₁⟩
    refine (constant_ensures hr₁ hp₁ value).mono ?_ fun _ _ he => he
    rintro _ st₂ ⟨hr₂, hp₂, hl₂⟩
    exact ⟨hr₂, hp₂, done ++ [(name, value)], by simp [hdone], fun hl => hl₂ done (hl₁ hl)⟩
  · rintro _ st₁ ⟨hr₁, hp₁, done, hdone, hl₁⟩
    rw [List.append_nil] at hdone
    subst hdone
    refine (Ensures.forM (fun rest st' => (∀ f ∈ rest, f.Fit D) ∧ st'.Rests D ∧
      st'.Pristine root ∧ (st.Lists root [] → st'.Lists root Library.constants)) ?_ _ _
      ⟨Library.fit_functions D, hr₁, hp₁, hl₁⟩).mono (fun _ _ hq => hq.2)
      fun _ _ he => he
    rintro f rest st₂ ⟨hfit, hr₂, hp₂, hl₂⟩
    refine (addFunction_rests hr₂ hp₂ (hfit f (List.mem_cons_self ..))).mono ?_ fun _ _ he => he
    rintro _ st₃ ⟨hr₃, hp₃, hl₃⟩
    exact ⟨fun g hg => hfit g (List.mem_cons_of_mem _ hg), hr₃, hp₃, fun hl => hl₃ _ (hl₂ hl)⟩

end Store

namespace Machine

variable {D : Discipline}

-- A store with nothing but an empty scope.
private theorem rests_createScope {name : String} {root : ScopeId} {st : Store}
    (h : (Store.createScope name none).run Store.empty = (root, st)) :
    st.Rests D ∧ st.Pristine root := by
  cases h
  have hscope : ∀ {s sc}, Store.scope? ((Store.createScope name none).run Store.empty).2 s =
      some sc → sc.vars = [] ∧ sc.funcs = [] ∧ sc.parent = none := by
    intro s sc hsc
    by_cases hs : s = ((Store.createScope name none).run Store.empty).1
    · subst hs
      cases (Arena.get?_insert_self Arena.sound_empty _).symm.trans hsc
      exact ⟨rfl, rfl, rfl⟩
    · cases (Arena.get?_insert_of_ne Arena.sound_empty _ hs).symm.trans hsc
  have hnone : ∀ {x o}, ¬Heap.empty.OwnedBy x o := by
    rintro x o ⟨v, hv, -⟩
    cases hv
  refine ⟨⟨⟨Heap.sound_empty, Arena.sound_insert Arena.sound_empty _, ?_, fun hx => ?_⟩,
    fun x => hnone, ?_⟩, ?_⟩
  · intro s sc name x hsc hin
    rw [(hscope hsc).1] at hin
    cases hin
  · exact absurd hx hnone
  · intro s sc f hsc hin
    rw [(hscope hsc).2.1] at hin
    cases hin
  · intro sc hsc
    rw [(hscope hsc).1]
    exact ⟨(hscope hsc).2.2, nofun⟩

theorem rests_ofConfig (D : Discipline) (config : Config) :
    (ofConfig config).store.Rests D ∧ (ofConfig config).store.Pristine (ofConfig config).root := by
  unfold ofConfig
  rcases hbase : (Store.createScope "root" none).run Store.empty with ⟨root, st⟩
  obtain ⟨hr, hp⟩ := rests_createScope (D := D) hbase
  have h := Store.install_ensures hr hp
  unfold Ensures at h
  rcases hrun : (install root).run.run st with ⟨_ | _, st'⟩ <;> rw [hrun] at h <;>
    simp only [hrun]
  · exact h
  · exact ⟨h.1, h.2.1⟩

-- The library is installed whole, and in the one scope there is.
theorem installed : ((install ((Store.createScope "root" none).run Store.empty).1).run.run
      ((Store.createScope "root" none).run Store.empty).2).1.isOk = true ∧
    (ofConfig {}).store.scopes.arena.handles = [(ofConfig {}).root] := by
  decide +kernel

-- Nothing of the library is missing.
theorem lists_ofConfig (config : Config) :
    (ofConfig config).store.Lists (ofConfig config).root Library.constants := by
  have hlive : ((Store.createScope "root" none).run Store.empty).2.scopes.arena.contains
      ((Store.createScope "root" none).run Store.empty).1 = true := by decide
  have hok := installed.1
  unfold ofConfig
  rcases hbase : (Store.createScope "root" none).run Store.empty with ⟨root, st⟩
  rw [hbase] at hlive hok
  obtain ⟨hr, hp⟩ := rests_createScope (D := .free) hbase
  obtain ⟨sc, hsc⟩ := Arena.contains_iff.mp hlive
  have hempty : st.Lists root [] := by
    have hvars : sc.vars = [] := by
      cases hbase
      cases (Arena.get?_insert_self Arena.sound_empty _).symm.trans hsc
      rfl
    exact ⟨sc, hsc, hvars ▸ .nil⟩
  have h := Store.install_ensures hr hp
  unfold Ensures at h
  rcases hrun : (install root).run.run st with ⟨_ | _, st'⟩
  · rw [hrun] at hok
    cases hok
  · rw [hrun] at h
    simp only [hrun]
    exact h.2.2 hempty

theorem ofConfig_eq (config : Config) :
    ofConfig config = { ofConfig {} with config := config } := by
  unfold ofConfig
  rcases (Store.createScope "root" none).run Store.empty with ⟨root, st⟩
  rcases (install root).run.run st with ⟨_, _⟩
  rfl

theorem depth_ofConfig (config : Config) :
    (ofConfig config).depth = 0 ∧ (ofConfig config).config = config := by
  unfold ofConfig
  rcases (Store.createScope "root" none).run Store.empty with ⟨root, st⟩
  rcases (install root).run.run st with ⟨_, _⟩
  exact ⟨rfl, rfl⟩

theorem live_root_ofConfig (config : Config) :
    ∃ sc, (ofConfig config).store.scope? (ofConfig config).root = some sc := by
  have h : (ofConfig {}).root ∈ (ofConfig {}).store.scopes.arena.handles := by
    rw [installed.2]
    exact List.mem_singleton_self _
  rw [ofConfig_eq]
  generalize ofConfig {} = m at h ⊢
  exact Arena.mem_handles.mp h

end Machine

end FinLang

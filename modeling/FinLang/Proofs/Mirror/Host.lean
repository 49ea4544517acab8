import FinLang.Proofs.Machine.Host
import FinLang.Proofs.Mirror.Program
import FinLang.Proofs.Mirror.Rearranged

namespace FinLang

-- Soundness is a matter of what is seen through handles.
theorem Store.Sound.congr {st st' : Store} {loose : List VarId} (hs : st.Sound loose)
    (hr : st.Rearranged st') : st'.Sound loose where
  heap := hs.heap.congr hr.heap.sound' hr.heap.get?
  scopes := hr.scopes.sound'
  bound hsc hin := by
    obtain ⟨v, hv, ho⟩ := hs.bound ((hr.scopes.get? _).symm.trans hsc) hin
    exact ⟨v, (hr.heap.get? _).trans hv, ho⟩
  owned := by
    rintro x s ⟨v, hv, ho⟩
    obtain ⟨sc, name, hsc, hin⟩ := hs.owned ⟨v, (hr.heap.get? _).symm.trans hv, ho⟩
    exact ⟨sc, name, (hr.scopes.get? _).trans hsc, hin⟩

theorem Store.Rests.congr {D : Discipline} {st st' : Store} (hs : st.Rests D)
    (hr : st.Rearranged st') : st'.Rests D where
  sound := hs.sound.congr hr
  settled := by
    rintro x ⟨v, hv, ho⟩
    exact hs.settled x ⟨v, (hr.heap.get? x).symm.trans hv, ho⟩
  fit hsc hin := hs.fit ((hr.scopes.get? _).symm.trans hsc) hin

theorem Store.Pristine.congr {st st' : Store} {root : ScopeId} (hp : st.Pristine root)
    (hr : st.Rearranged st') : st'.Pristine root :=
  hp.keeps (fun x _ => hr.heap.get? x) (hr.scopes.get? root)

theorem Arena.Rearranged.trans {k : HandleKind} {α : Type} {a b c : Arena k α} (h : a.Rearranged b)
    (h' : b.Rearranged c) : a.Rearranged c :=
  ⟨h.sound, h'.sound', fun x => (h'.get? x).trans (h.get? x)⟩

theorem Arena.Rearranged.symm {k : HandleKind} {α : Type} {a b : Arena k α} (h : a.Rearranged b) :
    b.Rearranged a :=
  ⟨h.sound', h.sound, fun x => (h.get? x).symm⟩

theorem Store.Rearranged.trans {st st' st'' : Store} (h : st.Rearranged st')
    (h' : st'.Rearranged st'') : st.Rearranged st'' :=
  ⟨h.heap.trans h'.heap, h.scopes.trans h'.scopes⟩

theorem Store.Rearranged.symm {st st' : Store} (h : st.Rearranged st') : st'.Rearranged st :=
  ⟨h.heap.symm, h.scopes.symm⟩

namespace Machine

variable {m m' : Machine} {config : Config} {fuel : Nat} {source : String}

-- A machine behind any number of programs, each of which has ended. In which
-- order the bindings of the scopes were freed on the way shows in the order of
-- the slots that are not in use, and in nothing else; so it may be any order.
inductive Aged (config : Config) : Machine → Prop
  | fresh : Aged config (ofConfig config)
  | run {m m' : Machine} {fuel : Nat} {source : String} :
      Aged config m → m.after? fuel (.run source) = some m' → Aged config m'
  | rearranged {m : Machine} {store : Store} :
      Aged config m → m.store.Rearranged store → Aged config { m with store }

-- A machine in which nothing but the order of its slots and what it has printed
-- differs from a new one.
structure Restored (config : Config) (m : Machine) : Prop where
  store : (ofConfig config).store.Rearranged m.store
  root : m.root = (ofConfig config).root
  depth : m.depth = 0
  config : m.config = config

namespace Restored

theorem fresh : Restored config (ofConfig config) where
  store :=
    have hs := (rests_ofConfig .free config).1.sound
    ⟨⟨hs.heap.forest.arena, hs.heap.forest.arena, fun _ => rfl⟩, ⟨hs.scopes, hs.scopes, fun _ => rfl⟩⟩
  root := rfl
  depth := (depth_ofConfig config).1
  config := (depth_ofConfig config).2

variable (h : Restored config m)
include h

theorem rests : m.store.Rests .free ∧ m.store.Pristine m.root := by
  obtain ⟨hr, hp⟩ := rests_ofConfig .free config
  rw [h.root]
  exact ⟨hr.congr h.store, hp.congr h.store⟩

-- A program leaves everything as it was.
theorem run (hm : m.after? fuel (.run source) = some m') : Restored config m' := by
  obtain ⟨hr, hp⟩ := h.rests
  obtain ⟨hvar, hscope, hroot, hdepth, hconfig⟩ := run_restores hr hp hm
  have hs := (run_rests hr hm).sound
  exact {
    store := h.store.trans ⟨⟨h.store.heap.sound', hs.heap.forest.arena, hvar⟩,
      ⟨h.store.scopes.sound', hs.scopes, hscope⟩⟩
    root := hroot.trans h.root
    depth := hdepth.trans h.depth
    config := hconfig.trans h.config }

end Restored

theorem Aged.restored (h : Aged config m) : Restored config m := by
  induction h with
  | fresh => exact .fresh
  | run _ hm ih => exact ih.run hm
  | rearranged _ hs ih => exact { ih with store := ih.store.trans hs }

-- The one scope of a new machine is the outermost one.
theorem scope_ofConfig {s : ScopeId} {sc : Scope} (hsc : (ofConfig config).store.scope? s = some sc) :
    s = (ofConfig config).root := by
  have hin : s ∈ (ofConfig {}).store.scopes.arena.handles := by
    refine Arena.mem_handles.mpr ⟨sc, ?_⟩
    rw [ofConfig_eq] at hsc
    generalize ofConfig {} = m at hsc ⊢
    exact hsc
  rw [installed.2, List.mem_singleton] at hin
  rw [hin, ofConfig_eq config]

namespace Restored

variable {s : ScopeId} {sc : Scope} {x : VarId} {ρ : Renaming}

theorem scope (h : Restored config m) (hsc : m.store.scope? s = some sc) :
    s = m.root ∧ sc.parent = none := by
  obtain rfl : s = m.root := by
    rw [h.root]
    exact scope_ofConfig ((h.store.scopes.get? s).symm.trans hsc)
  exact ⟨rfl, (h.rests.2 sc hsc).1⟩

theorem nested (h : Restored config m) : m.store.scopes.Nested :=
  fun _ _ hsc => ⟨0, .outermost hsc (h.scope hsc).2⟩

-- Its variables are constants.
theorem constant (h : Restored config m) (hx : m.store.heap.Live x) : m.store.Constant x := by
  obtain ⟨hr, hp⟩ := h.rests
  obtain ⟨s, top, ⟨sc, name, hsc, hin⟩, hb⟩ := hr.reached hx
  obtain ⟨rfl, -⟩ := h.scope hsc
  obtain ⟨sc', name', hsc', hin'⟩ := ((hp.closed hr.sound).below hb).mpr ⟨sc, name, hsc, hin⟩
  exact (hp sc' hsc').2 _ hin'

-- A renaming that leaves alone what is there does not show in it.
theorem rename_scope (h : Restored config m) (hρ : ∀ y v, m.store.heap.var? y = some v → ρ y = y)
    (hsc : m.store.scope? s = some sc) : sc.rename ρ = sc := by
  have hparent : sc.parent.map ρ.handle = sc.parent := by rw [(h.scope hsc).2]; rfl
  have hvars : sc.vars.map (fun b => (b.1, ρ b.2)) = sc.vars := by
    refine (List.map_congr_left fun b hb => ?_).trans (List.map_id _)
    obtain ⟨v, hv, -⟩ := h.rests.1.sound.bound hsc hb
    rw [hρ _ v hv]
    rfl
  rw [Scope.rename, hvars, hparent]

theorem rename_variable (h : Restored config m) (hρ : ∀ s sc, m.store.scope? s = some sc → ρ s = s)
    {v : Variable} (hv : m.store.heap.var? x = some v) : v.rename ρ = v := by
  obtain ⟨w, n, s, hw, hp, ho, -, hl⟩ := h.constant ⟨v, hv⟩
  cases hv.symm.trans hw
  obtain ⟨sc, -, hsc, -⟩ := h.rests.1.sound.owned ⟨v, hv, ho⟩
  have hpayload : v.payload.rename ρ = v.payload := by rw [hp]; rfl
  have howner : v.owner.rename ρ = v.owner := by rw [ho, Owner.rename, hρ s sc hsc]
  have hlinks : v.linkedBy.map ρ.handle = v.linkedBy := by rw [hl]; rfl
  rw [Variable.rename, hpayload, howner, hlinks]

end Restored

-- Two machines that are as good as new are twins.
theorem Restored.exists_twins (h : Restored config m) (h' : Restored config m') :
    ∃ ρ, Run.Twins ρ m m' m.idle m'.idle := by
  have hr : m.store.Rearranged m'.store := h.store.symm.trans h'.store
  obtain ⟨ρ, hvars, hscopes, hheap, hmirror⟩ := Arena.Rearranged.exists_renaming hr.heap hr.scopes
  have hroot : m'.root = ρ m.root := by
    obtain ⟨sc, hsc⟩ := live_root_ofConfig config
    rw [h'.root, ← h.root, hscopes m.root sc]
    rw [h.root]
    exact (h.store.scopes.get? _).trans hsc
  have hfine : m.idle.Fine := ⟨h.rests.1.sound, by rw [h.depth]; exact Nat.zero_le _⟩
  have hfine' : m'.idle.Fine := ⟨h'.rests.1.sound, by rw [h'.depth]; exact Nat.zero_le _⟩
  exact ⟨ρ, {
    store := ⟨hheap _ fun _ _ hv => h.rename_variable hscopes hv,
      hmirror _ fun _ _ hsc => h.rename_scope hvars hsc⟩
    root := hroot
    config := h'.config.trans h.config.symm
    depth := h'.depth.trans h.depth.symm
    flow := rfl
    last := rfl
    printed := ⟨#[], #[], by simp [Printed], by simp [Printed]⟩
    fine := hfine
    fine' := hfine'
    nested := h.nested }⟩

example : ((ofConfig {}).run 9 (Tree.parse "print([1]);")).2.output = #["[1]"] := by decide +kernel

end Machine

end FinLang

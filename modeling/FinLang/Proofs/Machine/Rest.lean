import FinLang.Proofs.Machine.Grammar
import FinLang.Proofs.Machine.Program

namespace FinLang

-- Parsed sources can be run.
theorem Discipline.parsed_runs {source : String} {admits : Cause → Prop}
    (h : Tolerant (fun _ => True) admits)
    (hclean : (Tree.parse source).hasErrors = false ∨ ∀ n, admits (.treeErrors n)) :
    Interpreter.Runs (.parsed (fun _ => True) admits h) (Tree.parse source) where
  clean := hclean
  program hfine := by
    obtain ⟨body, hroot, -⟩ := Tree.parse_statements hfine
    rw [hroot]
  statements hfine := by
    obtain ⟨body, hroot, hbody⟩ := Tree.parse_statements hfine
    rw [hroot]
    exact fun n hn => .inl (hbody n hn)

-- Every failure is admitted, and a `var` may stand anywhere in a group.
def Discipline.free : Discipline :=
  .parsed (fun _ => True) (fun _ => True)
    ⟨fun _ => trivial, fun _ => trivial, fun _ => trivial, fun _ => trivial⟩

theorem Discipline.free_loose : Discipline.free.Loose :=
  fun _ => trivial

theorem Discipline.free_runs (source : String) : Interpreter.Runs .free (Tree.parse source) :=
  parsed_runs _ (.inr fun _ => trivial)

namespace Store

-- A store between programs: all that lives in it has a place in some scope.
structure Rests (D : Discipline) (st : Store) : Prop where
  sound : st.Sound []
  settled : ∀ x, ¬st.heap.Detached x
  fit : ∀ {s sc f}, st.scope? s = some sc → f ∈ sc.funcs → f.Fit D

-- A number that cannot be written to and that no link points to.
def Constant (st : Store) (x : VarId) : Prop :=
  ∃ v n s, st.heap.var? x = some v ∧ v.payload = .numeric n ∧ v.owner = .scope s ∧
    v.writeProtected = true ∧ v.linkedBy = []

def Bound (st : Store) (s : ScopeId) (x : VarId) : Prop :=
  ∃ sc name, st.scope? s = some sc ∧ (name, x) ∈ sc.vars

-- The outermost scope has constants only.
def Pristine (st : Store) (root : ScopeId) : Prop :=
  ∀ sc, st.scope? root = some sc → sc.parent = none ∧ ∀ b ∈ sc.vars, st.Constant b.2

variable {D : Discipline} {st st' : Store} {s root : ScopeId} {x : VarId}

theorem Constant.frozen (h : st.Constant x) : st.heap.Frozen x := by
  obtain ⟨v, n, s, hv, hp, ho, hw, -⟩ := h
  exact ⟨v, hv, hw, ⟨s, ho⟩, n, hp⟩

theorem Rests.reached (hr : st.Rests D) (hx : st.heap.Live x) :
    ∃ s top, st.Bound s top ∧ st.heap.Below top x := by
  obtain ⟨top, htop, hb⟩ := hr.sound.heap.forest.exists_root hx
  obtain ⟨v, hv⟩ := htop.1
  cases ho : v.owner with
  | detached => exact absurd ⟨v, hv, ho⟩ (hr.settled top)
  | scope s =>
    obtain ⟨sc, name, hsc, hin⟩ := hr.sound.owned ⟨v, hv, ho⟩
    exact ⟨s, top, ⟨sc, name, hsc, hin⟩, hb⟩
  | array p =>
    rcases hr.sound.heap.forest.listed hv ho with h | h
    · cases h
    · exact absurd h (htop.2 p)

section Scopes

theorem Rests.created {parent : ScopeId} (hr : st.Rests D) (hc : Created st parent s st') :
    st'.Rests D := by
  obtain ⟨new, -, hfuncs, -, hnew⟩ := hc.scope
  refine ⟨hc.sound, by rw [hc.heap]; exact hr.settled, fun {t sc f} hsc hin => ?_⟩
  by_cases ht : t = s
  · subst ht
    cases hnew.symm.trans hsc
    rw [hfuncs] at hin
    cases hin
  · exact hr.fit ((hc.others t ht).symm.trans hsc) hin

theorem Rests.destroyed (hr : st.Rests D) (hd : Destroyed st s st') : st'.Rests D := by
  obtain ⟨G, hf, -⟩ := hd.freed
  refine ⟨hd.sound, ?_, fun {t sc f} hsc hin => ?_⟩
  · rintro x ⟨w, hw, ho⟩
    obtain ⟨-, v, hv, rfl⟩ := hf.of_some hw
    exact hr.settled x ⟨v, hv, ho⟩
  · rw [hd.scope] at hsc
    split at hsc
    · cases hsc
    · exact hr.fit hsc hin

theorem Constant.keeps (hx : st.Constant x) (hk : st'.heap.var? x = st.heap.var? x) :
    st'.Constant x := by
  obtain ⟨v, n, s, hv, hrest⟩ := hx
  exact ⟨v, n, s, hk.trans hv, hrest⟩

-- Nothing hangs together with a constant.
theorem Pristine.closed (hp : st.Pristine root) (hs : st.Sound []) :
    st.heap.Closed (st.Bound root) where
  live := by
    rintro x ⟨sc, name, hsc, hin⟩
    exact ((hp sc hsc).2 _ hin).frozen.live
  element := by
    rintro p c hl
    constructor
    · rintro ⟨sc, name, hsc, hin⟩
      obtain ⟨v, _, s, hv, -, ho, -⟩ := (hp sc hsc).2 _ hin
      exact absurd hl ((hs.heap.forest.root_of_owner hv (by simp [ho])).2 p)
    · rintro ⟨sc, name, hsc, hin⟩
      obtain ⟨v, _, _, hv, hpay, -⟩ := (hp sc hsc).2 _ hin
      obtain ⟨w, hw, hc⟩ := hl
      cases hv.symm.trans hw
      simp [hpay, Payload.elements] at hc
  link := by
    rintro l v t hv ht
    constructor
    · rintro ⟨sc, name, hsc, hin⟩
      obtain ⟨w, _, _, hw, hpay, -⟩ := (hp sc hsc).2 _ hin
      cases hv.symm.trans hw
      cases ht.symm.trans hpay
    · rintro ⟨sc, name, hsc, hin⟩
      obtain ⟨w, _, _, hw, -, -, -, hby⟩ := (hp sc hsc).2 _ hin
      obtain ⟨u, hu, hl, -⟩ := hs.heap.linked.link hv ht
      cases hw.symm.trans hu
      simp [hby] at hl

theorem Pristine.keeps (hp : st.Pristine root)
    (hk : Heap.Keeps (st.Bound root) st.heap st'.heap)
    (hsc : st'.scope? root = st.scope? root) : st'.Pristine root := by
  intro sc hsc'
  have hsc' := hsc.symm.trans hsc'
  obtain ⟨hparent, hvars⟩ := hp sc hsc'
  exact ⟨hparent, fun b hb => (hvars b hb).keeps (hk b.2 ⟨sc, b.1, hsc', hb⟩)⟩

theorem Pristine.created {parent : ScopeId} (hp : st.Pristine root) (hc : Created st parent s st')
    (hlive : ∃ sc, st.scope? root = some sc) : st'.Pristine root := by
  refine hp.keeps (by rw [hc.heap]; exact .refl) (hc.others root ?_)
  rintro rfl
  obtain ⟨sc, hsc⟩ := hlive
  cases hc.fresh.symm.trans hsc

theorem Pristine.destroyed (hp : st.Pristine root) (hs : st.Sound []) (hd : Destroyed st s st') :
    st'.Pristine root := by
  by_cases hroot : root = s
  · intro sc hsc
    rw [hd.scope, if_pos hroot] at hsc
    cases hsc
  obtain ⟨G, hf, hG⟩ := hd.freed
  refine hp.keeps (hf.keeps (hp.closed hs) hs.heap.linked ?_) (by rw [hd.scope, if_neg hroot])
  -- A constant lies in nothing but itself, which the other scope does not own.
  rintro x hg ⟨sc, name, hsc, hin⟩
  obtain ⟨top, htop, hb⟩ := hG x hg
  obtain ⟨v, hv, ho⟩ := hs.bound hsc hin
  cases hb.eq_of_root (hs.heap.forest.root_of_owner hv (by simp [ho])).2
  rw [Heap.ownedBy_iff hv, ho] at htop
  exact hroot (Owner.scope.inj htop)

end Scopes

end Store

variable {D : Discipline} {r : Run} {root scope : ScopeId}

-- At rest a program may start in any scope.
theorem Store.Rests.state (hr : r.store.Rests D)
    (hlive : (∃ sc, r.scope? scope = some sc) ∨ ∀ s, D.admits (.staleScope s)) :
    State D (fun _ => True) (fun _ => False) [] scope r where
  sound := hr.sound
  closed := ⟨False.elim, fun _ => .rfl, fun _ _ => .rfl⟩
  detached y hy := absurd hy (hr.settled y)
  safe := by simp
  reach := ⟨fun _ _ _ => trivial, fun _ _ _ => False.elim, fun _ hsc hin => hr.fit hsc hin⟩
  here := trivial
  live := hlive

-- With no temporary left the store is at rest again.
theorem Store.Rests.of_state (hst : State D (fun _ => True) (fun _ => False) [] scope r) :
    r.store.Rests D where
  sound := hst.sound
  settled y hy := by simpa using hst.detached y hy
  fit hsc hin := hst.reach.fit trivial hsc hin

-- Next to a pristine scope a program may start that leaves alone all there is,
theorem Store.Pristine.state_in (hp : r.store.Pristine root) (hr : r.store.Rests D)
    (hlive : (∃ sc, r.scope? root = some sc) ∨ ∀ s, D.admits (.staleScope s)) :
    State D (· = root) r.heap.Live [] root r where
  sound := hr.sound
  closed := by
    refine ⟨id, fun {p c} hl => ⟨fun _ => hl.live, fun _ => ?_⟩, fun {l v t} hv ht =>
      ⟨fun _ => ?_, fun _ => ⟨v, hv⟩⟩⟩
    · obtain ⟨w, hw, -⟩ := hr.sound.heap.forest.element hl
      exact ⟨w, hw⟩
    · obtain ⟨w, hw, -⟩ := hr.sound.heap.linked.link hv ht
      exact ⟨w, hw⟩
  detached y hy := absurd hy (hr.settled y)
  safe := by simp
  reach := by
    refine ⟨fun {s sc p} hs hsc hpar => ?_, fun {s sc name x} hs hsc hin _ => ?_,
      fun _ hsc hin => hr.fit hsc hin⟩
    · subst hs
      rw [(hp sc hsc).1] at hpar
      cases hpar
    · subst hs
      exact ((hp sc hsc).2 _ hin).frozen
  here := rfl
  live := hlive

-- and elsewhere one that leaves the constants alone.
theorem Store.Pristine.state_beside (hp : r.store.Pristine root) (hr : r.store.Rests D)
    (hlive : (∃ sc, r.scope? scope = some sc) ∨ ∀ s, D.admits (.staleScope s)) :
    State D (fun _ => True) (r.store.Bound root) [] scope r where
  sound := hr.sound
  closed := hp.closed hr.sound
  detached y hy := absurd hy (hr.settled y)
  safe := by simp
  reach := by
    refine ⟨fun _ _ _ => trivial, fun {s sc name x} _ _ _ => ?_, fun _ hsc hin => hr.fit hsc hin⟩
    rintro ⟨sc', name', hsc', hin'⟩
    exact ((hp sc' hsc').2 _ hin').frozen
  here := trivial
  live := hlive

end FinLang

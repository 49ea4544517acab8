import FinLang.Proofs.Machine.State

namespace FinLang

open Heap (Safe Keeps Step Stays)

-- A part has been carried out that leaves the flow alone.
structure Moved (D : Discipline) (A : ScopeId → Prop) (K : VarId → Prop) (P : ScopeId → Prop)
    (xs : List VarId) (scope : ScopeId) (r r' : Run) : Prop where
  frame : Frame K P r r'
  state : State D A K xs scope r'
  flow : r'.flow = r.flow

-- A scope has got one more name.
def Run.Binds (r : Run) (scope : ScopeId) (name : String) (r' : Run) : Prop :=
  ∃ sc x, r.scope? scope = some sc ∧
    r'.scope? scope = some { sc with vars := sc.vars ++ [(name, x)] }

variable {α : Type} {D : Discipline} {A : ScopeId → Prop} {K : VarId → Prop}
  {P : ScopeId → Prop} {xs ys : List VarId} {scope s : ScopeId} {r r' : Run} {x : VarId}
  {h : Heap} {st : Store} {E : Halt → Run → Prop} {name : String}

theorem FailPost.trans {e : Halt} {r'' : Run} (hf : Frame K P r r')
    (he : FailPost D A K P xs scope r' e r'') : FailPost D A K P xs scope r e r'' := by
  cases e with
  | outOfFuel => trivial
  | failure f => exact ⟨hf.trans he.1, he.2⟩

theorem FailPost.some_scope {e : Halt} (he : FailPost D A K noScope xs scope r e r') :
    FailPost D A K P xs scope r e r' := by
  cases e with
  | outOfFuel => trivial
  | failure f => exact ⟨he.1.some_scope, he.2⟩

-- A failure that has changed nothing.
theorem FailPost.refl {f : Failure} (hst : State D A K xs scope r) (hflow : r.flow.result = none)
    (hc : D.admits f.cause) : FailPost D A K P xs scope r (.failure f) r :=
  ⟨.refl, hst, hflow, hc⟩

namespace State

theorem not_detached (hst : State D A K xs scope r) (hx : x ∈ xs) (hd : r.heap.Detached x) :
    ¬K x :=
  fun hk => (hst.safe x hx hk).not_detached hd

-- The same machine, seen from another scope.
theorem move (hst : State D A K xs scope r) (ha : A s) (hl : ∃ sc, r.scope? s = some sc) :
    State D A K xs s r :=
  { hst with
    here := ha
    live := .inl hl }

end State

-- A search comes upon scopes that can be reached.
theorem Reach.search {f : ScopeId → Scope → Option α} {a : α} (hr : Reach D A K st) (ha : A s)
    (hf : st.scopes.search f s = some a) : ∃ t sc, A t ∧ st.scope? t = some sc ∧ f t sc = some a := by
  unfold Scopes.search at hf
  generalize st.scopes.arena.slots.size + 1 = n at hf
  induction n generalizing s with
  | zero => cases hf
  | succ n ih =>
    unfold Scopes.searchWithin at hf
    split at hf
    · cases hf
    · rename_i sc hsc
      split at hf
      · rename_i found hfound
        cases hf
        exact ⟨s, sc, ha, hsc, hfound⟩
      · obtain ⟨p, hp, hf⟩ := Option.bind_eq_some_iff.mp hf
        exact ih (hr.parent ha hsc hp) hf

-- What a scope binds is a left-value.
theorem Store.Sound.held {sc : Scope} (hs : st.Sound []) (hsc : st.scope? s = some sc)
    (hin : (name, x) ∈ sc.vars) : st.heap.Held x := by
  obtain ⟨v, hv, ho⟩ := hs.bound hsc hin
  exact ⟨v, hv, .inr (hs.heap.rules.bound hv (by simp) ho)⟩

theorem mem_of_lookup {β : Type} {l : List (String × β)} {b : β} (hl : l.lookup name = some b) :
    (name, b) ∈ l := by
  obtain ⟨l₁, l₂, rfl, -⟩ := List.lookup_eq_some_iff.mp hl
  simp

namespace State

theorem findVariable (hst : State D A K xs scope r)
    (hf : r.machine.store.scopes.findVariable scope name = some x) :
    State D A K (x :: xs) scope r ∧ r.heap.Held x := by
  obtain ⟨s, sc, ha, hsc, hx⟩ := hst.reach.search hst.here hf
  have hin := mem_of_lookup hx
  refine ⟨hst.relist (fun y hy _ => List.mem_cons_of_mem _ hy) fun y hy => ?_,
    hst.sound.held hsc hin⟩
  rcases List.mem_cons.mp hy with rfl | hy
  · exact hst.reach.safe ha hsc hin
  · exact hst.safe y hy

theorem findFunction {f : Function} (hst : State D A K xs scope r)
    (hf : r.machine.store.scopes.findFunction scope name = some f) : f.Fit D := by
  obtain ⟨s, sc, ha, hsc, hx⟩ := hst.reach.search hst.here hf
  exact hst.reach.fit ha hsc (List.mem_of_find?_eq_some hx)

end State

namespace State

-- One scope gets another function, which fits, or learns whose call it is.
theorem rescope (hst : State D A K xs scope r) (hs : st.Sound []) (hheap : st.heap = r.heap)
    {sc sc' : Scope} (hsc : r.scope? s = some sc) (hsc' : st.scope? s = some sc')
    (hparent : sc'.parent = sc.parent) (hvars : sc'.vars = sc.vars)
    (hfuncs : ∀ f ∈ sc'.funcs, f ∈ sc.funcs ∨ f.Fit D)
    (hothers : ∀ t, t ≠ s → st.scope? t = r.scope? t) :
    Moved D A K (· = s) xs scope r (r.withStore st) := by
  have hkeeps : ∀ {J : VarId → Prop}, Keeps J r.heap st.heap := by
    intro J
    rw [hheap]
    exact .refl
  have hlasting : ∀ {t old}, r.scope? t = some old → ∃ sc', st.scope? t = some sc' := by
    intro t old ht
    by_cases hts : t = s
    · exact hts ▸ ⟨_, hsc'⟩
    · exact ⟨old, (hothers t hts).trans ht⟩
  refine ⟨⟨hkeeps, hothers, hlasting, rfl, rfl, rfl, rfl⟩, ⟨hs, ?_, fun y hy => ?_, fun y hy => ?_,
    ?_, hst.here, ?_⟩, rfl⟩
  · exact hst.closed.keeps hst.sound.heap hs.heap hkeeps
  · exact hst.detached y (hheap ▸ hy)
  · exact (hst.safe y hy).of_keeps hkeeps
  · refine hst.reach.later hkeeps fun {t new} ht => ?_
    by_cases hts : t = s
    · subst hts
      cases hsc'.symm.trans ht
      exact ⟨sc, hsc, hparent, fun b hb => .inl (hvars ▸ hb), hfuncs⟩
    · exact ⟨new, (hothers t hts).symm.trans ht, rfl, fun _ => .inl, fun _ => .inl⟩
  · exact hst.live.imp_left fun ⟨_, h⟩ => hlasting h

end State

namespace Exec

theorem release_ensures (hst : State D A K (x :: xs) scope r) :
    Ensures (release x) r
      (fun _ r' => Moved D A K P xs scope r r' ∧
        ∀ y, r.heap.Held y → y ≠ x → Stays r.heap r'.heap y) E := by
  rw [release, onHeap_iff]
  refine (Heap.release_ensures hst.sound.heap hst.closed
    (hst.not_detached (List.mem_cons_self ..))).mono ?_ fun _ _ he => he
  rintro _ h ⟨hstep, hnd, hheld⟩
  exact ⟨⟨.of_step hstep, (hst.step_same hstep).drop hnd, rfl⟩, hheld⟩

-- Letting go of what may be there.
theorem release_option {last : Option VarId} (hst : State D A K (last.toList ++ xs) scope r) :
    Ensures (last.forM release) r
      (fun _ r' => Moved D A K P xs scope r r' ∧
        ∀ y, r.heap.Held y → y ∉ last → Stays r.heap r'.heap y) E := by
  cases last with
  | none => exact ⟨⟨.refl, hst, rfl⟩, fun _ _ _ => .refl⟩
  | some x =>
    refine (release_ensures hst).mono (fun _ r' hq => ⟨hq.1, fun y hy hne => ?_⟩) fun _ _ he => he
    exact hq.2 y hy fun he => hne (he ▸ rfl)

theorem releaseAll_ensures (ids : List VarId) (hst : State D A K (ids ++ xs) scope r) :
    Ensures (onHeap (Heap.releaseAll ids)) r
      (fun _ r' => Moved D A K P xs scope r r' ∧
        ∀ y, r.heap.Held y → y ∉ ids → Stays r.heap r'.heap y) E := by
  rw [onHeap_iff]
  refine (Heap.releaseAll_ensures ids hst.sound.heap hst.closed fun y hy =>
    hst.not_detached (List.mem_append_left _ hy)).mono ?_ fun _ _ he => he
  rintro _ h ⟨hstep, hnd, hheld⟩
  refine ⟨⟨.of_step hstep, (hst.step_same hstep).relist (fun y hy hd => ?_) fun y hy => ?_, rfl⟩,
    hheld⟩
  · exact (List.mem_append.mp hy).resolve_left fun hin => hnd y hin hd
  · exact (hst.step_same hstep).safe y (List.mem_append_right _ hy)

-- A temporary that nobody else knows.
theorem temporary_ensures {op : HeapM VarId} (hst : State D A K xs scope r)
    (hop : Ensures op r.heap (fun x h => Heap.Temporary K r.heap x h) fun _ _ => False) :
    Ensures (onHeap op) r
      (fun x r' => Moved D A K P (x :: xs) scope r r' ∧ r'.heap.Detached x ∧ ¬K x ∧
        r.heap.var? x = none ∧ ∀ y, Stays r.heap r'.heap y) E := by
  rw [onHeap_iff]
  refine hop.mono ?_ fun _ _ => False.elim
  rintro x h ht
  have hk : ¬K x := by
    intro hk
    obtain ⟨v, hv⟩ := hst.closed.live hk
    rw [ht.fresh] at hv
    cases hv
  exact ⟨⟨.of_step ht.step, hst.step_add ht.step fun hx => absurd hx hk, rfl⟩, ht.detached, hk,
    ht.fresh, fun _ => ht.extends_.stays⟩

theorem alloc_ensures {p : Payload} (hst : State D A K xs scope r) (hp : p.elements = #[])
    (hl : ∀ t, p ≠ .link t) :
    Ensures (onHeap (Heap.alloc p)) r
      (fun x r' => Moved D A K P (x :: xs) scope r r' ∧ r'.heap.Detached x ∧ ¬K x ∧
        r.heap.var? x = none ∧ ∀ y, Stays r.heap r'.heap y) E :=
  temporary_ensures hst (Heap.alloc_ensures hst.sound.heap (fun _ => hst.closed.live) hp hl)

theorem duplicate_ensures (hst : State D A K xs scope r) (hx : r.heap.Live x) :
    Ensures (onHeap (Heap.duplicate x)) r
      (fun y r' => Moved D A K P (y :: xs) scope r r' ∧ r'.heap.Detached y ∧ ¬K y ∧
        r.heap.var? y = none ∧ ∀ z, Stays r.heap r'.heap z) E :=
  temporary_ensures hst (Heap.duplicate_ensures hst.sound.heap (fun _ => hst.closed.live) hx)

theorem readHeap_ok {f : Heap → Except Failure α} {a : α} {Q : α → Run → Prop}
    (hf : f r.heap = .ok a) : Ensures (readHeap f) r Q E ↔ Q a r :=
  readHeap_iff.trans (ofExcept_ok hf)

theorem readHeap_error {f : Heap → Except Failure α} {e : Failure} {Q : α → Run → Prop}
    (hf : f r.heap = .error e) : Ensures (readHeap f) r Q E ↔ E (.failure e) r :=
  readHeap_iff.trans (ofExcept_error hf)

-- A value becomes a temporary of its own.
theorem own_ensures (hst : State D A K (x :: xs) scope r) (hx : r.heap.Held x) :
    Ensures (own x) r
      (fun y r' => Moved D A K P (y :: xs) scope r r' ∧ r'.heap.Detached y ∧ ¬K y) E := by
  obtain ⟨v, hv, -⟩ := hx
  rw [own, Ensures.bind_iff, readHeap_ok (Heap.lookup_eq hv)]
  split
  · rename_i hown
    simp only [Bool.and_eq_true, decide_eq_true_eq] at hown
    have hd : r.heap.Detached x := ⟨v, hv, hown.1.1⟩
    exact ⟨⟨.refl, hst, rfl⟩, hd, hst.not_detached (List.mem_cons_self ..) hd⟩
  · rw [Ensures.bind_iff]
    refine (duplicate_ensures (P := P) hst ⟨v, hv⟩).mono ?_ fun _ _ he => he
    rintro y r₁ ⟨hm, hd, hk, hfresh, -⟩
    have hne : y ≠ x := by
      rintro rfl
      rw [hfresh] at hv
      cases hv
    have hst₁ : State D A K (x :: y :: xs) scope r₁ :=
      hm.state.same fun z => by simp [or_left_comm]
    rw [Ensures.bind_iff]
    refine (release_ensures (P := P) hst₁).mono ?_ fun _ _ he => he
    rintro _ r₂ ⟨hm₂, hstay⟩
    obtain ⟨w, hw, ho⟩ := hd
    exact ⟨⟨hm.frame.trans hm₂.frame, hm₂.state, hm₂.flow.trans hm.flow⟩,
      (hstay y ⟨w, hw, .inl ho⟩ hne).ownedBy ⟨w, hw, ho⟩, hk⟩

-- Another variable travels now.
theorem setResult_ensures (hst : State D A K (x :: r.flow.result.toList) scope r)
    (hx : r.heap.Held x) (hne : x ∉ r.flow.result) :
    Ensures (setResult x) r
      (fun _ r' => Frame K P r r' ∧ State D A K [x] scope r' ∧ Stays r.heap r'.heap x ∧
        r'.flow = { r.flow with result := some x }) E := by
  rw [setResult, Ensures.bind_iff, flow_iff, Ensures.bind_iff, Ensures.modify_iff]
  generalize hr₁ : Run.mk r.machine _ r.last = r₁
  have hst₀ : State D A K (x :: r.flow.result.toList) scope r₁ := hst.congr (by rw [← hr₁])
  have hst₁ : State D A K (r.flow.result.toList ++ [x]) scope r₁ :=
    hst₀.same fun y => by simp [or_comm]
  refine (release_option (P := P) hst₁).mono ?_ fun _ _ he => he
  rintro _ r₂ ⟨hm, hstay⟩
  subst hr₁
  exact ⟨⟨hm.frame.keeps, hm.frame.scopes, hm.frame.lasting, hm.frame.last, hm.frame.root,
    hm.frame.depth, hm.frame.config⟩, hm.state, hstay x hx hne, hm.flow⟩

theorem setResult_start {Q : Unit → Run → Prop} (hres : r.flow.result = none) :
    Ensures (setResult x) r Q E ↔ Q () { r with flow := { r.flow with result := some x } } := by
  rw [setResult, Ensures.bind_iff, flow_iff, Ensures.bind_iff, Ensures.modify_iff, hres]
  exact Ensures.pure_iff

-- A variable that has an owner is not released when another one takes its place.
theorem setResult_iff {y : VarId} {Q : Unit → Run → Prop} (hres : r.flow.result = some y)
    (hy : ¬r.heap.Detached y) :
    Ensures (setResult x) r Q E ↔ Q () { r with flow := { r.flow with result := some x } } := by
  rw [setResult, Ensures.bind_iff, flow_iff, Ensures.bind_iff, Ensures.modify_iff, hres]
  exact onHeap_iff.trans (Heap.release_of_not_detached hy)

-- A temporary, or a link just made, gets a name.
theorem declare_loose (hst : State D A K (x :: xs) scope r) (hstep : Step K (· = x) [x] r.heap h)
    (hd : h.Detached x) (ha : h.Aimed x) (hk : ¬K x) (hflow : r.flow.result = none) :
    Ensures (onStore (Store.declare scope name x)) (r.withHeap h)
      (fun _ r' => Moved D A K (· = scope) xs scope r r' ∧ r.Binds scope name r')
      (FailPost D A K (· = scope) xs scope r) := by
  have hs : (r.withHeap h).store.Sound [x] := hst.sound.step hstep
  have hc : h.Closed K := hst.closed.keeps hst.sound.heap hstep.sound hstep.keeps
  have hdetached : ∀ y, h.Detached y → y ≠ x → K y ∨ y ∈ xs := by
    intro y hy hne
    rcases hstep.detached y hy with hd | hd
    · exact (hst.detached y hd).imp_right fun hin => (List.mem_cons.mp hin).resolve_left hne
    · exact absurd hd hne
  have hsafe : ∀ {h' : Heap}, Keeps K r.heap h' → ∀ y ∈ xs, Safe K h' y := fun hk y hy =>
    (hst.safe y (List.mem_cons_of_mem _ hy)).of_keeps hk
  rw [onStore_iff]
  refine (Store.declare_ensures (K := K) hs hc hk hd ha).mono ?_ ?_
  · rintro _ st' hdec
    have hkeeps : Keeps K r.heap st'.heap := hstep.keeps.trans hdec.keeps
    obtain ⟨sc, hsc, hsc'⟩ := hdec.scope
    have hreach : Reach D A K st' := by
      refine hst.reach.later hkeeps fun {t sc'} ht => ?_
      by_cases hts : t = scope
      · subst hts
        cases hsc'.symm.trans ht
        refine ⟨sc, hsc, rfl, fun b hb => ?_, fun _ => .inl⟩
        rcases List.mem_append.mp hb with hb | hb
        · exact .inl hb
        · cases List.mem_singleton.mp hb
          exact .inr hk
      · exact ⟨sc', (hdec.others t hts).symm.trans ht, rfl, fun _ => .inl, fun _ => .inl⟩
    refine ⟨⟨⟨hkeeps, fun t ht => hdec.others t ht, fun {t old} ht => ?_, rfl, rfl, rfl, rfl⟩,
      ⟨hdec.sound, hst.closed.keeps hst.sound.heap hdec.sound.heap hkeeps, fun y hy => ?_,
        hsafe hkeeps, hreach, hst.here, .inl ⟨_, hsc'⟩⟩, rfl⟩, sc, x, hsc, hsc'⟩
    · by_cases hts : t = scope
      · exact hts ▸ ⟨_, hsc'⟩
      · exact ⟨old, (hdec.others t hts).trans ht⟩
    · exact hdetached y (hdec.detached y hy).1 (hdec.detached y hy).2
  · rintro e st' hnot
    have hkeeps : Keeps K r.heap st'.heap := hstep.keeps.trans hnot.step.keeps
    have hscopes : ∀ t, st'.scope? t = r.scope? t := by
      intro t
      rw [Store.scope?, hnot.scopes]
      rfl
    refine ⟨⟨hkeeps, fun t _ => hscopes t, fun {t _} ht => ⟨_, (hscopes t).trans ht⟩, rfl, rfl, rfl,
      rfl⟩, ⟨?_,
      hst.closed.keeps hst.sound.heap hnot.step.sound hkeeps, fun y hy => ?_, hsafe hkeeps,
      hst.reach.of_store hkeeps hscopes, hst.here, ?_⟩, hflow, ?_⟩
    · have hs' := hs.step hnot.step
      obtain ⟨heap, scopes⟩ := st'
      cases hnot.scopes
      exact hs'
    · refine hdetached y ((hnot.step.detached y hy).resolve_right False.elim) ?_
      rintro rfl
      exact hnot.detached hy
    · refine hst.live.imp_left ?_
      rintro ⟨sc, hsc⟩
      exact ⟨sc, (hscopes scope).trans hsc⟩
    · rcases hnot.cause with ho | ⟨hc, hnone⟩
      · exact D.ordinary ho
      · rw [hc]
        refine hst.live.resolve_left ?_ scope
        rintro ⟨sc, hsc⟩
        cases hnone.symm.trans hsc

theorem declare_ensures (hst : State D A K (x :: xs) scope r) (hd : r.heap.Detached x) (hk : ¬K x)
    (hflow : r.flow.result = none) :
    Ensures (onStore (Store.declare scope name x)) r
      (fun _ r' => Moved D A K (· = scope) xs scope r r' ∧ r.Binds scope name r')
      (FailPost D A K (· = scope) xs scope r) := by
  have hloose := hst.sound.heap.loosen (hst.sound.heap.forest.root_of_detached hd) (by simp)
  exact declare_loose hst ⟨hloose, .refl, fun _ _ => .rfl, fun _ => .inl⟩ hd
    (hst.sound.heap.rules.aimed hd) hk hflow

section

variable {k : Exec α} {Q : α → Run → Prop}

-- A value gets a name, and a part follows.
theorem own_declare (hst : State D A K (x :: xs) scope r) (hx : r.heap.Held x)
    (hflow : r.flow.result = none)
    (hfail : ∀ e r', FailPost D A K (· = scope) xs scope r e r' → E e r')
    (hk : ∀ r', Moved D A K (· = scope) xs scope r r' → r.Binds scope name r' → Ensures k r' Q E) :
    Ensures (do
      let id ← own x
      onStore (Store.declare scope name id)
      k) r Q E := by
  rw [Ensures.bind_iff]
  refine (own_ensures (P := noScope) hst hx).mono ?_ fun _ _ he => he
  rintro y r₁ ⟨hm, hd, hky⟩
  rw [Ensures.bind_iff]
  refine (declare_ensures hm.state hd hky (by rw [hm.flow, hflow])).mono ?_
    fun _ _ he => hfail _ _ (he.trans hm.frame.some_scope)
  rintro _ r₂ ⟨hm₂, sc, z, hsc, hsc'⟩
  rw [hm.frame.scopes scope id] at hsc
  exact hk r₂ ⟨hm.frame.some_scope.trans hm₂.frame, hm₂.state, hm₂.flow.trans hm.flow⟩
    ⟨sc, z, hsc, hsc'⟩

-- So does a new null variable.
theorem null_declare (hst : State D A K xs scope r) (hflow : r.flow.result = none)
    (hfail : ∀ e r', FailPost D A K (· = scope) xs scope r e r' → E e r')
    (hk : ∀ r', Moved D A K (· = scope) xs scope r r' → r.Binds scope name r' → Ensures k r' Q E) :
    Ensures (do
      let id ← onHeap Heap.allocNull
      onStore (Store.declare scope name id)
      k) r Q E := by
  rw [Ensures.bind_iff]
  refine (alloc_ensures (p := .null) (P := noScope) hst rfl fun _ => nofun).mono ?_ fun _ _ he => he
  rintro y r₁ ⟨hm, hd, hky, -⟩
  rw [Ensures.bind_iff]
  refine (declare_ensures hm.state hd hky (by rw [hm.flow, hflow])).mono ?_
    fun _ _ he => hfail _ _ (he.trans hm.frame.some_scope)
  rintro _ r₂ ⟨hm₂, sc, z, hsc, hsc'⟩
  rw [hm.frame.scopes scope id] at hsc
  exact hk r₂ ⟨hm.frame.some_scope.trans hm₂.frame, hm₂.state, hm₂.flow.trans hm.flow⟩
    ⟨sc, z, hsc, hsc'⟩

end

end Exec

end FinLang

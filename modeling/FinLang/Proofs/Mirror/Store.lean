import FinLang.Proofs.Mirror.Write
import FinLang.Store.Basic

namespace FinLang

variable {α β γ δ : Type} {ρ : Renaming}

namespace Scopes

variable {s s' : Scopes} {x y : ScopeId} {sc : Scope} {k n : Nat}

abbrev Mirrors (ρ : Renaming) (s s' : Scopes) : Prop :=
  Arena.Mirrors ρ (Scope.rename ρ) s.arena s'.arena

-- A living scope with so many living scopes around it, and nothing else.
inductive Lineage (s : Scopes) : Nat → ScopeId → Prop
  | outermost {x : ScopeId} {sc : Scope} (hsc : s.arena.get? x = some sc) (hp : sc.parent = none) :
      Lineage s 0 x
  | inside {n : Nat} {x p : ScopeId} {sc : Scope} (hsc : s.arena.get? x = some sc)
      (hp : sc.parent = some p) (h : Lineage s n p) : Lineage s (n + 1) x

-- Every living scope lies in living scopes only.
def Nested (s : Scopes) : Prop :=
  ∀ x sc, s.arena.get? x = some sc → ∃ n, s.Lineage n x

namespace Lineage

theorem live (h : s.Lineage n x) : ∃ sc, s.arena.get? x = some sc := by
  cases h with
  | outermost hsc _ => exact ⟨_, hsc⟩
  | inside hsc _ _ => exact ⟨_, hsc⟩

theorem unique (h : s.Lineage n x) (h' : s.Lineage k x) : n = k := by
  induction h generalizing k with
  | outermost hsc hp =>
    cases h' with
    | outermost _ _ => rfl
    | inside hsc' hp' _ =>
      cases hsc.symm.trans hsc'
      cases hp.symm.trans hp'
  | inside hsc hp _ ih =>
    cases h' with
    | outermost hsc' hp' =>
      cases hsc.symm.trans hsc'
      cases hp.symm.trans hp'
    | inside hsc' hp' h' =>
      cases hsc.symm.trans hsc'
      cases hp.symm.trans hp'
      rw [ih h']

-- The scopes around a scope are as many different ones.
theorem chain (h : s.Lineage n x) : ∃ l : List ScopeId, l.Nodup ∧ l.length = n + 1 ∧
    ∀ y ∈ l, ∃ k ≤ n, s.Lineage k y := by
  induction h with
  | @outermost x _ hsc hp =>
    exact ⟨[x], by simp, rfl, by simpa using .outermost hsc hp⟩
  | @inside n x p _ hsc hp h ih =>
    obtain ⟨l, hnodup, hlen, hl⟩ := ih
    have hx := Lineage.inside hsc hp h
    refine ⟨x :: l, List.nodup_cons.mpr ⟨fun hin => ?_, hnodup⟩, by simp [hlen], fun y hy => ?_⟩
    · obtain ⟨k, hk, hx'⟩ := hl x hin
      have := hx.unique hx'
      omega
    · rcases List.mem_cons.mp hy with rfl | hy
      · exact ⟨n + 1, Nat.le_refl _, hx⟩
      · obtain ⟨k, hk, hy⟩ := hl y hy
        exact ⟨k, Nat.le_succ_of_le hk, hy⟩

theorem lt_size (h : s.Lineage n x) (hs : s.arena.Sound) : n < s.arena.slots.size := by
  obtain ⟨l, hnodup, hlen, hl⟩ := h.chain
  have := hs.length_le_live hnodup fun y hy => (hl y hy).choose_spec.2.live
  have := hs.live_le_size
  omega

-- Other scopes with the same parents.
theorem congr (h : s.Lineage n x)
    (hs : ∀ y sc, s.arena.get? y = some sc → ∃ sc', s'.arena.get? y = some sc' ∧ sc'.parent = sc.parent) :
    s'.Lineage n x := by
  induction h with
  | outermost hsc hp =>
    obtain ⟨sc', hsc', hp'⟩ := hs _ _ hsc
    exact .outermost hsc' (hp'.trans hp)
  | inside hsc hp _ ih =>
    obtain ⟨sc', hsc', hp'⟩ := hs _ _ hsc
    exact .inside hsc' (hp'.trans hp) ih

theorem mirror (h : s.Lineage n x) (hm : Mirrors ρ s s') : s'.Lineage n (ρ x) := by
  induction h with
  | outermost hsc hp => exact .outermost (by rw [hm.get?, hsc]; rfl) (by simp [Scope.rename, hp])
  | inside hsc hp _ ih => exact .inside (by rw [hm.get?, hsc]; rfl) (by simp [Scope.rename, hp]) ih

end Lineage

theorem Nested.congr (h : s.Nested)
    (hs : ∀ y, (s'.arena.get? y).map Scope.parent = (s.arena.get? y).map Scope.parent) : s'.Nested := by
  intro x sc' hsc'
  obtain ⟨sc, hsc, -⟩ := Option.map_eq_some_iff.mp ((hs x).symm.trans (congrArg _ hsc'))
  obtain ⟨n, hn⟩ := h x sc hsc
  refine ⟨n, hn.congr fun y sc hsc => ?_⟩
  exact Option.map_eq_some_iff.mp ((hs y).trans (congrArg _ hsc))

-- One scope more, in a living one.
theorem Nested.opened {p : ScopeId} (h : s.Nested) (hfresh : s.arena.get? x = none)
    (hothers : ∀ y, y ≠ x → s'.arena.get? y = s.arena.get? y) (hsc : s'.arena.get? x = some sc)
    (hparent : sc.parent = some p) (hp : ∃ sc, s.arena.get? p = some sc) : s'.Nested := by
  have hlater : ∀ {n y}, s.Lineage n y → s'.Lineage n y := fun hy =>
    hy.congr fun z sc hz => ⟨sc, (hothers z (by rintro rfl; cases hfresh.symm.trans hz)).trans hz, rfl⟩
  intro y sc' hsc'
  by_cases hy : y = x
  · obtain ⟨_, hpsc⟩ := hp
    obtain ⟨n, hn⟩ := h p _ hpsc
    exact hy ▸ ⟨n + 1, .inside hsc hparent (hlater hn)⟩
  · obtain ⟨n, hn⟩ := h y sc' ((hothers y hy).symm.trans hsc')
    exact ⟨n, hlater hn⟩

section Search

variable {f : ScopeId → Scope → Option α} {f' : ScopeId → Scope → Option β} {g : α → β}

private theorem Lineage.search (h : s.Lineage k x) (hm : Mirrors ρ s s')
    (hf : ∀ x sc, f' (ρ x) (sc.rename ρ) = (f x sc).map g) {n n' : Nat} (hn : k < n) (hn' : k < n') :
    s'.searchWithin f' n' (ρ x) = (s.searchWithin f n x).map g := by
  induction h generalizing n n' with
  | outermost hsc hp =>
    obtain ⟨n, rfl⟩ := Nat.exists_eq_succ_of_ne_zero (Nat.ne_zero_of_lt hn)
    obtain ⟨n', rfl⟩ := Nat.exists_eq_succ_of_ne_zero (Nat.ne_zero_of_lt hn')
    rw [searchWithin, searchWithin, hm.get?, hsc, Option.map_some]
    simp only [hf]
    cases f _ _ with
    | none => simp [Scope.rename, hp]
    | some a => rfl
  | inside hsc hp _ ih =>
    obtain ⟨n, rfl⟩ := Nat.exists_eq_succ_of_ne_zero (Nat.ne_zero_of_lt hn)
    obtain ⟨n', rfl⟩ := Nat.exists_eq_succ_of_ne_zero (Nat.ne_zero_of_lt hn')
    rw [searchWithin, searchWithin, hm.get?, hsc, Option.map_some]
    simp only [hf]
    cases f _ _ with
    | none =>
      simp only [Scope.rename, hp, Option.map_some, Option.map_none, Option.bind_some]
      exact ih (by omega) (by omega)
    | some a => rfl

-- What a search finds does not depend on how many slots there are.
theorem search_mirrors (h : s.Nested) (hm : Mirrors ρ s s')
    (hf : ∀ x sc, f' (ρ x) (sc.rename ρ) = (f x sc).map g) :
    s'.search f' (ρ x) = (s.search f x).map g := by
  unfold Scopes.search
  rcases hsc : s.arena.get? x with _ | sc
  · rw [searchWithin, searchWithin, hm.get?, hsc]
    rfl
  · obtain ⟨k, hk⟩ := h x sc hsc
    exact hk.search hm hf (Nat.lt_succ_of_lt (hk.lt_size hm.sound))
      (Nat.lt_succ_of_lt ((hk.mirror hm).lt_size hm.sound'))

theorem findVariable_mirrors (h : s.Nested) (hm : Mirrors ρ s s') (name : String) :
    s'.findVariable (ρ x) name = (s.findVariable x name).map ρ.handle :=
  search_mirrors h hm fun _ sc => sc.varNamed?_rename ρ name

theorem findFunction_mirrors (h : s.Nested) (hm : Mirrors ρ s s') (name : String) :
    s'.findFunction (ρ x) name = s.findFunction x name := by
  have hfound : s'.findFunction (ρ x) name = (s.findFunction x name).map id :=
    search_mirrors h hm fun _ _ => (congrFun Option.map_id _).symm
  rwa [Option.map_id] at hfound

theorem enclosingCall_mirrors (h : s.Nested) (hm : Mirrors ρ s s') :
    s'.enclosingCall (ρ x) = (s.enclosingCall x).map ρ.handle :=
  search_mirrors h hm fun _ sc => by cases hb : sc.belongsTo <;> simp [Scope.rename, hb]

private theorem Lineage.callStack (h : s.Lineage k x) (hm : Mirrors ρ s s') {n n' : Nat} (hn : k < n)
    (hn' : k < n') : s'.callStackWithin n' (ρ x) = s.callStackWithin n x := by
  induction h generalizing n n' with
  | outermost hsc hp =>
    obtain ⟨n, rfl⟩ := Nat.exists_eq_succ_of_ne_zero (Nat.ne_zero_of_lt hn)
    obtain ⟨n', rfl⟩ := Nat.exists_eq_succ_of_ne_zero (Nat.ne_zero_of_lt hn')
    rw [callStackWithin, callStackWithin, hm.get?, hsc]
    simp [Scope.rename, hp]
  | @inside k x p sc hsc hp _ ih =>
    obtain ⟨n, rfl⟩ := Nat.exists_eq_succ_of_ne_zero (Nat.ne_zero_of_lt hn)
    obtain ⟨n', rfl⟩ := Nat.exists_eq_succ_of_ne_zero (Nat.ne_zero_of_lt hn')
    rw [callStackWithin, callStackWithin, hm.get?, hsc]
    have hrest : s'.callStackWithin n' (ρ p) = s.callStackWithin n p := ih (by omega) (by omega)
    simp [Scope.rename, hp, hrest]

theorem callStack_mirrors (h : s.Nested) (hm : Mirrors ρ s s') :
    s'.callStack (ρ x) = s.callStack x := by
  unfold Scopes.callStack
  rcases hsc : s.arena.get? x with _ | sc
  · rw [callStackWithin, callStackWithin, hm.get?, hsc]
    rfl
  · obtain ⟨k, hk⟩ := h x sc hsc
    exact hk.callStack hm (Nat.lt_succ_of_lt (hk.lt_size hm.sound))
      (Nat.lt_succ_of_lt ((hk.mirror hm).lt_size hm.sound'))

end Search

theorem Mirrors.lookup (hm : Mirrors ρ s s') : Alike (Scope.rename ρ) (s.lookup x) (s'.lookup (ρ x)) := by
  unfold Scopes.lookup
  rw [hm.get?]
  cases s.arena.get? x with
  | none => exact ⟨rfl, rfl⟩
  | some sc => rfl

theorem Mirrors.figure? (hm : Mirrors ρ s s') : s'.figure? (ρ x) = s.figure? x := by
  unfold Scopes.figure?
  rw [hm.get?]
  cases s.arena.get? x <;> rfl

theorem Mirrors.create (hm : Mirrors ρ s s') (name : String) (parent : Option ScopeId) :
    (s'.create name (parent.map ρ.handle)).1 = ρ (s.create name parent).1 ∧
      Mirrors ρ (s.create name parent).2 (s'.create name (parent.map ρ.handle)).2 := by
  have hfigure : (parent.map ρ.handle).bind s'.figure? = parent.bind s.figure? := by
    cases parent with
    | none => rfl
    | some p => exact hm.figure?
  unfold Scopes.create
  rw [hfigure]
  exact Arena.Mirrors.insert (e := ⟨name, [], [], none, parent.bind s.figure?, parent⟩) hm

end Scopes

namespace Store

variable {st st' : Store} {s : ScopeId} {x : VarId} {name : String}

structure Mirrors (ρ : Renaming) (st st' : Store) : Prop where
  heap : Heap.Mirrors ρ st.heap st'.heap
  scopes : Scopes.Mirrors ρ st.scopes st'.scopes

def Failed (ρ : Renaming) (e e' : Failure) (st st' : Store) : Prop :=
  e.Alike e' ∧ Mirrors ρ st st'

abbrev Agrees (ρ : Renaming) (g : α → β) (m : StoreM α) (m' : StoreM β) (st st' : Store) : Prop :=
  Agree m m' st st' (fun a b st st' => b = g a ∧ Mirrors ρ st st') (Failed ρ)

abbrev Parallel (ρ : Renaming) (g : α → β) (m : StoreM α) (m' : StoreM β) : Prop :=
  Follows (Mirrors ρ) (Failed ρ) g m m'

theorem onHeap_agree {op : HeapM α} {op' : HeapM β} {Q : α → β → Store → Store → Prop}
    {E : Failure → Failure → Store → Store → Prop} :
    Agree (onHeap op) (onHeap op') st st' Q E ↔
      Agree op op' st.heap st'.heap
        (fun a b h h' => Q a b { st with heap := h } { st' with heap := h' })
        (fun e e' h h' => E e e' { st with heap := h } { st' with heap := h' }) := by
  unfold Agree onHeap
  simp only [ExceptT.run, ExceptT.mk, StateT.run]
  rcases op st.heap with ⟨_ | _, _⟩ <;> rcases op' st'.heap with ⟨_ | _, _⟩ <;> rfl

theorem onHeap_agrees {g : α → β} {op : HeapM α} {op' : HeapM β} (hm : Mirrors ρ st st')
    (h : Heap.Agrees ρ g op op' st.heap st'.heap) : Agrees ρ g (onHeap op) (onHeap op') st st' :=
  onHeap_agree.2 (h.mono (fun _ _ _ _ hq => ⟨hq.1, hq.2, hm.scopes⟩) fun _ _ _ _ he =>
    ⟨he.1, he.2, hm.scopes⟩)

theorem onHeap_follows {g : α → β} {op : HeapM α} {op' : HeapM β} (h : Heap.Parallel ρ g op op') :
    Parallel ρ g (onHeap op) (onHeap op') :=
  fun _ _ hm => onHeap_agrees hm (h _ _ hm.heap)

theorem fail_bind_follows {g : γ → δ} {c c' : Cause} {f : α → StoreM γ} {f' : β → StoreM δ}
    (hc : c'.kind = c.kind) : Parallel ρ g (fail c >>= f) (fail c' >>= f') :=
  fun _ _ hm => ⟨⟨hc, rfl⟩, hm⟩

-- Readings leave the store as it is.
private theorem reading_follows {g : α → β} {f : Store → Except Failure α}
    {f' : Store → Except Failure β} (hf : ∀ {st st'}, Mirrors ρ st st' → Alike g (f st) (f' st')) :
    Parallel ρ g (ExceptT.mk fun s => (f s, s)) (ExceptT.mk fun s => (f' s, s)) := by
  intro st st' hm
  have hsame := hf hm
  unfold Agree
  simp only [ExceptT.mk, ExceptT.run, StateT.run]
  rcases hx : f st with e | a <;> rcases hy : f' st' with e' | b <;> rw [hx, hy] at hsame
  · exact ⟨hsame, hm⟩
  · exact hsame
  · exact hsame
  · exact ⟨hsame, hm⟩

theorem readHeap_follows {g : α → β} {f : Heap → Except Failure α} {f' : Heap → Except Failure β}
    (hf : ∀ {h h'}, Heap.Mirrors ρ h h' → Alike g (f h) (f' h')) :
    Parallel ρ g (readHeap f) (readHeap f') :=
  reading_follows fun hm => hf hm.heap

theorem readScopes_follows {g : α → β} {f : Scopes → Except Failure α}
    {f' : Scopes → Except Failure β}
    (hf : ∀ {s s'}, Scopes.Mirrors ρ s s' → Alike g (f s) (f' s')) :
    Parallel ρ g (readScopes f) (readScopes f') :=
  reading_follows fun hm => hf hm.scopes

theorem updateScope_follows {f f' : Scope → Scope} (hf : ∀ sc, f' (sc.rename ρ) = (f sc).rename ρ) :
    Parallel ρ id (updateScope s f) (updateScope (ρ s) f') := by
  intro st st' hm
  refine Agree.get_bind_iff.mpr (.ite ?_ (fun _ => ?_) fun _ => ?_)
  · rw [Scopes.contains, hm.scopes.contains]
    rfl
  · exact ⟨rfl, hm.heap, hm.scopes.modify hf⟩
  · exact ⟨⟨rfl, rfl⟩, hm⟩

theorem createChild_follows : Parallel ρ ρ.handle (createChild s name) (createChild (ρ s) name) := by
  refine .bind (readScopes_follows fun hm => hm.lookup) fun _ st st' hm => ?_
  obtain ⟨hnew, hscopes⟩ := hm.scopes.create name (some s)
  exact Agree.lift_iff.mpr ⟨hnew, hm.heap, hscopes⟩

theorem setBelongsTo_follows {f : Function} :
    Parallel ρ id (setBelongsTo s f) (setBelongsTo (ρ s) f) :=
  updateScope_follows fun _ => rfl

theorem addFunction_follows {f : Function} :
    Parallel ρ id (addFunction s f) (addFunction (ρ s) f) :=
  .bind (readScopes_follows fun hm => hm.lookup) fun _ =>
    .ite .rfl (fun _ => fail_bind_follows rfl) fun _ => updateScope_follows fun _ => rfl

theorem addVariable_follows : Parallel ρ id (addVariable s name x) (addVariable (ρ s) name (ρ x)) := by
  refine .ite .rfl (fun _ => fail_bind_follows rfl) fun _ => ?_
  refine .bind (readHeap_follows fun hm => hm.isLeftValue) fun _ => ?_
  refine .ite .rfl (fun _ => fail_bind_follows rfl) fun _ => ?_
  refine .bind (readScopes_follows fun hm => hm.lookup) fun sc => ?_
  refine .ite (by rw [sc.varNamed?_rename, Option.isSome_map]) (fun _ => fail_bind_follows rfl) fun _ => ?_
  refine .bind (updateScope_follows fun sc => ?_) fun _ => onHeap_follows (Heap.setOwner_follows (.scope s))
  simp [Scope.rename]

theorem declare_agrees (hm : Mirrors ρ st st') (hx : Heap.Succeeds (Heap.setLeftValue x true) st.heap)
    (hy : Heap.Succeeds (Heap.setLeftValue (ρ x) true) st'.heap) :
    Agrees ρ id (declare s name x) (declare (ρ s) name (ρ x)) st st' := by
  refine (onHeap_agrees hm (Heap.setLeftValue_agrees hm.heap hx hy)).next fun _ st st' hm => ?_
  refine Agree.tryCatch (addVariable_follows st st' hm) fun e e' st st' he => ?_
  refine Agree.next (onHeap_follows Heap.free_follows st st' he.2) fun _ st st' hm => ?_
  exact ⟨he.1, hm⟩

theorem destroy_follows : Parallel ρ id (destroy s) (destroy (ρ s)) := by
  refine .bind (readScopes_follows fun hm => hm.lookup) fun sc => ?_
  have herase : Parallel ρ id
      (modify fun st => { st with scopes := ⟨st.scopes.arena.erase s⟩ } : StoreM Unit)
      (modify fun st => { st with scopes := ⟨st.scopes.arena.erase (ρ s)⟩ } : StoreM Unit) :=
    fun st st' hm => Agree.modify_iff.mpr ⟨rfl, hm.heap, hm.scopes.erase⟩
  refine .bind herase fun _ => .forM (j := fun b => (b.1, ρ b.2)) (fun b => ?_) sc.vars
  intro st st' hm
  refine Agree.get_bind_iff.mpr (.ite ?_ (fun _ => ?_) fun _ => ⟨rfl, hm⟩)
  · rw [hm.heap.contains]
  · exact onHeap_follows Heap.free_follows st st' hm

end Store

end FinLang

import FinLang.Proofs.Store.Handles

namespace FinLang

namespace Scopes

variable {α : Type} {s : Scopes} {id p : ScopeId} {sc : Scope} {chain : List (ScopeId × Scope)}

-- A living scope lies directly in another one.
def Within (s : Scopes) (id p : ScopeId) : Prop :=
  s.contains p = true ∧ ∃ sc, s.arena.get? id = some sc ∧ sc.parent = some p

-- The living scopes from a given one outwards. The walk ends where there is no parent, and where
-- the parent has gone.
inductive Chain (s : Scopes) : ScopeId → List (ScopeId × Scope) → Prop
  | stale {id : ScopeId} : s.arena.get? id = none → Chain s id []
  | outermost {id : ScopeId} {sc : Scope} : s.arena.get? id = some sc → sc.parent = none →
      Chain s id [(id, sc)]
  | inner {id p : ScopeId} {sc : Scope} {rest : List (ScopeId × Scope)} :
      s.arena.get? id = some sc → sc.parent = some p → Chain s p rest → Chain s id ((id, sc) :: rest)

namespace Chain

theorem get? {e : ScopeId × Scope} (hc : s.Chain id chain) (he : e ∈ chain) :
    s.arena.get? e.1 = some e.2 := by
  induction hc with
  | stale => cases he
  | outermost hsc _ =>
    cases List.mem_singleton.mp he
    exact hsc
  | inner hsc _ _ ih =>
    rcases List.mem_cons.mp he with rfl | he
    · exact hsc
    · exact ih he

-- What follows a scope on the chain lies around it.
theorem outwards {e : ScopeId × Scope} (hc : s.Chain p chain) (hsc : s.arena.get? id = some sc)
    (hp : sc.parent = some p) (he : e ∈ chain) : Relation.TransGen s.Within id e.1 := by
  induction hc generalizing id sc with
  | stale => cases he
  | outermost hsc' _ =>
    cases List.mem_singleton.mp he
    exact .single ⟨Arena.contains_iff.mpr ⟨_, hsc'⟩, sc, hsc, hp⟩
  | inner hsc' hp' _ ih =>
    have hstep : s.Within id _ := ⟨Arena.contains_iff.mpr ⟨_, hsc'⟩, sc, hsc, hp⟩
    rcases List.mem_cons.mp he with rfl | he
    · exact .single hstep
    · exact .head hstep (ih hsc' hp' he)

section

variable (hcycle : ∀ id, ¬Relation.TransGen s.Within id id)

include hcycle

theorem nodup (hc : s.Chain id chain) : (chain.map Prod.fst).Nodup := by
  induction hc with
  | stale => exact List.nodup_nil
  | outermost => exact List.nodup_singleton _
  | @inner id p sc rest hsc hp hrest ih =>
    refine List.nodup_cons.mpr ⟨fun hin => ?_, ih⟩
    obtain ⟨e, he, heq⟩ := List.mem_map.mp hin
    have hout := hrest.outwards hsc hp he
    rw [heq] at hout
    exact hcycle id hout

theorem length_le (hs : s.arena.Sound) (hc : s.Chain id chain) : chain.length ≤ s.liveCount := by
  have hle := hs.length_le_live (hc.nodup hcycle) fun x hx => by
    obtain ⟨e, he, rfl⟩ := List.mem_map.mp hx
    exact ⟨e.2, hc.get? he⟩
  simpa [liveCount] using hle

end

-- With steps enough the walk takes the first answer along the chain.
theorem searchWithin (f : ScopeId → Scope → Option α) (hc : s.Chain id chain) {n : Nat}
    (hn : chain.length < n) : s.searchWithin f n id = chain.findSome? fun e => f e.1 e.2 := by
  induction hc generalizing n with
  | stale hget =>
    obtain ⟨n, rfl⟩ := Nat.exists_eq_succ_of_ne_zero (Nat.ne_zero_of_lt hn)
    simp [Scopes.searchWithin, hget]
  | outermost hget hp =>
    obtain ⟨n, rfl⟩ := Nat.exists_eq_succ_of_ne_zero (Nat.ne_zero_of_lt hn)
    simp only [Scopes.searchWithin, hget, hp, List.findSome?_cons, List.findSome?_nil, Option.bind_none]
    rfl
  | inner hget hp _ ih =>
    obtain ⟨n, rfl⟩ := Nat.exists_eq_succ_of_ne_zero (Nat.ne_zero_of_lt hn)
    simp only [Scopes.searchWithin, hget, hp, List.findSome?_cons, Option.bind_some,
      ih (n := n) (by simpa using hn)]
    rfl

theorem callStackWithin (hc : s.Chain id chain) {n : Nat} (hn : chain.length < n) :
    s.callStackWithin n id = chain.filterMap fun e => e.2.belongsTo := by
  induction hc generalizing n with
  | stale hget =>
    obtain ⟨n, rfl⟩ := Nat.exists_eq_succ_of_ne_zero (Nat.ne_zero_of_lt hn)
    simp [Scopes.callStackWithin, hget]
  | @outermost _ sc hget hp =>
    obtain ⟨n, rfl⟩ := Nat.exists_eq_succ_of_ne_zero (Nat.ne_zero_of_lt hn)
    cases hb : sc.belongsTo <;> simp [Scopes.callStackWithin, hget, hp, hb]
  | @inner _ _ sc _ hget hp _ ih =>
    obtain ⟨n, rfl⟩ := Nat.exists_eq_succ_of_ne_zero (Nat.ne_zero_of_lt hn)
    have hrest := ih (n := n) (by simpa using hn)
    cases hb : sc.belongsTo <;> simp [Scopes.callStackWithin, hget, hp, hb, hrest]

-- A change of one scope changes its entry.
theorem modify {owner : ScopeId} {f : Scope → Scope} (hf : ∀ sc, (f sc).parent = sc.parent)
    (hc : s.Chain id chain) :
    (s.modify owner f).Chain id
      (chain.map fun e => (e.1, if e.1 = owner then f e.2 else e.2)) := by
  have hget {x : ScopeId} {sc : Scope} (hsc : s.arena.get? x = some sc) :
      (s.modify owner f).arena.get? x = some (if x = owner then f sc else sc) := by
    rw [Scopes.modify, Arena.get?_modify, hsc]
    split <;> rfl
  have hparent {x : ScopeId} {sc : Scope} : (if x = owner then f sc else sc).parent = sc.parent := by
    split
    · exact hf sc
    · rfl
  induction hc with
  | stale hsc =>
    refine .stale ?_
    rw [Scopes.modify, Arena.get?_modify, hsc]
    split <;> rfl
  | outermost hsc hp => exact .outermost (hget hsc) (hparent.trans hp)
  | inner hsc hp _ ih => exact .inner (hget hsc) (hparent.trans hp) ih

-- A scope that a search does not come to: it is not on the chain, or it is further out than the
-- first one with an answer.
def OutOfReach (chain : List (ScopeId × Scope)) (f : Scope → Option α) (owner : ScopeId) : Prop :=
  owner ∉ chain.map Prod.fst ∨
    ∃ near far, chain = near ++ far ∧ owner ∈ far.map Prod.fst ∧
      (near.findSome? fun e => f e.2).isSome = true

private theorem map_eq_self {owner : ScopeId} {f : Scope → Scope} (hout : owner ∉ chain.map Prod.fst) :
    chain.map (fun e => (e.1, if e.1 = owner then f e.2 else e.2)) = chain := by
  refine (List.map_congr_left fun e he => ?_).trans (List.map_id chain)
  rw [if_neg]
  · rfl
  · rintro rfl
    exact hout (List.mem_map_of_mem he)

-- So it may change as it likes.
theorem findSome?_modify {owner : ScopeId} {f : Scope → Scope} {g : Scope → Option α}
    (hnodup : (chain.map Prod.fst).Nodup) (hout : OutOfReach chain g owner) :
    ((chain.map fun e => (e.1, if e.1 = owner then f e.2 else e.2)).findSome? fun e => g e.2) =
      chain.findSome? fun e => g e.2 := by
  rcases hout with hout | ⟨near, far, rfl, hfar, hfound⟩
  · rw [map_eq_self hout]
  · obtain ⟨a, ha⟩ := Option.isSome_iff_exists.mp hfound
    rw [List.map_append, List.nodup_append] at hnodup
    have hnear : owner ∉ near.map Prod.fst := fun hin => hnodup.2.2 owner hin owner hfar rfl
    rw [List.map_append, map_eq_self hnear, List.findSome?_append, List.findSome?_append, ha]
    rfl

end Chain

-- What the walks from a scope come to: they go along the chain, no scope comes twice, and the
-- first answer counts.
structure Walked (s : Scopes) (id : ScopeId) (chain : List (ScopeId × Scope)) : Prop where
  path : s.Chain id chain
  nodup : (chain.map Prod.fst).Nodup
  length : chain.length ≤ s.liveCount
  search : ∀ {α : Type} (f : ScopeId → Scope → Option α),
    s.search f id = chain.findSome? fun e => f e.1 e.2
  findVariable : ∀ name, s.findVariable id name = chain.findSome? fun e => e.2.varNamed? name
  findFunction : ∀ name, s.findFunction id name = chain.findSome? fun e => e.2.funcNamed? name
  enclosingCall : s.enclosingCall id = chain.findSome? fun e => e.2.belongsTo.map fun _ => e.1
  callStack : s.callStack id = chain.filterMap fun e => e.2.belongsTo

theorem Chain.walked (hcycle : ∀ id, ¬Relation.TransGen s.Within id id) (hs : s.arena.Sound)
    (hc : s.Chain id chain) : s.Walked id chain := by
  have hlength := hc.length_le hcycle hs
  have hbudget : chain.length < s.arena.slots.size + 1 :=
    Nat.lt_succ_of_le (Nat.le_trans hlength hs.live_le_size)
  exact {
    path := hc
    nodup := hc.nodup hcycle
    length := hlength
    search := fun f => hc.searchWithin f hbudget
    findVariable := fun _ => hc.searchWithin _ hbudget
    findFunction := fun _ => hc.searchWithin _ hbudget
    enclosingCall := hc.searchWithin _ hbudget
    callStack := hc.callStackWithin hbudget }

theorem Walked.search_modify {owner : ScopeId} {f : Scope → Scope} {g : Scope → Option α}
    (hf : ∀ sc, (f sc).parent = sc.parent) (hs : s.arena.Sound) (hw : s.Walked id chain)
    (hout : Chain.OutOfReach chain g owner) :
    (s.modify owner f).search (fun _ => g) id = s.search (fun _ => g) id := by
  have hbudget : chain.length < s.arena.slots.size + 1 :=
    Nat.lt_succ_of_le (Nat.le_trans hw.length hs.live_le_size)
  rw [hw.search, ← Chain.findSome?_modify (f := f) hw.nodup hout, Scopes.search]
  refine (hw.path.modify hf).searchWithin (fun _ => g) ?_
  rw [Scopes.modify, Arena.size_modify, List.length_map]
  exact hbudget

end Scopes

namespace Store

variable {acts done early : List Act} {x p id : ScopeId} {sc : Scope}

-- Whoever is named as a parent has been given out before, and may have gone since.
def Rooted (acts : List Act) : Prop :=
  ∀ early name p, early ++ [.create name (some p)] <+: acts →
    ∃ before act, before ++ [act] <+: early ∧ act.opens (afterAll before) = some p

-- The first scope was there when the second one had not been there yet.
def Older (acts : List Act) (p x : ScopeId) : Prop :=
  ∃ before, before <+: acts ∧ (afterAll before).scopes.contains p = true ∧
    ∀ b, b <+: before → (afterAll b).scopes.contains x = false

theorem sound_scopes (acts : List Act) : (afterAll acts).scopes.arena.Sound :=
  have hturn : ∀ (act : Act) (st : Store), Arena.Turns st.scopes.arena (act.after st).scopes.arena :=
    fun act st => (act.turns st).scopes
  Arena.sound_run hturn Arena.sound_empty

section

variable (hroot : Rooted acts) (hfew : ∀ i, scopeFrees i acts < 2 ^ 32)

include hroot hfew

-- A parent is older, although its slot may be the younger one's by now.
theorem parent_older (hdone : done <+: acts) (hsc : (afterAll done).scope? x = some sc)
    (hp : sc.parent = some p) : Older acts p x := by
  induction done using List.reverseRecOn generalizing sc with
  | nil => cases hsc
  | append_singleton done act ih =>
    have hbefore : done <+: acts := (List.prefix_append done [act]).trans hdone
    rw [afterAll_append] at hsc
    have hnew (hopens : act.opens (afterAll done) = some x) :
        ∀ b, b <+: done → (afterAll b).scopes.contains x = false := fun b hb =>
      (scope_never_reused (hfew x.index)).fresh hdone hopens hb
    cases Act.stems (sound_scopes done) hsc with
    | old hold hparent => exact ih hbefore hold (hparent ▸ hp)
    | @created name parent hopens hparent =>
      cases hparent.symm.trans hp
      obtain ⟨b, a, hb, hgiven⟩ := hroot done name p hdone
      have hlive := (scope_never_reused (hfew p.index)).given (hb.trans hbefore) hgiven
      exact ⟨b ++ [a], hb.trans hbefore, hlive, fun b' hb' => hnew hopens b' (hb'.trans hb)⟩
    | child hopens hlive hparent =>
      cases hparent.symm.trans hp
      exact ⟨done, hbefore, Arena.contains_iff.mpr ⟨_, hlive⟩, hnew hopens⟩

-- So it was there at an earlier moment than any at which the inner scope was there.
theorem parent_earlier (hsc : (afterAll acts).scope? x = some sc) (hp : sc.parent = some p)
    (hearly : early <+: acts) (hx : (afterAll early).scopes.contains x = true) :
    ∃ before, before <+: acts ∧ (afterAll before).scopes.contains p = true ∧
      before.length < early.length := by
  obtain ⟨before, hb, hlive, hnot⟩ := parent_older hroot hfew (List.prefix_refl acts) hsc hp
  refine ⟨before, hb, hlive, ?_⟩
  rcases List.prefix_or_prefix_of_prefix hearly hb with hle | hle
  · cases hx.symm.trans (hnot early hle)
  · refine Nat.lt_of_le_of_ne hle.length_le fun heq => ?_
    cases hle.eq_of_length heq
    cases hx.symm.trans (hnot _ (List.prefix_refl _))

theorem within_earlier (hw : Relation.TransGen (afterAll acts).scopes.Within x p)
    (hearly : early <+: acts) (hx : (afterAll early).scopes.contains x = true) :
    ∃ before, before <+: acts ∧ (afterAll before).scopes.contains p = true ∧
      before.length < early.length := by
  induction hw with
  | single hstep =>
    obtain ⟨-, sc, hsc, hp⟩ := hstep
    exact parent_earlier hroot hfew hsc hp hearly hx
  | tail _ hstep ih =>
    obtain ⟨mid, hmid, hlive, hlt⟩ := ih
    obtain ⟨-, sc, hsc, hp⟩ := hstep
    obtain ⟨before, hb, hlive', hlt'⟩ := parent_earlier hroot hfew hsc hp hmid hlive
    exact ⟨before, hb, hlive', by omega⟩

theorem no_cycle (x : ScopeId) : ¬Relation.TransGen (afterAll acts).scopes.Within x x := by
  intro hcycle
  -- Around the cycle the scope was there earlier and earlier.
  have hnever : ∀ n, ∀ early, early <+: acts → early.length = n →
      (afterAll early).scopes.contains x = false := by
    intro n
    induction n using Nat.strongRecOn with
    | ind n ih =>
      rintro early hearly rfl
      cases hx : (afterAll early).scopes.contains x with
      | false => rfl
      | true =>
        obtain ⟨before, hb, hlive, hlt⟩ := within_earlier hroot hfew hcycle hearly hx
        cases hlive.symm.trans (ih _ hlt before hb rfl)
  obtain ⟨y, ⟨-, sc, hsc, -⟩, -⟩ := Relation.TransGen.head'_iff.mp hcycle
  cases (Arena.contains_iff.mpr ⟨sc, hsc⟩).symm.trans (hnever _ acts (List.prefix_refl acts) rfl)

-- Every walk outwards ends.
theorem exists_chain (id : ScopeId) : ∃ chain, (afterAll acts).scopes.Chain id chain := by
  have hlived : ∀ n, ∀ early, early <+: acts → early.length = n → ∀ x,
      (afterAll early).scopes.contains x = true → ∃ chain, (afterAll acts).scopes.Chain x chain := by
    intro n
    induction n using Nat.strongRecOn with
    | ind n ih =>
      rintro early hearly rfl x hx
      rcases hsc : (afterAll acts).scope? x with _ | sc
      · exact ⟨[], .stale hsc⟩
      rcases hp : sc.parent with _ | p
      · exact ⟨_, .outermost hsc hp⟩
      · obtain ⟨before, hb, hlive, hlt⟩ := parent_earlier hroot hfew hsc hp hearly hx
        obtain ⟨rest, hrest⟩ := ih _ hlt before hb rfl p hlive
        exact ⟨_, .inner hsc hp hrest⟩
  rcases hsc : (afterAll acts).scope? id with _ | sc
  · exact ⟨[], .stale hsc⟩
  · exact hlived _ acts (List.prefix_refl acts) rfl id (Arena.contains_iff.mpr ⟨sc, hsc⟩)

end

variable {st : Store} {owner : ScopeId} {name : String} {var : VarId}

-- A binding changes the scope that it is added to, and only that one.
theorem addVariable_scopes :
    ((Act.addVariable owner name var).after st).scopes = st.scopes ∨
      ((Act.addVariable owner name var).after st).scopes =
        st.scopes.modify owner fun s => { s with vars := s.vars ++ [(name, var)] } := by
  refine Along.after (R := fun st st' => st'.scopes = st.scopes ∨ st'.scopes =
    st.scopes.modify owner fun s => { s with vars := s.vars ++ [(name, var)] }) (fun st => ?_) st
  rw [Act.run, addVariable]
  split
  · exact Ensures.bind_iff.mpr (.inl rfl)
  rw [Ensures.bind_iff]
  rcases hleft : st.heap.isLeftValue var with e | flag
  · exact (readHeap_error hleft).mpr (.inl rfl)
  refine (readHeap_ok hleft).mpr ?_
  cases flag with
  | false => exact Ensures.bind_iff.mpr (.inl rfl)
  | true =>
    rw [Bool.not_true, if_neg Bool.false_ne_true, Ensures.bind_iff]
    rcases hsc : st.scope? owner with _ | sc
    · exact (readScopes_lookup_stale hsc).mpr (.inl rfl)
    refine (readScopes_lookup hsc).mpr ?_
    split
    · exact Ensures.bind_iff.mpr (.inl rfl)
    · rw [Ensures.bind_iff, updateScope_iff hsc, onHeap_iff]
      exact Ensures.trivially.mono (fun _ _ _ => .inr rfl) fun _ _ _ => .inr rfl

theorem addFunction_scopes {f : Function} :
    ((Act.addFunction owner f).after st).scopes = st.scopes ∨
      ((Act.addFunction owner f).after st).scopes =
        st.scopes.modify owner fun s => { s with funcs := s.funcs ++ [f] } := by
  refine Along.after (R := fun st st' => st'.scopes = st.scopes ∨ st'.scopes =
    st.scopes.modify owner fun s => { s with funcs := s.funcs ++ [f] }) (fun st => ?_) st
  rw [Act.run, addFunction, Ensures.bind_iff]
  rcases hsc : st.scope? owner with _ | sc
  · exact (readScopes_lookup_stale hsc).mpr (.inl rfl)
  refine (readScopes_lookup hsc).mpr ?_
  split
  · exact Ensures.bind_iff.mpr (.inl rfl)
  · exact (updateScope_iff hsc).mpr (.inr rfl)

-- After whatever has been done to the scopes, no scope lies in itself, all walks outwards end, and
-- they find what is nearest.
theorem walks_outwards (acts : List Act) (hroot : Rooted acts) (hfew : ∀ i, scopeFrees i acts < 2 ^ 32) :
    (∀ id, ¬Relation.TransGen (afterAll acts).scopes.Within id id) ∧
    ∀ id, ∃ chain, (afterAll acts).scopes.Walked id chain ∧
      (∀ owner name var wanted, Scopes.Chain.OutOfReach chain (·.varNamed? wanted) owner →
        ((Act.addVariable owner name var).after (afterAll acts)).scopes.findVariable id wanted =
          (afterAll acts).scopes.findVariable id wanted) ∧
      (∀ owner f wanted, Scopes.Chain.OutOfReach chain (·.funcNamed? wanted) owner →
        ((Act.addFunction owner f).after (afterAll acts)).scopes.findFunction id wanted =
          (afterAll acts).scopes.findFunction id wanted) := by
  have hcycle := no_cycle hroot hfew
  refine ⟨hcycle, fun id => ?_⟩
  obtain ⟨chain, hchain⟩ := exists_chain hroot hfew id
  have hw := hchain.walked hcycle (sound_scopes acts)
  refine ⟨chain, hw, fun owner name var wanted hout => ?_, fun owner f wanted hout => ?_⟩
  · rcases @addVariable_scopes (afterAll acts) owner name var with h | h
    · rw [h]
    · rw [h]
      exact hw.search_modify (fun _ => rfl) (sound_scopes acts) hout
  · rcases @addFunction_scopes (afterAll acts) owner f with h | h
    · rw [h]
    · rw [h]
      exact hw.search_modify (fun _ => rfl) (sound_scopes acts) hout

-- The last scope has the slot of its own parent, which has gone.
theorem walks_outwards_recycled :
    let acts : List Act := [.create "main" none, .createChild ⟨0, 0⟩ "block", .destroy ⟨0, 0⟩,
      .create "late" (some ⟨0, 0⟩)]
    Rooted acts ∧ (∀ i, scopeFrees i acts < 2 ^ 32) ∧
      ((afterAll acts).scope? ⟨0, 1⟩).map Scope.parent = some (some ⟨0, 0⟩) ∧
      ¬Relation.TransGen (afterAll acts).scopes.Within ⟨0, 1⟩ ⟨0, 1⟩ ∧
      ∃ chain, (afterAll acts).scopes.Walked ⟨0, 1⟩ chain := by
  intro acts
  have hroot : Rooted acts := by
    intro early name p hp
    rcases early with _ | ⟨_, _ | ⟨_, _ | ⟨_, _ | _⟩⟩⟩ <;>
      simp only [acts, List.nil_append, List.cons_append, List.cons_prefix_cons] at hp
    · simp at hp
    · simp at hp
    · simp at hp
    · obtain ⟨rfl, rfl, rfl, hact, -⟩ := hp
      cases hact
      exact ⟨[], .create "main" none, ⟨_, rfl⟩, rfl⟩
    · simpa using hp.2.2.2.2.length_le
  have hfew : ∀ i, scopeFrees i acts < 2 ^ 32 := fun i =>
    Nat.lt_of_le_of_lt (Arena.frees_le_length i) (by decide)
  obtain ⟨chain, hw, -⟩ := (walks_outwards acts hroot hfew).2 ⟨0, 1⟩
  exact ⟨hroot, hfew, rfl, (walks_outwards acts hroot hfew).1 ⟨0, 1⟩, chain, hw⟩

end Store

end FinLang

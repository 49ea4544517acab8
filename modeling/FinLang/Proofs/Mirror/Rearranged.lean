import FinLang.Proofs.Mirror.Renaming
import FinLang.Proofs.Store

namespace FinLang

namespace Arena

variable {k : HandleKind} {α β : Type} {a a' : Arena k α}

-- The same entries behind the same handles. The slots without an entry may wait
-- in another order, and may have been used more or less often.
structure Rearranged (a a' : Arena k α) : Prop where
  sound : a.Sound
  sound' : a'.Sound
  get? : ∀ x, a'.get? x = a.get? x

theorem index_coming (n : Nat) :
    (a.coming n).index = (a.free[n]?).getD (a.slots.size + (n - a.free.length)) := by
  unfold coming
  cases a.free[n]? <;> rfl

-- No slot is given out twice,
theorem coming_injective (hs : a.Sound) : Function.Injective fun n => (a.coming n).index := by
  have hvacant : ∀ {n i : Nat}, a.free[n]? = some i → i < a.slots.size := by
    intro n i hi
    obtain ⟨slot, hslot, -⟩ := (hs.mem_free i).mp (List.mem_of_getElem? hi)
    exact (Array.getElem?_eq_some_iff.mp hslot).1
  intro n n' h
  simp only [index_coming] at h
  rcases hn : a.free[n]? with _ | i <;> rcases hn' : a.free[n']? with _ | i' <;> rw [hn, hn'] at h
  · have := List.getElem?_eq_none_iff.mp hn
    have := List.getElem?_eq_none_iff.mp hn'
    simp only [Option.getD_none] at h
    omega
  · have := hvacant hn'
    simp only [Option.getD_none, Option.getD_some] at h
    omega
  · have := hvacant hn
    simp only [Option.getD_none, Option.getD_some] at h
    omega
  · obtain rfl : i = i' := h
    obtain ⟨hlt, hi⟩ := List.getElem?_eq_some_iff.mp hn
    obtain ⟨hlt', hi'⟩ := List.getElem?_eq_some_iff.mp hn'
    exact (hs.free_nodup.getElem_inj_iff).mp (hi.trans hi'.symm)

-- nor one that is in use,
theorem get?_coming (hs : a.Sound) (n : Nat) {x : Handle k} (hx : x.index = (a.coming n).index) :
    a.get? x = none := by
  rw [index_coming] at hx
  by_contra hne
  obtain ⟨e, he⟩ := Option.ne_none_iff_exists'.mp hne
  obtain ⟨slot, hslot, -, hentry⟩ := get?_eq_some_iff.mp he
  rw [hx] at hslot
  rcases hn : a.free[n]? with _ | i <;> rw [hn] at hslot
  · have := (Array.getElem?_eq_some_iff.mp hslot).1
    simp only [Option.getD_none] at this
    omega
  · obtain ⟨slot', hslot', hvacant⟩ := (hs.mem_free i).mp (List.mem_of_getElem? hn)
    cases hslot.symm.trans hslot'
    cases hentry.symm.trans hvacant

-- and every other one is, sooner or later.
theorem exists_coming (hs : a.Sound) {i : Nat} (hi : ∀ g, a.get? ⟨i, g⟩ = none) :
    ∃ n, (a.coming n).index = i := by
  by_cases hlt : i < a.slots.size
  · have hfree : i ∈ a.free := by
      refine (hs.mem_free i).mpr ⟨a.slots[i], Array.getElem?_eq_getElem hlt, ?_⟩
      simpa [get?, hlt] using hi a.slots[i].generation
    obtain ⟨n, hn⟩ := List.mem_iff_getElem?.mp hfree
    exact ⟨n, by rw [index_coming, hn]; rfl⟩
  · refine ⟨a.free.length + (i - a.slots.size), ?_⟩
    rw [index_coming, List.getElem?_eq_none (Nat.le_add_right ..)]
    simp only [Option.getD_none]
    omega

-- What is to come in one arena is matched with what is to come in the other one.
theorem Rearranged.exists_numbering (h : a.Rearranged a') :
    ∃ (index : Nat → Nat) (shift : Nat → UInt32), Function.Injective index ∧
      (∀ x e, a.get? x = some e → index x.index = x.index ∧ shift x.index = 0) ∧
      (∀ x : Handle k, a'.get? ⟨index x.index, x.generation + shift x.index⟩ = a.get? x) ∧
      ∀ n, a'.coming n =
        ⟨index (a.coming n).index, (a.coming n).generation + shift (a.coming n).index⟩ := by
  classical
  obtain ⟨place, hplace, hstay⟩ : ∃ place : Nat → Option Nat,
      (∀ n, place (a.coming n).index = some n) ∧
        ∀ i, (¬∃ n, (a.coming n).index = i) → place i = none := by
    refine ⟨fun i => if h : ∃ n, (a.coming n).index = i then some h.choose else none, fun n => ?_,
      fun i hi => dif_neg hi⟩
    have hn : ∃ n', (a.coming n').index = (a.coming n).index := ⟨n, rfl⟩
    exact (dif_pos hn).trans (congrArg some (coming_injective h.sound hn.choose_spec))
  let index (i : Nat) : Nat := (place i).elim i fun n => (a'.coming n).index
  let shift (i : Nat) : UInt32 :=
    (place i).elim 0 fun n => (a'.coming n).generation - (a.coming n).generation
  have hmove : ∀ n, index (a.coming n).index = (a'.coming n).index := fun n => by simp [index, hplace]
  have hshift : ∀ n, shift (a.coming n).index = (a'.coming n).generation - (a.coming n).generation :=
    fun n => by simp [shift, hplace]
  have hfix : ∀ {i}, (¬∃ n, (a.coming n).index = i) → index i = i ∧ shift i = 0 := fun hi => by
    simp [index, shift, hstay _ hi]
  have hused : ∀ {i}, (¬∃ n, (a.coming n).index = i) → ∀ n, (a'.coming n).index ≠ i := by
    intro i hi n hn
    refine hi (exists_coming h.sound fun g => ?_)
    rw [← h.get?]
    exact get?_coming h.sound' n hn.symm
  refine ⟨index, shift, fun i j hij => ?_, fun x e he => ?_, fun x => ?_, fun n => ?_⟩
  · by_cases hi : ∃ n, (a.coming n).index = i <;> by_cases hj : ∃ n, (a.coming n).index = j
    · obtain ⟨n, rfl⟩ := hi
      obtain ⟨n', rfl⟩ := hj
      rw [hmove, hmove] at hij
      rw [coming_injective h.sound' hij]
    · obtain ⟨n, rfl⟩ := hi
      rw [(hfix hj).1, hmove] at hij
      exact absurd hij (hused hj n)
    · obtain ⟨n, rfl⟩ := hj
      rw [(hfix hi).1, hmove] at hij
      exact absurd hij.symm (hused hi n)
    · rwa [(hfix hi).1, (hfix hj).1] at hij
  · refine hfix fun ⟨n, hn⟩ => ?_
    cases he.symm.trans (get?_coming h.sound n hn.symm)
  · by_cases hx : ∃ n, (a.coming n).index = x.index
    · obtain ⟨n, hn⟩ := hx
      rw [get?_coming h.sound n hn.symm]
      exact get?_coming h.sound' n (by rw [← hn, hmove])
    · obtain ⟨hi, hs⟩ := hfix hx
      rw [hi, hs, UInt32.add_zero, h.get?]
  · rw [hmove, hshift, UInt32.add_comm, UInt32.sub_add_cancel]

-- One renaming for both kinds of handles. It leaves those in use alone.
theorem Rearranged.exists_renaming {a a' : Arena .variable α} {b b' : Arena .scope β}
    (ha : a.Rearranged a') (hb : b.Rearranged b') :
    ∃ ρ : Renaming, (∀ x e, a.get? x = some e → ρ x = x) ∧ (∀ s e, b.get? s = some e → ρ s = s) ∧
      (∀ f : α → α, (∀ x e, a.get? x = some e → f e = e) → Mirrors ρ f a a') ∧
      ∀ f : β → β, (∀ s e, b.get? s = some e → f e = e) → Mirrors ρ f b b' := by
  obtain ⟨index, shift, hinj, hfix, hget, hcoming⟩ := ha.exists_numbering
  obtain ⟨index', shift', hinj', hfix', hget', hcoming'⟩ := hb.exists_numbering
  let ρ := Renaming.both hinj hinj' shift shift'
  have hmap : ∀ {γ : Type} {o : Option γ} {f : γ → γ}, (∀ e, o = some e → f e = e) → o.map f = o := by
    intro γ o f hf
    cases o with
    | none => rfl
    | some e => exact congrArg some (hf e rfl)
  refine ⟨ρ, fun x e he => ?_, fun s e he => ?_, fun f hf => ⟨ha.sound, ha.sound', fun x => ?_, hcoming⟩,
    fun f hf => ⟨hb.sound, hb.sound', fun s => ?_, hcoming'⟩⟩
  · obtain ⟨hi, hs⟩ := hfix x e he
    show (⟨index x.index, x.generation + shift x.index⟩ : VarId) = x
    rw [hi, hs, UInt32.add_zero]
  · obtain ⟨hi, hs⟩ := hfix' s e he
    show (⟨index' s.index, s.generation + shift' s.index⟩ : ScopeId) = s
    rw [hi, hs, UInt32.add_zero]
  · exact (hget x).trans (hmap fun e he => hf x e he).symm
  · exact (hget' s).trans (hmap fun e he => hf s e he).symm

end Arena

namespace Store

variable {st st₁ st₂ : Store} {s : ScopeId} {sc : Scope}

structure Rearranged (st st' : Store) : Prop where
  heap : st.heap.arena.Rearranged st'.heap.arena
  scopes : st.scopes.arena.Rearranged st'.scopes.arena

-- With a scope exactly those variables go that lie in what it binds.
theorem Destroyed.freed_iff (hs : st.Sound []) (hd : Destroyed st s st₁) {G : VarId → Prop}
    (hf : Heap.Freed G st.heap st₁.heap)
    (hG : ∀ x, G x → ∃ r, st.heap.OwnedBy r (.scope s) ∧ st.heap.Below r x) (x : VarId) :
    G x ↔ ∃ r, st.heap.OwnedBy r (.scope s) ∧ st.heap.Below r x := by
  refine ⟨hG x, ?_⟩
  rintro ⟨r, ⟨v, hv, ho⟩, hb⟩
  induction hb with
  | refl =>
    by_contra hg
    obtain ⟨sc, _, hsc, -⟩ := hd.sound.owned ⟨_, hf.some hg hv, ho⟩
    rw [hd.scope, if_pos rfl] at hsc
    cases hsc
  | @step p c _ hl ih =>
    by_contra hg
    obtain ⟨w, hw, how, -⟩ := hs.heap.forest.element hl
    rcases hd.sound.heap.forest.listed (hf.some hg hw) how with h | ⟨u, hu, -⟩
    · cases h
    · cases hu.symm.trans ((hf p).1 ih)

theorem Destroyed.unique (hs : st.Sound []) (h₁ : Destroyed st s st₁) (h₂ : Destroyed st s st₂) :
    st₁.Rearranged st₂ := by
  obtain ⟨G, hf, hG⟩ := h₁.freed
  obtain ⟨G', hf', hG'⟩ := h₂.freed
  obtain rfl : G = G' := funext fun x =>
    propext ((h₁.freed_iff hs hf hG x).trans (h₂.freed_iff hs hf' hG' x).symm)
  refine ⟨⟨h₁.sound.heap.forest.arena, h₂.sound.heap.forest.arena, fun x => ?_⟩,
    ⟨h₁.sound.scopes, h₂.sound.scopes, fun x => (h₂.scope x).trans (h₁.scope x).symm⟩⟩
  by_cases hg : G x
  · exact ((hf' x).1 hg).trans ((hf x).1 hg).symm
  · exact ((hf' x).2 hg).trans ((hf x).2 hg).symm

-- The order in which the bindings are freed makes no other difference.
theorem destroyIn_rearranged {order : List (String × VarId)} (hs : st.Sound [])
    (hsc : st.scope? s = some sc) (horder : order.Perm sc.vars) :
    ∃ st₁ st₂, (destroy s).run.run st = (.ok (), st₁) ∧ (destroyIn order s).run.run st = (.ok (), st₂) ∧
      st₁.Rearranged st₂ := by
  have h₁ := destroy_ensures (E := fun _ _ => False) hs hsc
  have h₂ := destroyIn_ensures (E := fun _ _ => False) hs hsc fun _ => horder.mem_iff
  unfold Ensures at h₁ h₂
  rcases hrun : (destroy s).run.run st with ⟨_ | _, st₁⟩ <;>
    rcases hrun' : (destroyIn order s).run.run st with ⟨_ | _, st₂⟩ <;> rw [hrun] at h₁ <;> rw [hrun'] at h₂
  · exact h₁.elim
  · exact h₁.elim
  · exact h₂.elim
  · exact ⟨st₁, st₂, rfl, rfl, h₁.unique hs h₂⟩

end Store

end FinLang

import FinLang.Proofs.Mirror.Heap

namespace FinLang

namespace Heap

variable {α β γ δ : Type} {ρ : Renaming} {h h' : Heap} {x y : VarId}

-- Steps that give mirrored results and leave mirrored heaps behind.
def Tracks (ρ : Renaming) (g : α → β) (m : StateM Heap α) (m' : StateM Heap β) : Prop :=
  ∀ h h', Mirrors ρ h h' → (m'.run h').1 = g (m.run h).1 ∧ Mirrors ρ (m.run h).2 (m'.run h').2

-- Failures that leave mirrored heaps behind.
def Failed (ρ : Renaming) (e e' : Failure) (h h' : Heap) : Prop :=
  e.Alike e' ∧ Mirrors ρ h h'

-- The same of operations that may fail, from two given heaps,
abbrev Agrees (ρ : Renaming) (g : α → β) (m : HeapM α) (m' : HeapM β) (h h' : Heap) : Prop :=
  Agree m m' h h' (fun a b h h' => b = g a ∧ Mirrors ρ h h') (Failed ρ)

-- and from any.
abbrev Parallel (ρ : Renaming) (g : α → β) (m : HeapM α) (m' : HeapM β) : Prop :=
  Follows (Mirrors ρ) (Failed ρ) g m m'

-- Readings leave the heaps as they are.
theorem read_agree {g : α → β} {f : Heap → Except Failure α} {f' : Heap → Except Failure β}
    {k : α → HeapM γ} {k' : β → HeapM δ} {Q : γ → δ → Heap → Heap → Prop} (hm : Mirrors ρ h h')
    (hf : Alike g (f h) (f' h'))
    (hk : ∀ a, f h = .ok a → f' h' = .ok (g a) → Agree (k a) (k' (g a)) h h' Q (Failed ρ)) :
    Agree (read f >>= k) (read f' >>= k') h h' Q (Failed ρ) := by
  unfold Agree at *
  simp only [read, Bind.bind, ExceptT.bind, ExceptT.mk, ExceptT.run, StateT.bind, StateT.run] at *
  rcases hx : f h with e | a <;> rcases hy : f' h' with e' | b <;> rw [hx, hy] at hf
  · exact ⟨hf, hm⟩
  · exact hf.elim
  · exact hf.elim
  · obtain rfl : b = g a := hf
    exact hk a hx hy

namespace Tracks

variable {g : α → β} {i : γ → δ} {m : StateM Heap α} {m' : StateM Heap β}

theorem bind {f : α → StateM Heap γ} {f' : β → StateM Heap δ} (hm : Tracks ρ g m m')
    (hf : ∀ a, Tracks ρ i (f a) (f' (g a))) : Tracks ρ i (m >>= f) (m' >>= f') := by
  intro h h' hh
  obtain ⟨hval, hh₁⟩ := hm h h' hh
  have := hf (m.run h).1 _ _ hh₁
  rw [← hval] at this
  exact this

theorem pure {a : α} {b : β} (hb : b = g a) : Tracks ρ g (Pure.pure a) (Pure.pure b) :=
  fun _ _ hm => ⟨hb, hm⟩

theorem forM {f : α → StateM Heap Unit} {f' : β → StateM Heap Unit} {j : α → β}
    (hf : ∀ a, Tracks ρ id (f a) (f' (j a))) (l : List α) :
    Tracks ρ id (l.forM f) ((l.map j).forM f') := by
  induction l with
  | nil => exact .pure rfl
  | cons a rest ih =>
    simp only [List.forM_eq_forM, List.map_cons, List.forM_cons] at ih ⊢
    exact (hf a).bind fun _ => ih

theorem forM_array {f : α → StateM Heap Unit} {f' : β → StateM Heap Unit} {j : α → β}
    (hf : ∀ a, Tracks ρ id (f a) (f' (j a))) (l : Array α) :
    Tracks ρ id (l.forM f) ((l.map j).forM f') := by
  rw [forM_toList, forM_toList, Array.toList_map]
  exact forM hf l.toList

end Tracks

section Readings

variable {g : α → β} {i : γ → δ}

theorem lift_follows {n : StateM Heap α} {n' : StateM Heap β} (hn : Tracks ρ g n n') :
    Parallel ρ g (liftM n) (liftM n') :=
  fun h h' hm => Agree.lift_iff.mpr (hn h h' hm)

theorem read_follows {f : Heap → Except Failure α} {f' : Heap → Except Failure β}
    (hf : ∀ {h h'}, Mirrors ρ h h' → Alike g (f h) (f' h')) : Parallel ρ g (read f) (read f') := by
  intro h h' hm
  have hsame := hf hm
  unfold Agree Heap.read
  simp only [ExceptT.mk, ExceptT.run, StateT.run]
  rcases hx : f h with e | a <;> rcases hy : f' h' with e' | b <;> rw [hx, hy] at hsame
  · exact ⟨hsame, hm⟩
  · exact hsame
  · exact hsame
  · exact ⟨hsame, hm⟩

theorem fail_follows {c c' : Cause} (hc : c'.kind = c.kind) :
    Parallel ρ g (fail c : HeapM α) (fail c' : HeapM β) :=
  fun _ _ hm => ⟨⟨hc, rfl⟩, hm⟩

theorem fail_bind_follows {c c' : Cause} {f : α → HeapM γ} {f' : β → HeapM δ} (hc : c'.kind = c.kind) :
    Parallel ρ i (Heap.fail c >>= f) (Heap.fail c' >>= f') :=
  fun _ _ hm => ⟨⟨hc, rfl⟩, hm⟩

end Readings

section Steps

variable {f f' : Variable → Variable} {p : Payload}

theorem insert_tracks (v : Variable) : Tracks ρ ρ.handle (insert v) (insert (v.rename ρ)) :=
  fun _ _ hm => Arena.Mirrors.insert hm

theorem modifyVariable_tracks (hf : ∀ v, f' (v.rename ρ) = (f v).rename ρ) :
    Tracks ρ id (modifyVariable x f) (modifyVariable (ρ x) f') :=
  fun _ _ hm => ⟨rfl, Arena.Mirrors.modify hm hf⟩

theorem alloc_tracks (p : Payload) : Tracks ρ ρ.handle (alloc p) (alloc (p.rename ρ)) := by
  refine (insert_tracks (.temporary p)).bind fun id => ?_
  rw [Payload.elements_rename]
  refine (Tracks.forM_array (fun c => ?_) p.elements).bind fun _ => .pure rfl
  exact modifyVariable_tracks fun _ => rfl

theorem growth_tracks (array : VarId) (flag : Bool) (n : Nat) (items : Array VarId) :
    Tracks ρ (Array.map ρ.handle) (growth array flag n items)
      (growth (ρ array) flag n (items.map ρ.handle)) := by
  induction n generalizing items with
  | zero => exact .pure rfl
  | succ n ih =>
    refine (insert_tracks (.make .null (.array array) flag)).bind fun id => ?_
    rw [← Array.map_push]
    exact ih (items.push id)

private theorem build_tracks_of {o : Owner} {flag : Bool} {v : Value}
    (hp : ∀ id, Tracks ρ (Payload.rename ρ) (buildPayload id flag v) (buildPayload (ρ id) flag v)) :
    Tracks ρ ρ.handle (build o flag v) (build (o.rename ρ) flag v) := by
  rw [build, build]
  refine (insert_tracks (.make .null o flag)).bind fun id => (hp id).bind fun p => ?_
  exact .bind (modifyVariable_tracks fun _ => rfl) fun _ => .pure rfl

mutual

theorem buildPayload_tracks (flag : Bool) : (v : Value) → ∀ id : VarId,
    Tracks ρ (Payload.rename ρ) (buildPayload id flag v) (buildPayload (ρ id) flag v)
  | .null, _ | .numeric _, _ | .string _, _ | .image _, _ => by
    rw [buildPayload, buildPayload]
    exact .pure rfl
  | .array items, id => by
    rw [buildPayload, buildPayload]
    have hitems := buildItems_tracks flag items (.array id) #[]
    rw [Array.map_empty] at hitems
    exact .bind hitems fun _ => .pure rfl

theorem buildItems_tracks (flag : Bool) : (vs : List Value) → ∀ (o : Owner) (built : Array VarId),
    Tracks ρ (Array.map ρ.handle) (buildItems o flag vs built)
      (buildItems (o.rename ρ) flag vs (built.map ρ.handle))
  | [], o, built => by
    rw [buildItems, buildItems]
    exact .pure rfl
  | v :: rest, o, built => by
    rw [buildItems, buildItems]
    refine (build_tracks_of fun id => buildPayload_tracks flag v id).bind fun id => ?_
    rw [← Array.map_push]
    exact buildItems_tracks flag rest o (built.push id)

end

theorem allocValue_tracks (v : Value) : Tracks ρ ρ.handle (allocValue v) (allocValue v) :=
  build_tracks_of fun id => buildPayload_tracks false v id

theorem update_follows (hf : ∀ v, f' (v.rename ρ) = (f v).rename ρ) :
    Parallel ρ id (update x f) (update (ρ x) f') := by
  intro h h' hm
  refine Agree.get_bind_iff.mpr ?_
  rw [hm.contains]
  refine .ite .rfl (fun _ => ?_) fun _ => ?_
  · exact lift_follows (modifyVariable_tracks hf) h h' hm
  · exact ⟨⟨rfl, rfl⟩, hm⟩

theorem setPayload_follows (p : Payload) :
    Parallel ρ id (setPayload x p) (setPayload (ρ x) (p.rename ρ)) :=
  update_follows fun _ => rfl

theorem setOwner_follows (o : Owner) :
    Parallel ρ id (setOwner x o) (setOwner (ρ x) (o.rename ρ)) :=
  update_follows fun _ => rfl

theorem setWriteProtected_follows (flag : Bool) :
    Parallel ρ id (setWriteProtected x flag) (setWriteProtected (ρ x) flag) :=
  update_follows fun _ => rfl

theorem unsetLink_follows : Parallel ρ id (unsetLink x) (unsetLink (ρ x)) := by
  refine .bind (read_follows fun hm => hm.lookup) fun v => ?_
  simp only [Variable.payload_rename]
  cases v.payload with
  | link t =>
    refine .bind (setPayload_follows .null) fun _ => lift_follows (modifyVariable_tracks fun w => ?_)
    simp [Variable.rename, List.filter_map, Function.comp_def, bne]
  | _ => exact .pure rfl

theorem setLink_follows : Parallel ρ id (setLink x y) (setLink (ρ x) (ρ y)) := by
  refine .bind (read_follows fun hm => hm.resolve) fun t => ?_
  refine .ite ρ.handle_inj (fun _ => fail_bind_follows rfl) fun _ => ?_
  refine .bind unsetLink_follows fun _ => .bind (read_follows fun hm => hm.lookup) fun v => ?_
  refine .ite (by simp) (fun _ => fail_bind_follows rfl) fun _ => ?_
  refine .bind (setPayload_follows (.link t)) fun _ => lift_follows (modifyVariable_tracks fun w => ?_)
  simp [Variable.rename]

theorem allocLink_follows : Parallel ρ ρ.handle (allocLink x) (allocLink (ρ x)) :=
  .bind (lift_follows (alloc_tracks .null)) fun _ => .bind setLink_follows fun _ => .pure rfl

end Steps

section Free

variable {E : Failure → Heap → Prop}

private theorem unsetLink_live : Ensures (unsetLink x) h
    (fun _ k => k.arena.live = h.arena.live) (fun _ k => k.arena.live = h.arena.live) := by
  rw [unsetLink, Ensures.bind_iff]
  rcases hx : h.lookup x with e | v
  · exact (read_error (f := fun h => h.lookup x) hx).mpr rfl
  refine (read_ok (f := fun h => h.lookup x) hx).mpr ?_
  split
  · rw [Ensures.bind_iff, setPayload, update_iff (lookup_eq_ok_iff.mp hx)]
    rfl
  · rfl

private theorem unlink_live (ids : List VarId) (ha : h.arena.Sound) :
    Ensures (ids.forM fun link =>
      (liftM (modifyVariable link fun l => { l with payload := .null }) : HeapM Unit)) h
      (fun _ k => k.arena.live = h.arena.live ∧ ∀ x, h.Live x → k.Live x) E := by
  refine (modify_all ?_ ids ha).mono ?_ fun _ _ he => he
  · exact fun _ => rfl
  · rintro _ k ⟨-, hl, hmap⟩
    exact ⟨hl, fun x ⟨_, hv⟩ => ⟨_, hmap.some hv⟩⟩

-- Each variable that is freed leaves fewer to be freed below it, so that the walk ends
-- before any budget that is large enough.
theorem freeWithin_agree (n n' : Nat) (hm : Mirrors ρ h h') (hn : h.arena.live < n)
    (hn' : h'.arena.live < n') :
    Agree (freeWithin n x) (freeWithin n' (ρ x)) h h'
      (fun _ _ k k' => Mirrors ρ k k' ∧ k.arena.live ≤ h.arena.live ∧ k'.arena.live ≤ h'.arena.live)
      (Failed ρ) := by
  induction n generalizing n' h h' x with
  | zero => omega
  | succ n ih =>
    obtain ⟨n', rfl⟩ := Nat.exists_eq_succ_of_ne_zero (Nat.ne_zero_of_lt hn')
    unfold freeWithin
    refine Agree.bind ((unsetLink_follows h h' hm).given unsetLink_live unsetLink_live) ?_
    rintro _ _ k k' ⟨⟨-, hk⟩, hl, hl'⟩
    refine read_agree hk hk.lookup fun v hv hv' => ?_
    have hlinks : Parallel ρ id
        (v.linkedBy.forM fun link => liftM (modifyVariable link fun l => { l with payload := .null }))
        ((v.linkedBy.map ρ.handle).forM fun link =>
          liftM (modifyVariable link fun l => { l with payload := .null })) := by
      refine .forM (j := ρ.handle) (fun _ => lift_follows ?_) _
      exact modifyVariable_tracks fun _ => rfl
    refine Agree.bind ((hlinks k k' hk).given (unlink_live (E := fun _ _ => True) _ hk.sound)
      (unlink_live (E := fun _ _ => True) _ hk.sound')) ?_
    rintro _ _ k₁ k₁' ⟨⟨-, hk₁⟩, ⟨hl₁, hlive₁⟩, hl₁', hlive₁'⟩
    obtain ⟨w, hw⟩ := hlive₁ x ⟨v, lookup_eq_ok_iff.mp hv⟩
    obtain ⟨w', hw'⟩ := hlive₁' (ρ x) ⟨_, lookup_eq_ok_iff.mp hv'⟩
    have hless := Arena.live_erase hk₁.sound hw
    have hless' := Arena.live_erase hk₁.sound' hw'
    refine Agree.bind (R := fun _ _ t t' => t = ⟨k₁.arena.erase x⟩ ∧ t' = ⟨k₁'.arena.erase (ρ x)⟩)
      (Agree.modify_iff.mpr ⟨rfl, rfl⟩) ?_
    rintro _ _ _ _ ⟨rfl, rfl⟩
    rw [Variable.payload_rename, Payload.elements_rename]
    refine (Agree.forM_array (fun _ t t' => Mirrors ρ t t' ∧ t.arena.live < h.arena.live ∧
      t'.arena.live < h'.arena.live) ?_ _ _ _ ⟨hk₁.erase, ?_, ?_⟩).mono
      (fun _ _ _ _ hq => ⟨hq.1, Nat.le_of_lt hq.2.1, Nat.le_of_lt hq.2.2⟩) fun _ _ _ _ he => he
    · rintro c rest t t' ⟨ht, hlt, hlt'⟩
      refine (ih n' ht (by omega) (by omega)).mono ?_ fun _ _ _ _ he => he
      exact fun _ _ _ _ hq => ⟨hq.1, by omega, by omega⟩
    · show (k₁.arena.erase x).live < h.arena.live
      omega
    · show (k₁'.arena.erase (ρ x)).live < h'.arena.live
      omega

theorem free_follows : Parallel ρ id (free x) (free (ρ x)) := by
  intro h h' hm
  refine Agree.get_bind_iff.mpr ((freeWithin_agree _ _ hm ?_ ?_).mono
    (fun _ _ _ _ hq => ⟨rfl, hq.1⟩) fun _ _ _ _ he => he)
  · exact Nat.lt_succ_of_le hm.sound.live_le_size
  · exact Nat.lt_succ_of_le hm.sound'.live_le_size

theorem release_follows : Parallel ρ id (release x) (release (ρ x)) := by
  intro h h' hm
  refine Agree.get_bind_iff.mpr ?_
  rw [hm.get?]
  cases h.arena.get? x with
  | none => exact Follows.pure (g := id) rfl h h' hm
  | some v =>
    exact .ite (v.owner.rename_eq_detached ρ) (fun _ => free_follows h h' hm) fun _ => ⟨rfl, hm⟩

theorem releaseAll_follows (ids : List VarId) :
    Parallel ρ id (releaseAll ids) (releaseAll (ids.map ρ.handle)) :=
  .forM (fun _ => release_follows) ids

end Free

section Flags

-- An operation that has a result.
def Succeeds (m : HeapM α) (h : Heap) : Prop :=
  Ensures m h (fun _ _ => True) fun _ _ => False

theorem Succeeds.of_ensures {m : HeapM α} {Q : α → Heap → Prop}
    (hq : Ensures m h Q fun _ _ => False) : Succeeds m h :=
  hq.mono (fun _ _ _ => trivial) fun _ _ he => he

-- A walk that succeeds does so item by item.
theorem forM_agrees {f f' : VarId → HeapM Unit} {items : Array VarId} (hm : Mirrors ρ h h')
    (hf : ∀ {c h h'}, Mirrors ρ h h' → Succeeds (f c) h → Succeeds (f' (ρ c)) h' →
      Agrees ρ id (f c) (f' (ρ c)) h h')
    (hx : Succeeds (items.forM f) h) (hy : Succeeds ((items.map ρ.handle).forM f') h') :
    Agrees ρ id (items.forM f) ((items.map ρ.handle).forM f') h h' := by
  rw [forM_toList] at hx hy
  rw [Array.toList_map] at hy
  refine (Agree.forM_array (fun rest t t' => Mirrors ρ t t' ∧ Succeeds (rest.forM f) t ∧
    Succeeds ((rest.map ρ.handle).forM f') t') ?_ _ _ _ ⟨hm, hx, hy⟩).mono
    (fun _ _ _ _ hq => ⟨rfl, hq.1⟩) fun _ _ _ _ he => he
  rintro c rest t t' ⟨ht, hc, hc'⟩
  simp only [Succeeds, List.forM_eq_forM, List.map_cons, List.forM_cons, Ensures.bind_iff] at hc hc'
  have hone := hf ht (.of_ensures hc) (.of_ensures hc')
  exact (hone.given hc hc').mono (fun _ _ _ _ hq => ⟨hq.1.2, hq.2⟩) fun _ _ _ _ he => he

-- Where both walks come to an end, the budgets do not matter.
theorem setLeftValueWithin_agrees {flag : Bool} (n n' : Nat) (hm : Mirrors ρ h h')
    (hx : Succeeds (setLeftValueWithin flag n x) h)
    (hy : Succeeds (setLeftValueWithin flag n' (ρ x)) h') :
    Agrees ρ id (setLeftValueWithin flag n x) (setLeftValueWithin flag n' (ρ x)) h h' := by
  induction n generalizing n' h h' x with
  | zero => exact hx.elim
  | succ n ih =>
    cases n' with
    | zero => exact hy.elim
    | succ n' =>
      unfold setLeftValueWithin Succeeds at hx hy
      unfold setLeftValueWithin
      rw [Ensures.bind_iff] at hx hy
      have hupdate : Parallel ρ id (update x fun v => { v with leftValue := flag })
          (update (ρ x) fun v => { v with leftValue := flag }) :=
        update_follows fun _ => rfl
      refine Agree.bind ((hupdate h h' hm).given hx hy) ?_
      rintro _ _ k k' ⟨⟨-, hk⟩, hx, hy⟩
      rw [Ensures.bind_iff] at hx hy
      refine Agree.bind ((read_follows (fun hm => hm.lookup) k k' hk).given hx hy) ?_
      rintro v _ k k' ⟨⟨rfl, hk⟩, hx, hy⟩
      rw [Variable.payload_rename, Payload.elements_rename] at hy ⊢
      exact forM_agrees hk (fun hm hc hc' => ih n' hm hc hc') hx hy

theorem setLeftValue_agrees {flag : Bool} (hm : Mirrors ρ h h') (hx : Succeeds (setLeftValue x flag) h)
    (hy : Succeeds (setLeftValue (ρ x) flag) h') :
    Agrees ρ id (setLeftValue x flag) (setLeftValue (ρ x) flag) h h' :=
  Agree.get_bind_iff.mpr (setLeftValueWithin_agrees _ _ hm hx hy)

end Flags

end Heap

end FinLang

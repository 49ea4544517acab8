import FinLang.Proofs.Heap.Elements

namespace FinLang

namespace Heap

variable {α : Type} {h h' : Heap} {loose : List VarId} {strict : Prop} {id c t : VarId}
  {v w : Variable} {p : Payload} {o : Owner} {Q : α → Heap → Prop} {E : Failure → Heap → Prop}

theorem read_resolve_stale {Q : VarId → Heap → Prop} (hl : ¬h.Live id) :
    Ensures (read (·.resolve id)) h Q E ↔ E (.of (.staleVariable id)) h :=
  read_error (f := fun h => h.resolve id) (resolve_stale hl)

theorem update_stale {f : Variable → Variable} {Q : Unit → Heap → Prop} (hl : ¬h.Live id) :
    Ensures (update id f) h Q E ↔ E (.of (.staleVariable id)) h := by
  have hc : h.contains id = false := by simpa using mt contains_iff.mp hl
  simp only [update, Ensures.bind_iff, Ensures.get_iff, hc]
  exact fail_iff

-- A link is dropped, and its target no longer knows it.
def unlinking (l t x : VarId) (v : Variable) : Variable :=
  if x = t then { v with linkedBy := v.linkedBy.filter (· != l) }
  else if x = l then { v with payload := .null }
  else v

theorem flags_unlinking {l t : VarId} (x : VarId) (v : Variable) :
    (unlinking l t x v).owner = v.owner ∧ (unlinking l t x v).leftValue = v.leftValue := by
  unfold unlinking
  split
  · exact ⟨rfl, rfl⟩
  · split <;> exact ⟨rfl, rfl⟩

theorem maps_unlinking {l t : VarId} (hne : l ≠ t) :
    Maps (unlinking l t) h ((h.change l fun v => { v with payload := .null }).change t fun v =>
      { v with linkedBy := v.linkedBy.filter (· != l) }) := by
  intro x
  rw [var?_change, var?_change]
  rcases h.var? x with _ | v
  · simp
  · by_cases hxt : x = t
    · simp [unlinking, hxt, hne.symm]
    · by_cases hxl : x = l
      · simp [unlinking, hxl, hne]
      · simp [unlinking, hxt, hxl]

-- A dropped link is one link less, whoever owns it.
theorem Sound.unlink (hs : h.Sound loose strict) (hv : h.var? id = some v)
    (hlink : v.payload = .link t) :
    ((h.change id fun v => { v with payload := .null }).change t fun v =>
      { v with linkedBy := v.linkedBy.filter (· != id) }).Sound loose strict := by
  obtain ⟨w, hw, -, hno⟩ := hs.linked.link hv hlink
  have hne : id ≠ t := by
    rintro rfl
    cases hv.symm.trans hw
    exact hno _ hlink
  have hm := maps_unlinking (h := h) hne
  have howner := @flags_unlinking id t
  have hel : ∀ {x u}, h.var? x = some u → (unlinking id t x u).payload.elements = u.payload.elements := by
    intro x u hu
    unfold unlinking
    split
    · rfl
    · split
      · subst_vars
        cases hv.symm.trans hu
        simp [hlink, Payload.elements]
      · rfl
  -- What is a link afterwards was the same link before.
  have hold : ∀ {x u y}, (unlinking id t x u).payload = .link y → u.payload = .link y ∧ (x = t ∨ x ≠ id) := by
    intro x u y hy
    unfold unlinking at hy
    split at hy
    · exact ⟨hy, .inl ‹_›⟩
    · split at hy
      · cases hy
      · exact ⟨hy, .inr ‹_›⟩
  have ha := Arena.sound_modify (Arena.sound_modify hs.forest.arena id fun v =>
    { v with payload := .null }) t fun v => { v with linkedBy := v.linkedBy.filter (· != id) }
  refine ⟨hm.forest hel hs.forest ha (fun {c w} _ _ => (howner c w).1) ?_, hm.flagged ?_,
    fun hstrict => hm.ruled ?_ ?_ ?_ ?_, hm.linked ?_ ?_ ?_⟩
  · intro p c x hl hx y hy
    obtain ⟨x', hx', -, hxno⟩ := hs.forest.element hl
    cases hx.symm.trans hx'
    exact hxno y (hold hy).1
  · intro p c x y hl hx hy
    obtain ⟨x', hx', hc⟩ := (hm.lists hel).mp hl
    cases hx.symm.trans hx'
    rw [(howner c y).2, (howner p x).2]
    exact hs.flagged.left hx hy hc
  · intro c x hx hc ho
    rw [(howner c x).2]
    exact (hs.ruled hstrict).temporary hx hc ((howner c x).1 ▸ ho)
  · intro c x hx hc ho y hy
    exact (hs.ruled hstrict).plain hx hc ((howner c x).1 ▸ ho) y (hold hy).1
  · intro c x s hx hc ho
    rw [(howner c x).2]
    exact (hs.ruled hstrict).bound hx hc ((howner c x).1 ▸ ho)
  · intro l u y x hu hl hy hx
    rw [(howner y x).2]
    exact (hs.ruled hstrict).target hu hl (hold hy).1 hx
  · intro l u y hu hy
    obtain ⟨hy, hor⟩ := hold hy
    have hli : l ≠ id := hor.elim (fun he => he ▸ hne.symm) fun he => he
    obtain ⟨x, hx, hmem, hxno⟩ := hs.linked.link hu hy
    refine ⟨x, hx, ?_, fun z hz => hxno z (hold hz).1⟩
    unfold unlinking
    split
    · exact List.mem_filter.mpr ⟨hmem, by simpa using hli⟩
    · split <;> exact hmem
  · intro y u l hu hl
    have hmem : l ∈ u.linkedBy ∧ (y = t → l ≠ id) := by
      unfold unlinking at hl
      split at hl
      · obtain ⟨hl, hne⟩ := List.mem_filter.mp hl
        exact ⟨hl, fun _ => by simpa using hne⟩
      · refine ⟨?_, fun he => absurd he ‹_›⟩
        split at hl <;> exact hl
    obtain ⟨x, hx, hy⟩ := hs.linked.linked hu hmem.1
    refine ⟨x, hx, ?_⟩
    have hli : l ≠ id := by
      rintro rfl
      cases hv.symm.trans hx
      cases hlink.symm.trans hy
      exact hmem.2 rfl rfl
    unfold unlinking
    split
    · exact hy
    · simpa [hli] using hy
  · intro y u hu
    have hnd := hs.linked.once hu
    unfold unlinking
    split
    · exact hnd.filter _
    · split <;> exact hnd

-- A handle does not depend on what is stored behind it.
theorem fresh_eq (h : Heap) (v w : Variable) : h.fresh v = h.fresh w := by
  unfold fresh Arena.insert
  split <;> rfl

theorem alloc_elements_iff {Q : VarId → Heap → Prop} :
    Ensures (liftM (alloc p) : HeapM VarId) h Q E ↔
      Ensures (p.elements.toList.forM fun c => (liftM (modifyVariable c fun v =>
          { v with owner := .array (h.fresh (.temporary p)) }) : HeapM Unit))
        (h.added (.temporary p)) (fun _ h' => Q (h.fresh (.temporary p)) h') E := by
  rw [← Ensures.lift_forM_iff, ← List.forM_toArray, Array.toArray_toList]
  rfl

-- Several roots may be treated as loose together.
theorem Sound.loosenAll (hs : h.Sound loose strict) (ids : List VarId) (hnd : ids.Nodup)
    (hr : ∀ x ∈ ids, h.Root x ∧ x ∉ loose) : h.Sound (ids ++ loose) strict := by
  induction ids with
  | nil => exact hs
  | cons x rest ih =>
    obtain ⟨hx, hnd⟩ := List.nodup_cons.mp hnd
    obtain ⟨hroot, hout⟩ := hr x (List.mem_cons_self ..)
    exact (ih hnd fun y hy => hr y (List.mem_cons_of_mem _ hy)).loosen hroot (by simp [hx, hout])

-- However the operation ends, the heap holds together.
def Robust (x : HeapM α) (h : Heap) : Prop :=
  Ensures x h (fun _ h' => h'.Sound [] False) fun _ h' => h'.Sound [] False

-- A variable that a new array may have as an element.
def Fresh (h : Heap) (c : VarId) : Prop :=
  ∃ w, h.var? c = some w ∧ w.owner = .detached ∧ (∀ t, w.payload ≠ .link t) ∧ w.leftValue = false

namespace Robust

variable (hs : h.Sound [] False)
include hs

private theorem of_step {x : HeapM α} {T : α → VarId → Prop}
    (hx : Ensures x h (fun a h' => Step (fun _ => False) (T a) [] h h' False) (Refused h)) :
    Robust x h :=
  hx.mono (fun _ _ hstep => hstep.sound) fun _ _ he => he.1 ▸ hs

-- What begins at a stale handle changes nothing.
private theorem of_read {β : Type} {f : Heap → VarId → Except Failure β} {k : β → HeapM α}
    (hf : ∀ {e}, h.resolve id = .error e → f h id = .error e)
    (hlive : ∀ t w, h.Stands id t w → Robust (read (fun h => f h id) >>= k) h) :
    Robust (read (fun h => f h id) >>= k) h := by
  by_cases hl : h.Live id
  · obtain ⟨t, w, hst⟩ := hs.stands hl
    exact hlive t w hst
  · unfold Robust
    rw [Ensures.bind_iff]
    exact (read_error (f := fun h => f h id) (hf (resolve_stale hl))).mpr hs

private theorem of_resolve {k : VarId → HeapM α}
    (hlive : ∀ t w, h.Stands id t w → Robust (read (·.resolve id) >>= k) h) :
    Robust (read (·.resolve id) >>= k) h :=
  of_read (f := Heap.resolve) hs (fun he => he) hlive

private theorem of_writable {k : VarId × Variable → HeapM α}
    (hlive : ∀ t w, h.Stands id t w → Robust (read (·.writable id) >>= k) h) :
    Robust (read (·.writable id) >>= k) h :=
  of_read (f := Heap.writable) hs (fun he => by simp [Heap.writable, he, bind, Except.bind]) hlive

private theorem of_toValue {k : Value → HeapM α}
    (hlive : ∀ t w, h.Stands id t w → Robust (read (·.toValue id) >>= k) h) :
    Robust (read (·.toValue id) >>= k) h :=
  of_read (f := Heap.toValue) hs (fun he => by
    simp [Heap.toValue, walkBudget, toValueWithin, payload, he, bind, Except.bind]) hlive

private theorem of_update {f : Variable → Variable} (hf : h.Live id → (h.change id f).Sound [] False) :
    Robust (update id f) h := by
  unfold Robust
  by_cases hl : h.Live id
  · obtain ⟨v, hv⟩ := hl
    exact (update_iff hv).mpr (hf ⟨v, hv⟩)
  · exact (update_stale hl).mpr hs

theorem alloc (hp : ∀ t, p ≠ .link t) (hnd : p.elements.toList.Nodup)
    (hc : ∀ c ∈ p.elements, h.Fresh c) : Robust (liftM (alloc p) : HeapM VarId) h := by
  obtain ⟨id, hid⟩ : ∃ id, h.fresh (.temporary p) = id := ⟨_, rfl⟩
  have hid' : h.fresh (.temporary .null) = id := (fresh_eq h _ _).trans hid
  -- Null first, then the elements, which name their new owner already.
  have hadded := hs.forest.var?_added
  have hnone : h.var? id = none := hid ▸ hs.forest.var?_fresh _
  have hs₁ : (h.added (.temporary .null)).Sound [id] False := by
    have := hs.insert (v := .temporary .null) rfl nofun rfl
    rwa [hid'] at this
  have hnew := hadded (.temporary .null)
  have hold : ∀ {x w}, h.var? x = some w → (h.added (.temporary .null)).var? x = some w := by
    intro x w hw
    rw [hnew, hid', if_neg, hw]
    rintro rfl
    cases hnone.symm.trans hw
  have hself := hnew id
  rw [if_pos hid'.symm] at hself
  have hlists : ∀ {x y}, (h.added (.temporary .null)).Lists x y → h.Lists x y := by
    rintro x y ⟨w, hw, hin⟩
    rw [hnew] at hw
    split at hw
    · cases hw
      simp [Variable.temporary, Variable.make, Payload.elements] at hin
    · exact ⟨w, hw, hin⟩
  have hroot : ∀ x ∈ p.elements.toList, (h.added (.temporary .null)).Root x ∧ x ∉ [id] := by
    intro x hx
    obtain ⟨w, hw, ho, -⟩ := hc x (Array.mem_toList_iff.mp hx)
    have hr := hs.forest.root_of_owner hw (by simp [ho])
    refine ⟨⟨⟨w, hold hw⟩, fun y hl => hr.2 y (hlists hl)⟩, ?_⟩
    rw [List.mem_singleton]
    rintro rfl
    cases hnone.symm.trans hw
  have hs₂ := hs₁.loosenAll p.elements.toList hnd hroot
  have hids : id ∉ p.elements.toList := fun hin => (hroot id hin).2 (List.mem_singleton_self id)
  obtain ⟨-, h₁, ha₁, -, hm₁⟩ := (modify_all (E := fun _ _ => False)
    (f := fun v => { v with owner := .array id }) (fun _ => rfl) p.elements.toList
    hs₂.forest.arena).exists_ok
  have hs₃ : h₁.Sound (p.elements.toList ++ [id]) False := by
    refine hs₂.maps ha₁ hm₁ fun x v => ?_
    by_cases hx : x ∈ p.elements.toList <;> simp [hx]
  have hself₁ := hm₁.some hself
  rw [if_neg hids] at hself₁
  have hs₄ : (h₁.change id fun v => { v with payload := p }).Sound [id] False := by
    refine hs₃.change_payload hself₁ nofun hp hnd (fun x hx => .inr ?_) (by simp) fun x => ?_
    · have hx := Array.mem_toList_iff.mpr hx
      obtain ⟨w, hw, -, hno, hl⟩ := hc x (Array.mem_toList_iff.mp hx)
      have hw₁ := hm₁.some (hold hw)
      rw [if_pos hx] at hw₁
      refine ⟨List.mem_append_left _ hx, fun hb => hids ?_, _, hw₁, rfl, hl, hno⟩
      exact (hb.eq_of_root (hs₃.forest.loose_root (by simp)).2) ▸ hx
    · have hnull : (Variable.temporary .null).payload.elements = #[] := rfl
      rw [Array.mem_toList_iff] at hids
      simp only [hnull, List.mem_append, List.mem_singleton, Array.not_mem_empty, or_false,
        Array.mem_toList_iff]
      grind
  have hs₅ : (h₁.change id fun v => { v with payload := p }).Sound [] False :=
    hs₄.tighten ((var?_change _ _).trans ((if_pos rfl).trans (by rw [hself₁]; rfl))) (by
      simp [Variable.temporary, Variable.make]) False.elim False.elim False.elim
  refine alloc_elements_iff.2 ?_
  rw [hid]
  refine (modify_all (f := fun v => { v with owner := .array id }) (fun _ => rfl)
    p.elements.toList (Arena.sound_insert hs.forest.arena _)).mono ?_ fun _ _ he => he
  rintro _ h' ⟨ha', -, hm'⟩
  refine hs₅.congr ha' fun x => ?_
  rw [hm' x, hadded, var?_change, hm₁ x, hnew, hid, hid']
  by_cases hx : x = id
  · subst hx
    simp [hids, Variable.temporary, Variable.make]
  · simp [hx]

theorem allocValue (value : Value) : Robust (liftM (allocValue value) : HeapM VarId) h :=
  (allocValue_ensures (K := fun _ => False) value hs nofun).mono (fun _ _ ht => ht.step.sound)
    fun _ _ he => he

theorem allocLink : Robust (allocLink id) h := by
  by_cases hl : h.Live id
  · obtain ⟨t, w, hst⟩ := hs.stands hl
    refine (allocLink_ensures hs closed_nothing hst nofun).mono ?_ fun _ _ he => he
    rintro l h' ⟨hstep, -, ⟨v, hv, ho⟩, -⟩
    exact hstep.sound.tighten hv (by simp [ho]) nofun nofun nofun
  · have ht := temporary_added (K := fun _ => False) (p := .null) hs nofun rfl (by simp)
    have hvar := hs.forest.var?_added (.temporary .null) id
    rw [Robust, Heap.allocLink, Ensures.bind_iff]
    refine (alloc_iff (p := .null) rfl).mpr ?_
    rw [Ensures.bind_iff, setLink, Ensures.bind_iff]
    -- A stale handle may come to life as that of the link itself.
    by_cases he : id = h.fresh (.temporary .null)
    · rw [if_pos he] at hvar
      refine (read_ok (f := fun h => h.resolve id) (resolve_eq_self hvar fun _ hl => by cases hl)).mpr ?_
      rw [if_pos he, Ensures.bind_iff]
      exact fail_iff.mpr ht.step.sound
    · rw [if_neg he] at hvar
      have hstale : ¬(h.added (.temporary .null)).Live id := by
        rintro ⟨v, hv⟩
        exact hl ⟨v, hvar ▸ hv⟩
      rw [read_resolve_stale hstale]
      exact ht.step.sound

theorem setOwner (hid : ∀ p, ¬h.Lists p id) (ho : ∀ p, o ≠ .array p) : Robust (setOwner id o) h := by
  refine of_update hs fun ⟨v, hv⟩ => ?_
  have hs₁ := (hs.loosen ⟨⟨v, hv⟩, hid⟩ (by simp)).change_owner (o := o) (List.mem_cons_self ..)
  exact hs₁.tighten ((maps_change _).some hv) (by simpa using ho) nofun nofun nofun

theorem setWriteProtected {flag : Bool} : Robust (setWriteProtected id flag) h :=
  of_update hs fun _ => hs.change_protected

theorem setLeftValue {flag : Bool} (hid : ∀ p, ¬h.Lists p id) : Robust (setLeftValue id flag) h := by
  by_cases hl : h.Live id
  · obtain ⟨v, hv⟩ := hl
    refine (setLeftValue_ensures hs.forest.arena (hs.forest.within ⟨v, hv⟩)).mono ?_ fun _ _ he => he
    rintro _ h' ⟨ha, hm⟩
    have hs₁ := (hs.loosen ⟨⟨v, hv⟩, hid⟩ (by simp)).marked ha hm hv (List.mem_cons_self ..) nofun
    refine hs₁.tighten (hm.some hv) ?_ nofun nofun nofun
    rw [owner_marking]
    exact hs.forest.owner_of_root ⟨⟨v, hv⟩, hid⟩ hv
  · rw [Robust, Heap.setLeftValue, Ensures.bind_iff, Ensures.get_iff, walkBudget, setLeftValueWithin,
      Ensures.bind_iff, update_stale hl]
    exact hs

theorem setType {tag : VarType} : Robust (setType id tag) h := by
  refine of_writable hs fun t w hst => ?_
  rw [Robust, Ensures.bind_iff]
  refine (read_writable (Q := fun x h' => h' = h ∧ x = (t, w)) hst fun _ => ⟨rfl, rfl⟩).mono ?_
    fun _ _ he => he.1 ▸ hs
  rintro _ _ ⟨rfl, rfl⟩
  simp only
  split
  · exact hs
  split
  · rw [Ensures.bind_iff]
    exact fail_iff.mpr hs
  rename_i hnull
  split
  · rename_i q hq
    have hplain : q.elements = #[] ∧ ∀ u, q ≠ .link u := by
      cases tag <;> cases hq <;> simp [Payload.elements]
    refine (update_iff hst.var).mpr (hs.set_plain hst.var hst.no_link ?_ hplain.1 hplain.2)
    exact Payload.elements_of_varType fun hw => hnull (by simp [hw])
  · exact fail_iff.mpr hs

theorem setScalar (hp : p.varType ≠ .array) (hl : ∀ u, p ≠ .link u) : Robust (setScalar id p) h :=
  of_writable hs fun _ _ hst =>
    of_step hs ((setScalar_ensures (K := fun _ => False) hs closed_nothing nofun hst hp hl).mono
      (fun _ _ hw => hw.step) fun _ _ he => he)

theorem element {i : Nat} : Robust (element id i) h :=
  of_resolve hs fun _ _ hst =>
    of_step hs ((element_ensures (K := fun _ => False) hs closed_nothing hst nofun).mono
      (fun _ _ hr => hr.step) fun _ _ he => he)

theorem pushElement (hc : ∃ v, h.var? c = some v ∧ v.owner = .detached ∧ ∀ t, v.payload ≠ .link t)
    (hout : ∀ t, h.resolve id = .ok t → ¬h.Below c t) : Robust (pushElement id c) h := by
  obtain ⟨v, hv, hvo, hvl⟩ := hc
  refine of_resolve hs fun t w hst => ?_
  have hself : h.Stands t t w := .self hst.var hst.no_link
  rw [Robust, Ensures.bind_iff, read_resolve_iff hst, Ensures.bind_iff]
  refine (read_writable (Q := fun x h' => h' = h ∧ x = (t, w)) hself fun _ => ⟨rfl, rfl⟩).mono ?_
    fun _ _ he => he.1 ▸ hs
  rintro _ _ ⟨rfl, rfl⟩
  have hattach := attach_ensures (K := fun _ => False)
    (E := fun _ h' => h'.Sound [] False) hs closed_nothing hst.var hst.no_link nofun hv hvo hvl nofun
    (hout t hst.resolve)
  simp only
  split
  · exact hattach.mono (fun _ _ hq => hq.1.sound) fun _ _ he => he
  · exact hattach.mono (fun _ _ hq => hq.1.sound) fun _ _ he => he
  · exact fail_iff.mpr hs

theorem detachElement {i : Nat}
    (hleft : ∀ t w, h.resolve id = .ok t → h.var? t = some w → w.leftValue = false) :
    Robust (detachElement id i) h := by
  refine of_resolve hs fun t w hst => ?_
  rcases hi : w.payload.elements[i]? with _ | c
  · rw [Robust, Ensures.bind_iff, read_resolve_iff hst, Ensures.bind_iff, read_lookup_iff hst.var, hi]
    exact fail_iff.mpr hs
  · exact (detachElement_ensures (K := fun _ => False) hs closed_nothing hst nofun
      (hleft t w hst.resolve hst.var) hi).mono (fun _ _ hq => hq.2.1.sound) fun _ _ he => he

theorem unsetLink : Robust (unsetLink id) h := by
  unfold Robust
  by_cases hl : h.Live id
  · obtain ⟨v, hv⟩ := hl
    by_cases hlink : ∃ t, v.payload = .link t
    · obtain ⟨t, hlink⟩ := hlink
      exact (unsetLink_iff_of_link hv hlink).mpr (hs.unlink hv hlink)
    · exact (unsetLink_iff_of_no_link hv fun t ht => hlink ⟨t, ht⟩).mpr hs
  · rw [Heap.unsetLink, Ensures.bind_iff]
    exact (read_error (f := fun h => h.lookup id) (lookup_stale hl)).mpr hs

theorem free (hid : ∀ p, ¬h.Lists p id) : Robust (free id) h := by
  by_cases hl : h.Live id
  · exact (free_ensures (hs.loosen ⟨hl, hid⟩ (by simp))).mono (fun _ _ hq => hq.1) fun _ _ he => he
  · rw [Robust, Heap.free, Ensures.bind_iff, Ensures.get_iff, walkBudget, freeWithin, Ensures.bind_iff,
      Heap.unsetLink, Ensures.bind_iff]
    exact (read_error (f := fun h => h.lookup id) (lookup_stale hl)).mpr hs

theorem release : Robust (release id) h := by
  by_cases hd : h.Detached id
  · obtain ⟨v, hv, ho⟩ := hd
    rw [Robust, Heap.release, Ensures.bind_iff, Ensures.get_iff]
    simp only [show h.arena.get? id = some v from hv, ho, if_true]
    exact free hs (hs.forest.root_of_detached ⟨v, hv, ho⟩).2
  · exact (release_of_not_detached hd).mpr hs

theorem copy {source : VarId} : Robust (copy id source) h := by
  refine of_resolve hs fun t w hst => ?_
  by_cases hl : h.Live source
  · obtain ⟨t', w', hst'⟩ := hs.stands hl
    exact of_step hs ((copy_ensures (K := fun _ => False) hs closed_nothing nofun hst hst').mono
      (fun _ _ hw => hw.step) fun _ _ he => he)
  · rw [Robust, Ensures.bind_iff, read_resolve_iff hst, Ensures.bind_iff, read_resolve_stale hl]
    exact hs

theorem moveOrCopy {source : VarId}
    (hleft : ∀ t w, h.resolve id = .ok t → h.var? t = some w → w.leftValue = true) :
    Robust (moveOrCopy id source) h := by
  refine of_resolve hs fun g u hst' => ?_
  by_cases hl : h.Live id
  · obtain ⟨t, w, hst⟩ := hs.stands hl
    exact of_step hs ((moveOrCopy_ensures (K := fun _ => False) hs closed_nothing nofun nofun hst hst'
      (hleft t w hst.resolve hst.var)).mono (fun _ _ hw => hw.step) fun _ _ he => he)
  · rw [Robust, Ensures.bind_iff, read_resolve_iff hst', Ensures.bind_iff, read_lookup_iff hst'.var]
    split
    · exact copy hs
    · rw [Ensures.bind_iff, read_resolve_stale hl]
      exact hs

theorem duplicate : Robust (duplicate id) h :=
  of_toValue hs fun _ _ hst =>
    (duplicate_ensures (K := fun _ => False) hs nofun hst.live).mono (fun _ _ ht => ht.step.sound)
      fun _ _ he => he

end Robust

end Heap

end FinLang

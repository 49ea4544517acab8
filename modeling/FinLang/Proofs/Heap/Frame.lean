import FinLang.Proofs.Heap.Free

namespace FinLang

-- Failures that neither a lost handle nor the shape of the tree brings about.
def Cause.Ordinary (c : Cause) : Prop :=
  c.kind ≠ .missingValue ∧ c.kind ≠ .readError

namespace Heap

-- What a handle that is passed around stands for: a temporary or a left-value.
def Held (h : Heap) (id : VarId) : Prop :=
  ∃ v, h.var? id = some v ∧ (v.owner = .detached ∨ v.leftValue = true)

-- A constant of a scope.
def Frozen (h : Heap) (id : VarId) : Prop :=
  ∃ v, h.var? id = some v ∧ v.writeProtected = true ∧ (∃ s, v.owner = .scope s) ∧
    ∃ n, v.payload = .numeric n

-- A variable keeps its owner and its flags.
def Stays (h h' : Heap) (id : VarId) : Prop :=
  ∀ v, h.var? id = some v → ∃ w, h'.var? id = some w ∧ w.owner = v.owner ∧
    w.leftValue = v.leftValue ∧ w.writeProtected = v.writeProtected

-- What an operation may do that has to leave the variables of a set alone: the
-- scopes own what they owned, and of temporaries only the given ones are new.
structure Step (K T : VarId → Prop) (loose : List VarId) (h h' : Heap) (strict : Prop := True) :
    Prop where
  sound : h'.Sound loose strict
  keeps : Keeps K h h'
  bound : ∀ x s, h'.OwnedBy x (.scope s) ↔ h.OwnedBy x (.scope s)
  detached : ∀ x, h'.Detached x → h.Detached x ∨ T x

-- A failure that has changed nothing.
def Refused (h : Heap) (e : Failure) (h' : Heap) : Prop :=
  h' = h ∧ e.cause.Ordinary

variable {h h' h'' : Heap} {loose loose' loose'' : List VarId} {strict : Prop}
  {K T T' G : VarId → Prop} {id p c x : VarId} {v w : Variable} {o : Owner}

theorem ownedBy_iff (hv : h.var? id = some v) : h.OwnedBy id o ↔ v.owner = o := by
  unfold OwnedBy
  rw [hv]
  simp

theorem Held.live (hh : h.Held id) : h.Live id :=
  hh.imp fun _ hv => hv.1

theorem Frozen.live (hf : h.Frozen id) : h.Live id :=
  hf.imp fun _ hv => hv.1

theorem Frozen.not_detached (hf : h.Frozen id) : ¬h.Detached id := by
  obtain ⟨v, hv, -, ⟨s, ho⟩, -⟩ := hf
  rw [Detached, ownedBy_iff hv, ho]
  exact Owner.noConfusion

theorem Keeps.frozen (hk : Keeps K h h') (hx : K x) : h'.Frozen x ↔ h.Frozen x := by
  unfold Frozen
  rw [hk x hx]

theorem Keeps.ownedBy (hk : Keeps K h h') (hx : K x) : h'.OwnedBy x o ↔ h.OwnedBy x o := by
  unfold OwnedBy
  rw [hk x hx]

theorem Keeps.live (hk : Keeps K h h') (hx : K x) : h'.Live x ↔ h.Live x := by
  unfold Live
  rw [hk x hx]

theorem Stays.refl : Stays h h x :=
  fun v hv => ⟨v, hv, rfl, rfl, rfl⟩

theorem Stays.trans (h₁ : Stays h h' x) (h₂ : Stays h' h'' x) : Stays h h'' x := by
  intro v hv
  obtain ⟨w, hw, ho, hl, hp⟩ := h₁ v hv
  obtain ⟨u, hu, ho', hl', hp'⟩ := h₂ w hw
  exact ⟨u, hu, ho'.trans ho, hl'.trans hl, hp'.trans hp⟩

theorem Freed.stays (hf : Freed G h h') (hx : ¬G x) : Stays h h' x :=
  fun _ hv => ⟨_, hf.some hx hv, rfl, rfl, rfl⟩

theorem Maps.stays {f : VarId → Variable → Variable} (hm : Maps f h h')
    (hf : ∀ v, (f x v).owner = v.owner ∧ (f x v).leftValue = v.leftValue ∧
      (f x v).writeProtected = v.writeProtected) : Stays h h' x :=
  fun _ hv => ⟨_, hm.some hv, hf _⟩

theorem stays_change_payload {q : Payload} :
    Stays h (h.change p fun v => { v with payload := q }) x :=
  (maps_change _).stays fun v => by by_cases hx : x = p <;> simp [hx]

-- Trees and links do not grow out of a set that is left alone, nor into it.
theorem Closed.keeps_of (hc : h.Closed K) (hs : h.Sound loose strict) (hout : ∀ c ∈ loose, ¬K c)
    (hs' : h'.Sound loose' strict) (hk : Keeps K h h') : h'.Closed K where
  live hx := (hk.live hx).mpr (hc.live hx)
  element {p c} hl := by
    constructor
    · intro hx
      obtain ⟨w, hw, ho, -⟩ := hs'.forest.element hl
      rw [hk c hx] at hw
      rcases hs.forest.listed hw ho with hin | hl
      · exact absurd hx (hout c hin)
      · exact (hc.element hl).mp hx
    · intro hx
      obtain ⟨v, hv, hin⟩ := hl
      rw [hk p hx] at hv
      exact (hc.element ⟨v, hv, hin⟩).mpr hx
  link {l v t} hv ht := by
    constructor
    · intro hx
      rw [hk l hx] at hv
      exact (hc.link hv ht).mp hx
    · intro hx
      obtain ⟨w, hw, hin, -⟩ := hs'.linked.link hv ht
      rw [hk t hx] at hw
      obtain ⟨u, hu, hlink⟩ := hs.linked.linked hw hin
      exact (hc.link hu hlink).mpr hx

theorem Closed.keeps (hc : h.Closed K) (hs : h.Sound [] strict) (hs' : h'.Sound loose strict)
    (hk : Keeps K h h') : h'.Closed K :=
  hc.keeps_of hs (by simp) hs' hk

theorem Freed.keeps (hf : Freed G h h') (hc : h.Closed K) (hs : h.Linked)
    (hG : ∀ x, G x → ¬K x) : Keeps K h h' := by
  intro x hx
  obtain ⟨v, hv⟩ := hc.live hx
  rw [hf.some (fun hg => hG x hg hx) hv, hv]
  have hpay : v.payload.without G = v.payload := by
    refine Payload.without_eq_self fun t ht hg => ?_
    exact hG t hg ((hc.link hv ht).mp hx)
  have hby : (v.without G).linkedBy = v.linkedBy := by
    refine Variable.linkedBy_without_eq_self fun l hl hg => ?_
    obtain ⟨w, hw, hlink⟩ := hs.linked hv hl
    exact hG l hg ((hc.link hw hlink).mpr hx)
  rw [Variable.without_eq hpay hby]

namespace Step

theorem refl (hs : h.Sound loose strict) : Step K T loose h h strict :=
  ⟨hs, .refl, fun _ _ => .rfl, fun _ => .inl⟩

theorem trans (h₁ : Step K T loose h h' strict) (h₂ : Step K T' loose' h' h'' strict) :
    Step K (fun x => T x ∨ T' x) loose' h h'' strict where
  sound := h₂.sound
  keeps := h₁.keeps.trans h₂.keeps
  bound x s := (h₂.bound x s).trans (h₁.bound x s)
  detached x hx := by
    rcases h₂.detached x hx with hx | hx
    · exact (h₁.detached x hx).imp_right .inl
    · exact .inr (.inr hx)

theorem mono (h₁ : Step K T loose h h' strict) (ht : ∀ x, T x → T' x) : Step K T' loose h h' strict :=
  { h₁ with detached := fun x hx => (h₁.detached x hx).imp_right (ht x) }

theorem seq (h₁ : Step K T loose h h' strict) (h₂ : Step K T loose' h' h'' strict) : Step K T loose' h h'' strict :=
  (h₁.trans h₂).mono fun _ => or_self_iff.mp

theorem congr (h₁ : Step K T loose h h' strict) (ha : h''.arena.Sound)
    (hv : ∀ x, h''.var? x = h'.var? x) : Step K T loose h h'' strict := by
  have howned : ∀ x o, h''.OwnedBy x o ↔ h'.OwnedBy x o := by
    intro x o
    unfold OwnedBy
    rw [hv x]
  exact ⟨h₁.sound.congr ha hv, fun x hx => (hv x).trans (h₁.keeps x hx),
    fun x s => (howned x _).trans (h₁.bound x s), fun x hx => h₁.detached x ((howned x _).mp hx)⟩

-- Changes that leave all owners alone.
theorem of_maps {f : VarId → Variable → Variable} (hs : h'.Sound loose strict) (hm : Maps f h h')
    (hK : ∀ x v, K x → h.var? x = some v → f x v = v)
    (ho : ∀ x v, h.var? x = some v → (f x v).owner = v.owner) : Step K T loose h h' strict := by
  have howned : ∀ x o, h'.OwnedBy x o ↔ h.OwnedBy x o := by
    intro x o
    rcases hv : h.var? x with _ | v
    · simp [OwnedBy, hm x, hv]
    · rw [ownedBy_iff (hm.some hv), ownedBy_iff hv, ho x v hv]
  refine ⟨hs, fun x hx => ?_, fun x s => howned x _, fun x hx => .inl ((howned x _).mp hx)⟩
  rw [hm x]
  rcases hv : h.var? x with _ | u
  · rfl
  · simp [hK x u hx hv]

theorem change {f : Variable → Variable} (hs : (h.change p f).Sound loose strict) (hp : ¬K p)
    (ho : ∀ v, (f v).owner = v.owner) : Step K T loose h (h.change p f) strict := by
  refine of_maps hs (maps_change f) (fun x v hx _ => if_neg ?_) fun x v _ => ?_
  · rintro rfl
    exact hp hx
  · by_cases hx : x = p <;> simp [hx, ho]

-- A variable gets another owner, which is no scope.
theorem change_owner (hs : (h.change p fun v => { v with owner := o }).Sound loose strict) (hp : ¬K p)
    (hv : h.var? p = some v) (hold : ∀ s, v.owner ≠ .scope s) (hnew : ∀ s, o ≠ .scope s)
    (ht : o = .detached → T p) : Step K T loose h (h.change p fun v => { v with owner := o }) strict := by
  have howned : ∀ x o', x ≠ p →
      ((h.change p fun v => { v with owner := o }).OwnedBy x o' ↔ h.OwnedBy x o') := by
    intro x o' hx
    unfold OwnedBy
    rw [var?_change, if_neg hx]
  have hp' : (h.change p fun v => { v with owner := o }).var? p = some { v with owner := o } := by
    rw [var?_change, if_pos rfl, hv]
    rfl
  refine ⟨hs, fun x hx => ?_, fun x s => ?_, fun x hx => ?_⟩
  · rw [var?_change, if_neg]
    rintro rfl
    exact hp hx
  · by_cases hx : x = p
    · subst hx
      rw [ownedBy_iff hp', ownedBy_iff hv]
      simp [hold, hnew]
    · exact howned x _ hx
  · by_cases he : x = p
    · subst he
      rw [Detached, ownedBy_iff hp'] at hx
      exact .inr (ht hx)
    · exact .inl ((howned x _ he).mp hx)

theorem insert (hs : h.Forest loose) (hs' : (h.added v).Sound loose' strict)
    (hK : ∀ x, K x → h.Live x) (hv : ∀ s, v.owner ≠ .scope s)
    (ht : v.owner = .detached → T (h.fresh v)) : Step K T loose' h (h.added v) strict := by
  have hold : ∀ {x}, h.Live x → (h.added v).var? x = h.var? x := by
    rintro x ⟨w, hw⟩
    rw [hs.var?_added, if_neg]
    rintro rfl
    rw [hs.var?_fresh] at hw
    cases hw
  have howned : ∀ {x o}, (h.added v).OwnedBy x o → h.OwnedBy x o ∨ x = h.fresh v ∧ v.owner = o := by
    rintro x o ⟨w, hw, ho⟩
    rw [hs.var?_added] at hw
    split at hw
    · cases hw
      exact .inr ⟨‹_›, ho⟩
    · exact .inl ⟨w, hw, ho⟩
  refine ⟨hs', fun x hx => hold (hK x hx), fun x s => ⟨fun hx => ?_, fun hx => ?_⟩, fun x hx => ?_⟩
  · exact (howned hx).resolve_right fun he => hv s he.2
  · obtain ⟨w, hw, ho⟩ := hx
    exact ⟨w, (hold ⟨w, hw⟩).trans hw, ho⟩
  · refine (howned hx).imp_right ?_
    rintro ⟨rfl, ho⟩
    exact ht ho

theorem freed (hs' : h'.Sound loose strict) (hf : Freed G h h') (hc : h.Closed K) (hs : h.Linked)
    (hG : ∀ x, G x → ¬K x) (hscope : ∀ x s, G x → ¬h.OwnedBy x (.scope s)) :
    Step K T loose h h' strict := by
  have howned : ∀ {x o}, h'.OwnedBy x o ↔ ¬G x ∧ h.OwnedBy x o := by
    intro x o
    constructor
    · rintro ⟨w, hw, ho⟩
      obtain ⟨hx, v, hv, rfl⟩ := hf.of_some hw
      exact ⟨hx, v, hv, ho⟩
    · rintro ⟨hx, v, hv, ho⟩
      exact ⟨_, hf.some hx hv, ho⟩
  refine ⟨hs', hf.keeps hc hs hG, fun x s => ?_, fun x hx => .inl (howned.mp hx).2⟩
  rw [howned]
  exact ⟨And.right, fun hx => ⟨fun hg => hscope x s hg hx, hx⟩⟩

end Step

-- The variables in a temporary are no left-values.
theorem Sound.not_held_of_below (hs : h.Sound []) (hd : h.Detached id) (hb : h.Below id x)
    (hx : h.Held x) : x = id := by
  obtain ⟨v, hv, ho⟩ := hd
  obtain ⟨w, hw, hh⟩ := hx
  have hleft := hs.flagged.below hb hv hw
  rw [hs.rules.temporary hv (by simp) ho] at hleft
  have howner : w.owner = .detached := by
    rcases hh with hh | hh
    · exact hh
    · rw [hleft] at hh
      cases hh
  exact hb.eq_of_root (hs.forest.root_of_owner hw (by simp [howner])).2

theorem Sound.not_scope_of_below (hs : h.Sound loose strict) (hd : h.Detached id) (hb : h.Below id x)
    (s : ScopeId) : ¬h.OwnedBy x (.scope s) := by
  rintro ⟨w, hw, ho⟩
  have := hb.eq_of_root (hs.forest.root_of_owner hw (by simp [ho])).2
  subst this
  rw [Detached, ownedBy_iff hw, ho] at hd
  cases hd

theorem Closed.or {J : VarId → Prop} (hk : h.Closed K) (hj : h.Closed J) :
    h.Closed fun x => K x ∨ J x where
  live hx := hx.elim hk.live hj.live
  element hl := or_congr (hk.element hl) (hj.element hl)
  link hv ht := or_congr (hk.link hv ht) (hj.link hv ht)

theorem Closed.exists {ι : Type} {I : ι → Prop} {F : ι → VarId → Prop}
    (hF : ∀ i, I i → h.Closed (F i)) : h.Closed fun x => ∃ i, I i ∧ F i x where
  live := fun ⟨i, hi, hx⟩ => (hF i hi).live hx
  element hl := exists_congr fun i => and_congr_right fun hi => (hF i hi).element hl
  link hv ht := exists_congr fun i => and_congr_right fun hi => (hF i hi).link hv ht

-- No link leads into a temporary or out of it.
theorem Sound.closed_below (hs : h.Sound []) (hd : h.Detached id) : h.Closed (h.Below id) where
  live hb := hb.live hs.forest (hs.forest.root_of_detached hd).1
  element {p c} hl := by
    refine ⟨fun hb => ?_, fun hb => hb.step hl⟩
    rcases hb with _ | ⟨hb, hl'⟩
    · exact absurd hl ((hs.forest.root_of_detached hd).2 p)
    · exact hs.forest.parent_unique hl' hl ▸ hb
  link {l v t} hv ht := by
    obtain ⟨u, hu, ho⟩ := hd
    constructor
    · intro hb
      -- Neither a temporary nor an element is a link.
      rcases hb with _ | ⟨-, hl⟩
      · cases hv.symm.trans hu
        exact absurd ht (hs.rules.plain hv (by simp) ho t)
      · obtain ⟨w, hw, -, hno⟩ := hs.forest.element hl
        cases hv.symm.trans hw
        exact absurd ht (hno t)
    · intro hb
      -- A link points to a left-value.
      obtain ⟨w, hw, -⟩ := hs.linked.link hv ht
      have hleft := hs.rules.target hv (by simp) ht hw
      rw [hs.flagged.below hb hu hw, hs.rules.temporary hu (by simp) ho] at hleft
      cases hleft

theorem Stays.held (hs : Stays h h' x) (hh : h.Held x) : h'.Held x := by
  obtain ⟨v, hv, hh⟩ := hh
  obtain ⟨w, hw, ho, hl, -⟩ := hs v hv
  exact ⟨w, hw, ho ▸ hl ▸ hh⟩

theorem Stays.ownedBy (hs : Stays h h' x) (hx : h.OwnedBy x o) : h'.OwnedBy x o := by
  obtain ⟨v, hv, rfl⟩ := hx
  obtain ⟨w, hw, ho, -⟩ := hs v hv
  exact ⟨w, hw, ho⟩

-- What has an owner, or has gone, is left as it is.
theorem release_of_not_detached {Q : Unit → Heap → Prop} {E : Failure → Heap → Prop}
    (hd : ¬h.Detached id) : Ensures (release id) h Q E ↔ Q () h := by
  rw [release, Ensures.bind_iff, Ensures.get_iff]
  rcases hv : h.arena.get? id with _ | v
  · exact Ensures.pure_iff
  · simp only
    rw [if_neg fun ho => hd ⟨v, hv, ho⟩]
    exact Ensures.pure_iff

-- Only a temporary and what lies in it is freed.
theorem release_ensures {E : Failure → Heap → Prop} (hs : h.Sound []) (hc : h.Closed K)
    (hk : h.Detached id → ¬K id) :
    Ensures (release id) h
      (fun _ h' => Step K (fun _ => False) [] h h' ∧ ¬h'.Detached id ∧
        ∀ x, h.Held x → x ≠ id → Stays h h' x) E := by
  by_cases hd : h.Detached id
  · obtain ⟨v, hv, ho⟩ := hd
    have hd : h.Detached id := ⟨v, hv, ho⟩
    rw [release, Ensures.bind_iff, Ensures.get_iff]
    simp only [show h.arena.get? id = some v from hv, ho, if_true]
    have hloose := hs.loosen (hs.forest.root_of_detached hd) (by simp)
    refine (free_ensures hloose).mono ?_ fun _ _ he => he
    rintro _ h' ⟨hs', G, hf, hG, hbelow⟩
    refine ⟨.freed hs' hf hc hs.linked ?_ fun x s hx => hs.not_scope_of_below hd (hbelow x hx) s,
      ?_, fun x hx hne => hf.stays fun hg => hne ?_⟩
    · exact fun x hx => mt (hc.below (hbelow x hx)).mp (hk hd)
    · rintro ⟨w, hw, -⟩
      rw [(hf id).1 hG] at hw
      cases hw
    · exact hs.not_held_of_below hd (hbelow x hg) hx
  · exact (release_of_not_detached hd).mpr ⟨.refl hs, hd, fun _ _ _ => .refl⟩

theorem releaseAll_ensures {E : Failure → Heap → Prop} (ids : List VarId) (hs : h.Sound [])
    (hc : h.Closed K) (hk : ∀ id ∈ ids, h.Detached id → ¬K id) :
    Ensures (releaseAll ids) h
      (fun _ h' => Step K (fun _ => False) [] h h' ∧ (∀ id ∈ ids, ¬h'.Detached id) ∧
        ∀ x, h.Held x → x ∉ ids → Stays h h' x) E := by
  unfold releaseAll
  induction ids generalizing h with
  | nil => exact ⟨.refl hs, by simp, fun _ _ _ => .refl⟩
  | cons id rest ih =>
    simp only [List.forM_eq_forM, List.forM_cons] at ih ⊢
    rw [Ensures.bind_iff]
    refine (release_ensures hs hc (hk id (List.mem_cons_self ..))).mono ?_ fun _ _ he => he
    rintro _ h₁ ⟨hstep, hnd, hheld⟩
    have hold : ∀ x, h₁.Detached x → h.Detached x :=
      fun x hx => (hstep.detached x hx).resolve_right False.elim
    refine (ih hstep.sound (hc.keeps hs hstep.sound hstep.keeps) fun x hx hd =>
      hk x (List.mem_cons_of_mem _ hx) (hold x hd)).mono ?_ fun _ _ he => he
    rintro _ h₂ ⟨hstep', hnd', hheld'⟩
    refine ⟨hstep.seq hstep', fun x hx hd => ?_, fun x hx hne => ?_⟩
    · rcases List.mem_cons.mp hx with rfl | hx
      · exact hnd ((hstep'.detached x hd).resolve_right False.elim)
      · exact hnd' x hx hd
    · obtain ⟨hne, hrest⟩ := not_or.mp (mt List.mem_cons.mpr hne)
      have hstay := hheld x hx hne
      exact hstay.trans (hheld' x (hstay.held hx) hrest)

theorem Maps.within {f : VarId → Variable → Variable} {n : Nat} (hm : Maps f h h')
    (hel : ∀ {x v}, h.var? x = .some v → (f x v).payload.elements = v.payload.elements)
    (hw : h.Within n id) : h'.Within n id := by
  induction n generalizing id with
  | zero => exact hw
  | succ n ih =>
    obtain ⟨v, hv, hc⟩ := hw
    exact ⟨_, hm.some hv, fun c hin => ih (hc c (hel hv ▸ hin))⟩

theorem setLeftValueWithin_ensures {flag : Bool} {E : Failure → Heap → Prop} (n : Nat)
    (ha : h.arena.Sound) (hw : h.Within n id) :
    Ensures (setLeftValueWithin flag n id) h
      (fun _ h' => h'.arena.Sound ∧ Maps (marking (h.Below id) flag) h h') E := by
  induction n generalizing h id with
  | zero => exact hw.elim
  | succ n ih =>
    obtain ⟨v, hv, hel⟩ := hw
    have hpay {G : VarId → Prop} : ∀ {x v}, h.var? x = some v →
        (marking G flag x v).payload.elements = v.payload.elements :=
      fun _ => by rw [payload_marking]
    -- The variable itself has been marked, and all that lies in the first
    -- elements.
    let I : List VarId → Heap → Prop := fun rest h' =>
      h'.arena.Sound ∧ (∀ c ∈ rest, c ∈ v.payload.elements) ∧
        ∃ G, Maps (marking G flag) h h' ∧ (∀ x, G x → h.Below id x) ∧ G id ∧
          ∀ c ∈ v.payload.elements, c ∈ rest ∨ ∀ x, h.Below c x → G x
    have hI : I v.payload.elements.toList (h.change id fun v => { v with leftValue := flag }) := by
      refine ⟨Arena.sound_modify ha _ _, fun c hc => Array.mem_toList_iff.mp hc, (· = id), ?_,
        fun x hx => hx ▸ .refl, rfl, fun c hc => .inl (Array.mem_toList_iff.mpr hc)⟩
      intro x
      rw [maps_change _ x]
      congr 1
      funext u
      by_cases hx : x = id <;> simp [marking, hx]
    unfold setLeftValueWithin
    rw [Ensures.bind_iff, update_iff hv, Ensures.bind_iff, read_lookup_iff (by
      rw [var?_change, if_pos rfl, hv]; rfl)]
    refine (Ensures.forM_array I ?_ _ _ hI).mono ?_ fun _ _ he => he
    · rintro c rest h₁ ⟨ha₁, hrest, G, hm, hG, hid, hdone⟩
      have hc := hrest c (List.mem_cons_self ..)
      refine (ih ha₁ (hm.within hpay (hel c hc))).mono ?_ fun _ _ he => he
      rintro _ h₂ ⟨ha₂, hm₂⟩
      refine ⟨ha₂, fun c hc => hrest c (List.mem_cons_of_mem _ hc), fun x => G x ∨ h.Below c x,
        ?_, ?_, .inl hid, ?_⟩
      · intro x
        rw [hm₂ x, hm x, Option.map_map]
        congr 1
        funext u
        have hbelow : h₁.Below c x ↔ h.Below c x := hm.below hpay
        by_cases hx : G x <;> by_cases hx' : h.Below c x <;>
          simp [marking, hx, hx', hbelow]
      · rintro x (hx | hx)
        · exact hG x hx
        · exact (Below.refl.step ⟨v, hv, hc⟩).trans hx
      · intro d hd
        rcases hdone d hd with hin | hin
        · rcases List.mem_cons.mp hin with rfl | hin
          · exact .inr fun x hx => .inr hx
          · exact .inl hin
        · exact .inr fun x hx => .inl (hin x hx)
    · rintro _ h₁ ⟨ha₁, -, G, hm, hG, hid, hdone⟩
      have hiff : ∀ x, G x ↔ h.Below id x := by
        refine fun x => ⟨hG x, fun hb => ?_⟩
        rcases hb.head with rfl | ⟨c, ⟨u, hu, hc⟩, hb⟩
        · exact hid
        · rw [hv] at hu
          cases hu
          exact (hdone c hc).resolve_left (by simp) x hb
      have : G = h.Below id := funext fun x => propext (hiff x)
      exact ⟨ha₁, this ▸ hm⟩

theorem setLeftValue_ensures {flag : Bool} {E : Failure → Heap → Prop} (ha : h.arena.Sound)
    (hw : h.Within h.walkBudget id) :
    Ensures (setLeftValue id flag) h
      (fun _ h' => h'.arena.Sound ∧ Maps (marking (h.Below id) flag) h h') E := by
  rw [setLeftValue, Ensures.bind_iff, Ensures.get_iff]
  exact setLeftValueWithin_ensures _ ha hw

end Heap

end FinLang

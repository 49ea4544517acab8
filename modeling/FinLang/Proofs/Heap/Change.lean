import FinLang.Proofs.Heap.Ownership
import FinLang.Store.Heap.Write

namespace FinLang

namespace Heap

abbrev change (h : Heap) (id : VarId) (f : Variable → Variable) : Heap :=
  ⟨h.arena.modify id f⟩

-- The second heap has the variables of the first one, each changed in its way.
def Maps (f : VarId → Variable → Variable) (h h' : Heap) : Prop :=
  ∀ x, h'.var? x = (h.var? x).map (f x)

variable {h h' : Heap} {loose loose' : List VarId} {strict : Prop} {K : VarId → Prop}
  {id p c top : VarId} {v w : Variable}

theorem var?_change (f : Variable → Variable) (x : VarId) :
    (h.change id f).var? x = if x = id then (h.var? x).map f else h.var? x :=
  Arena.get?_modify id x f

-- A change is what it does to the one variable.
theorem var?_change_congr {f g : Variable → Variable} (hv : h.var? id = some v) (hfg : f v = g v)
    (x : VarId) : (h.change id f).var? x = (h.change id g).var? x := by
  rw [var?_change, var?_change]
  split
  · subst_vars
    rw [hv]
    exact congrArg some hfg
  · rfl

theorem maps_change (f : Variable → Variable) :
    Maps (fun x v => if x = id then f v else v) h (h.change id f) := by
  intro x
  rw [var?_change]
  split
  · subst_vars
    simp
  · simp [*]

namespace Maps

variable {f : VarId → Variable → Variable}

theorem of_some (hm : Maps f h h') (hw : h'.var? c = some w) :
    ∃ v, h.var? c = some v ∧ w = f c v := by
  rw [hm] at hw
  obtain ⟨v, hv, rfl⟩ := Option.map_eq_some_iff.mp hw
  exact ⟨v, hv, rfl⟩

theorem some (hm : Maps f h h') (hv : h.var? c = .some v) : h'.var? c = .some (f c v) := by
  rw [hm, hv]
  rfl

theorem live (hm : Maps f h h') : h'.Live c ↔ h.Live c := by
  constructor
  · rintro ⟨w, hw⟩
    obtain ⟨v, hv, -⟩ := hm.of_some hw
    exact ⟨v, hv⟩
  · rintro ⟨v, hv⟩
    exact ⟨_, hm.some hv⟩

-- As many variables are live.
theorem live_eq (hm : Maps f h h') (ha : h.arena.Sound) (ha' : h'.arena.Sound) :
    h'.arena.live = h.arena.live := by
  rw [← ha.length_handles]
  exact ha'.live_eq_length Arena.nodup_handles fun x => Arena.mem_handles.trans hm.live.symm

theorem flagged (hm : Maps f h h')
    (hleft : ∀ {p c v w}, h'.Lists p c → h.var? p = .some v → h.var? c = .some w →
      (f c w).leftValue = (f p v).leftValue) : h'.Flagged where
  left hp hw hc := by
    obtain ⟨v, hv, rfl⟩ := hm.of_some hp
    obtain ⟨w, hw', rfl⟩ := hm.of_some hw
    exact hleft ⟨_, hp, hc⟩ hv hw'

theorem ruled (hm : Maps f h h')
    (htemporary : ∀ {c w}, h.var? c = .some w → c ∉ loose → (f c w).owner = .detached →
      (f c w).leftValue = false)
    (hplain : ∀ {c w}, h.var? c = .some w → c ∉ loose → (f c w).owner = .detached →
      ∀ t, (f c w).payload ≠ .link t)
    (hbound : ∀ {c w s}, h.var? c = .some w → c ∉ loose → (f c w).owner = .scope s →
      (f c w).leftValue = true)
    (htarget : ∀ {l v t w}, h.var? l = .some v → l ∉ loose → (f l v).payload = .link t →
      h.var? t = .some w → (f t w).leftValue = true) : h'.Ruled loose where
  temporary hu hc ho := by
    obtain ⟨w, hw, rfl⟩ := hm.of_some hu
    exact htemporary hw hc ho
  plain hu hc ho := by
    obtain ⟨w, hw, rfl⟩ := hm.of_some hu
    exact hplain hw hc ho
  bound hu hc ho := by
    obtain ⟨w, hw, rfl⟩ := hm.of_some hu
    exact hbound hw hc ho
  target hu hl ht hw := by
    obtain ⟨v, hv, rfl⟩ := hm.of_some hu
    obtain ⟨w, hw', rfl⟩ := hm.of_some hw
    exact htarget hv hl ht hw'

-- A target does not lose its flag.
theorem aimed (hm : Maps f h h') (ha : h.Aimed id)
    (hf : ∀ x v, (f x v).payload = v.payload ∧ (v.leftValue = true → (f x v).leftValue = true)) :
    h'.Aimed id := by
  intro v t w hv ht hw
  obtain ⟨v, hv', rfl⟩ := hm.of_some hv
  obtain ⟨w, hw', rfl⟩ := hm.of_some hw
  exact (hf t w).2 (ha v t w hv' ((hf id v).1 ▸ ht) hw')

theorem linked (hm : Maps f h h')
    (hlink : ∀ {l v t}, h.var? l = .some v → (f l v).payload = .link t →
      ∃ w, h.var? t = .some w ∧ l ∈ (f t w).linkedBy ∧ ∀ u, (f t w).payload ≠ .link u)
    (hlinked : ∀ {t w l}, h.var? t = .some w → l ∈ (f t w).linkedBy →
      ∃ v, h.var? l = .some v ∧ (f l v).payload = .link t)
    (honce : ∀ {t w}, h.var? t = .some w → (f t w).linkedBy.Nodup) : h'.Linked where
  link hu ht := by
    obtain ⟨v, hv, rfl⟩ := hm.of_some hu
    obtain ⟨w, hw, h₁⟩ := hlink hv ht
    exact ⟨_, hm.some hw, h₁⟩
  linked hu hl := by
    obtain ⟨w, hw, rfl⟩ := hm.of_some hu
    obtain ⟨v, hv, h₁⟩ := hlinked hw hl
    exact ⟨_, hm.some hv, h₁⟩
  once hu := by
    obtain ⟨w, hw, rfl⟩ := hm.of_some hu
    exact honce hw

section

variable (hm : Maps f h h')
  (hel : ∀ {x v}, h.var? x = .some v → (f x v).payload.elements = v.payload.elements)

include hm hel

theorem lists : h'.Lists p c ↔ h.Lists p c := by
  constructor
  · rintro ⟨w, hw, hc⟩
    obtain ⟨v, hv, rfl⟩ := hm.of_some hw
    exact ⟨v, hv, hel hv ▸ hc⟩
  · rintro ⟨v, hv, hc⟩
    exact ⟨_, hm.some hv, (hel hv).symm ▸ hc⟩

theorem root : h'.Root c ↔ h.Root c := by
  simp only [Root, hm.live, hm.lists hel]

theorem below : h'.Below top c ↔ h.Below top c := by
  constructor
  · intro hb
    induction hb with
    | refl => exact .refl
    | step _ hl ih => exact ih.step ((hm.lists hel).mp hl)
  · intro hb
    induction hb with
    | refl => exact .refl
    | step _ hl ih => exact ih.step ((hm.lists hel).mpr hl)

theorem depth {n : Nat} (hd : h.Depth c n) : h'.Depth c n := by
  induction hd with
  | root hr => exact .root ((hm.root hel).mpr hr)
  | element _ hl ih => exact ih.element ((hm.lists hel).mpr hl)

-- With elements as before, only owners and links have to be looked at again.
theorem forest (hs : h.Forest loose) (ha : h'.arena.Sound)
    (howner : ∀ {c w}, h.var? c = .some w → c ∉ loose → (f c w).owner = w.owner)
    (hlink : ∀ {p c w}, h.Lists p c → h.var? c = .some w → ∀ t, (f c w).payload ≠ .link t) :
    h'.Forest loose where
  arena := ha
  element {p c} hl := by
    have hl := (hm.lists hel).mp hl
    obtain ⟨w, hw, ho, -⟩ := hs.element hl
    have hc : c ∉ loose := fun hc => (hs.loose_root hc).2 p hl
    exact ⟨_, hm.some hw, (howner hw hc).trans ho, hlink hl hw⟩
  nodup hw := by
    obtain ⟨v, hv, rfl⟩ := hm.of_some hw
    exact (hel hv).symm ▸ hs.nodup hv
  listed {c u p} hu ho := by
    obtain ⟨w, hw, rfl⟩ := hm.of_some hu
    by_cases hc : c ∈ loose
    · exact .inl hc
    · rw [hm.lists hel]
      exact hs.listed hw (howner hw hc ▸ ho)
  loose_nodup := hs.loose_nodup
  loose_root hc := (hm.root hel).mpr (hs.loose_root hc)
  depth hc := by
    obtain ⟨n, hd⟩ := hs.depth (hm.live.mp hc)
    exact ⟨n, hm.depth hel hd⟩

end

end Maps

theorem maps_id (hv : ∀ x, h'.var? x = h.var? x) : Maps (fun _ v => v) h h' :=
  fun x => by rw [hv x, Option.map_id']

theorem Forest.congr (hs : h.Forest loose) (ha : h'.arena.Sound) (hv : ∀ x, h'.var? x = h.var? x) :
    h'.Forest loose := by
  refine (maps_id hv).forest (fun _ => rfl) hs ha (fun _ _ => rfl) fun hl hw => ?_
  obtain ⟨w', hw', -, hno⟩ := hs.element hl
  exact Option.some.inj (hw.symm.trans hw') ▸ hno

namespace Sound

-- Soundness is a matter of what is seen through handles.
theorem congr (hs : h.Sound loose strict) (ha : h'.arena.Sound) (hv : ∀ x, h'.var? x = h.var? x) :
    h'.Sound loose strict := by
  have hm := maps_id hv
  refine ⟨hs.forest.congr ha hv, hm.flagged ?_, fun hstrict => hm.ruled ?_ ?_ ?_ ?_,
    hm.linked ?_ ?_ ?_⟩
  · intro p c v w hl hx hy
    obtain ⟨v', hv', hc⟩ := (hm.lists fun _ => rfl).mp hl
    rw [hx] at hv'
    cases hv'
    exact hs.flagged.left hx hy hc
  · exact fun hw hc ho => (hs.ruled hstrict).temporary hw hc ho
  · exact fun hw hc ho => (hs.ruled hstrict).plain hw hc ho
  · exact fun hw hc ho => (hs.ruled hstrict).bound hw hc ho
  · exact fun hv hl ht hw => (hs.ruled hstrict).target hv hl ht hw
  · exact fun hv ht => hs.linked.link hv ht
  · exact fun hw hl => hs.linked.linked hw hl
  · exact fun hw => hs.linked.once hw

-- The order of the loose variables does not matter.
theorem perm (hs : h.Sound loose strict) (hp : loose.Perm loose') : h.Sound loose' strict :=
  { hs with
    forest :=
      { hs.forest with
        listed := fun hw ho => (hs.forest.listed hw ho).imp_left hp.mem_iff.mp
        loose_nodup := hp.nodup hs.forest.loose_nodup
        loose_root := fun hc => hs.forest.loose_root (hp.mem_iff.mpr hc) }
    ruled := fun hstrict =>
      { hs.ruled hstrict with
        temporary := fun hw hc ho => (hs.ruled hstrict).temporary hw (fun h => hc (hp.mem_iff.mp h)) ho
        plain := fun hw hc ho => (hs.ruled hstrict).plain hw (fun h => hc (hp.mem_iff.mp h)) ho
        bound := fun hw hc ho => (hs.ruled hstrict).bound hw (fun h => hc (hp.mem_iff.mp h)) ho
        target := fun hv hl => (hs.ruled hstrict).target hv fun h => hl (hp.mem_iff.mp h) } }

-- A root may be treated as loose.
theorem loosen (hs : h.Sound loose strict) (hr : h.Root id) (hn : id ∉ loose) : h.Sound (id :: loose) strict :=
  { hs with
    forest :=
      { hs.forest with
        listed := fun hw ho => (hs.forest.listed hw ho).imp_left (List.mem_cons_of_mem _)
        loose_nodup := List.nodup_cons.mpr ⟨hn, hs.forest.loose_nodup⟩
        loose_root := fun hc => by
          rcases List.mem_cons.mp hc with rfl | hc
          · exact hr
          · exact hs.forest.loose_root hc }
    ruled := fun hstrict =>
      { hs.ruled hstrict with
        temporary := fun hw hc ho =>
          (hs.ruled hstrict).temporary hw (fun h => hc (List.mem_cons_of_mem _ h)) ho
        plain := fun hw hc ho => (hs.ruled hstrict).plain hw (fun h => hc (List.mem_cons_of_mem _ h)) ho
        bound := fun hw hc ho => (hs.ruled hstrict).bound hw (fun h => hc (List.mem_cons_of_mem _ h)) ho
        target := fun hv hl => (hs.ruled hstrict).target hv fun h => hl (List.mem_cons_of_mem _ h) } }

-- A loose variable that names no array and has the flag of its owner is none
-- any more.
theorem tighten (hs : h.Sound (id :: loose) strict) (hv : h.var? id = some v)
    (ho : ∀ p, v.owner ≠ .array p)
    (hdetached : strict → v.owner = .detached → v.leftValue = false ∧ ∀ t, v.payload ≠ .link t)
    (hscope : strict → ∀ s, v.owner = .scope s → v.leftValue = true)
    (htarget : strict → h.Aimed id) : h.Sound loose strict :=
  { hs with
    forest :=
      { hs.forest with
        listed := fun {c w p} hw how => by
          rcases hs.forest.listed hw how with hc | hl
          · rcases List.mem_cons.mp hc with rfl | hc
            · rw [hv] at hw
              cases hw
              exact absurd how (ho p)
            · exact .inl hc
          · exact .inr hl
        loose_nodup := (List.nodup_cons.mp hs.forest.loose_nodup).2
        loose_root := fun hc => hs.forest.loose_root (List.mem_cons_of_mem _ hc) }
    ruled := fun hstrict =>
      { hs.ruled hstrict with
        temporary := fun {c w} hw hc how => by
          by_cases he : c = id
          · subst he
            rw [hv] at hw
            cases hw
            exact (hdetached hstrict how).1
          · exact (hs.ruled hstrict).temporary hw (by simp [he, hc]) how
        plain := fun {c w} hw hc how => by
          by_cases he : c = id
          · subst he
            rw [hv] at hw
            cases hw
            exact (hdetached hstrict how).2
          · exact (hs.ruled hstrict).plain hw (by simp [he, hc]) how
        bound := fun {c w s} hw hc how => by
          by_cases he : c = id
          · subst he
            rw [hv] at hw
            cases hw
            exact hscope hstrict s how
          · exact (hs.ruled hstrict).bound hw (by simp [he, hc]) how
        target := fun {l u t w} hu hl ht hw => by
          by_cases he : l = id
          · subst he
            exact htarget hstrict u t w hu ht hw
          · exact (hs.ruled hstrict).target hu (by simp [he, hl]) ht hw } }

-- Changes of owners and write protection leave contents, flags and links as
-- they are. Owners change where they are not looked at.
theorem maps {f : VarId → Variable → Variable} (hs : h.Sound loose strict) (ha : h'.arena.Sound)
    (hm : Maps f h h')
    (hf : ∀ x v, (f x v).payload = v.payload ∧ (f x v).leftValue = v.leftValue ∧
      (f x v).linkedBy = v.linkedBy ∧ (x ∉ loose → (f x v).owner = v.owner)) :
    h'.Sound loose strict := by
  have hel : ∀ {x v}, h.var? x = some v → (f x v).payload.elements = v.payload.elements :=
    fun {x v} _ => by rw [(hf x v).1]
  refine ⟨hm.forest hel hs.forest ha (fun {c w} _ hc => (hf c w).2.2.2 hc) ?_,
    hm.flagged ?_, fun hstrict => hm.ruled ?_ ?_ ?_ ?_, hm.linked ?_ ?_ ?_⟩
  · intro p c w hl hw
    obtain ⟨w', hw', -, hno⟩ := hs.forest.element hl
    rw [hw] at hw'
    cases hw'
    rw [(hf c w).1]
    exact hno
  · intro p c v w hl hx hy
    obtain ⟨v', hv', hc⟩ := (hm.lists hel).mp hl
    rw [hx] at hv'
    cases hv'
    rw [(hf c w).2.1, (hf p v).2.1]
    exact hs.flagged.left hx hy hc
  · intro c w hw hc ho
    rw [(hf c w).2.1]
    exact (hs.ruled hstrict).temporary hw hc ((hf c w).2.2.2 hc ▸ ho)
  · intro c w hw hc ho
    rw [(hf c w).1]
    exact (hs.ruled hstrict).plain hw hc ((hf c w).2.2.2 hc ▸ ho)
  · intro c w s hw hc ho
    rw [(hf c w).2.1]
    exact (hs.ruled hstrict).bound hw hc ((hf c w).2.2.2 hc ▸ ho)
  · intro l v t w hv hl ht hw
    rw [(hf l v).1] at ht
    rw [(hf t w).2.1]
    exact (hs.ruled hstrict).target hv hl ht hw
  · intro l v t hv ht
    rw [(hf l v).1] at ht
    obtain ⟨w, hw, h₁⟩ := hs.linked.link hv ht
    refine ⟨w, hw, ?_⟩
    rw [(hf t w).1, (hf t w).2.2.1]
    exact h₁
  · intro t w l hw hl
    rw [(hf t w).2.2.1] at hl
    obtain ⟨v, hv, h₁⟩ := hs.linked.linked hw hl
    refine ⟨v, hv, ?_⟩
    rw [(hf l v).1]
    exact h₁
  · intro t w hw
    rw [(hf t w).2.2.1]
    exact hs.linked.once hw

-- The owner of a loose variable changes.
theorem change_owner {o : Owner} (hs : h.Sound loose strict) (hc : id ∈ loose) :
    (h.change id fun v => { v with owner := o }).Sound loose strict := by
  refine hs.maps (Arena.sound_modify hs.forest.arena _ _) (maps_change _) fun x v => ?_
  by_cases hx : x = id
  · subst hx
    simp [hc]
  · simp [hx]

theorem change_protected {flag : Bool} (hs : h.Sound loose strict) :
    (h.change id fun v => { v with writeProtected := flag }).Sound loose strict := by
  refine hs.maps (Arena.sound_modify hs.forest.arena _ _) (maps_change _) fun x v => ?_
  by_cases hx : x = id <;> simp [hx]

end Sound

theorem lists_change_payload {q : Payload} (hv : h.var? p = some v) {x : VarId} :
    (h.change p fun v => { v with payload := q }).Lists x c ↔
      if x = p then c ∈ q.elements else h.Lists x c := by
  unfold Lists
  rw [var?_change]
  split
  · subst_vars
    simp [hv]
  · rfl

-- Elements are taken into an array from the loose variables or out of it to
-- become loose.
theorem Forest.change_payload {q : Payload} (hs : h.Forest loose)
    (hv : h.var? p = some v) (hq : ∀ t, q ≠ .link t) (hnodup : q.elements.toList.Nodup)
    (hmem : ∀ c ∈ q.elements, c ∈ v.payload.elements ∨
      c ∈ loose ∧ ¬h.Below c p ∧ ∃ w, h.var? c = some w ∧ w.owner = .array p ∧
        ∀ t, w.payload ≠ .link t)
    (hnd : loose'.Nodup)
    (hloose : ∀ c, c ∈ loose' ↔ (c ∈ loose ∨ c ∈ v.payload.elements) ∧ c ∉ q.elements) :
    (h.change p fun v => { v with payload := q }).Forest loose' := by
  have hlists {x c : VarId} := lists_change_payload (q := q) (c := c) hv (x := x)
  have hlive : ∀ {x}, (h.change p fun v => { v with payload := q }).Live x ↔ h.Live x := by
    intro x
    unfold Live
    rw [var?_change]
    split <;> simp_all
  have hroot : ∀ {c}, c ∈ loose' → ∀ x, ¬(h.change p fun v => { v with payload := q }).Lists x c := by
    intro c hc x hl
    obtain ⟨hc, hnq⟩ := (hloose c).mp hc
    rw [hlists] at hl
    split at hl
    · exact hnq hl
    · rename_i hne
      rcases hc with hc | hc
      · exact (hs.loose_root hc).2 x hl
      · exact hne (hs.parent_unique hl ⟨v, hv, hc⟩)
  -- The arrays around the changed one stay around it.
  have habove : ∀ {a n}, h.Depth a n → h.Below a p →
      ∃ m, (h.change p fun v => { v with payload := q }).Depth a m := by
    intro a n hd
    induction hd with
    | @root a hr =>
      intro hb
      refine ⟨0, .root ⟨hlive.mpr hr.1, fun x hl => ?_⟩⟩
      rw [hlists] at hl
      split at hl
      · rcases hmem a hl with he | ⟨-, hnb, -⟩
        · exact hr.2 p ⟨v, hv, he⟩
        · exact hnb hb
      · exact hr.2 x hl
    | @element b a n hd hl ih =>
      intro hb
      obtain ⟨m, hm⟩ := ih ((Below.refl.step hl).trans hb)
      have hne : b ≠ p := by
        rintro rfl
        exact hs.not_below_of_lists hl hb
      exact ⟨m + 1, hm.element (by rw [hlists, if_neg hne]; exact hl)⟩
  obtain ⟨n, hn⟩ := hs.depth ⟨v, hv⟩
  obtain ⟨m, hm⟩ := habove hn .refl
  have hdepth : ∀ {x n}, h.Depth x n →
      ∃ m, (h.change p fun v => { v with payload := q }).Depth x m := by
    intro x n hd
    induction hd with
    | @root x hr =>
      by_cases hx : x ∈ q.elements
      · exact ⟨m + 1, hm.element (by rw [hlists, if_pos rfl]; exact hx)⟩
      · refine ⟨0, .root ⟨hlive.mpr hr.1, fun y hl => ?_⟩⟩
        rw [hlists] at hl
        split at hl
        · exact hx hl
        · exact hr.2 y hl
    | @element b x n hd hl ih =>
      obtain ⟨k, hk⟩ := ih
      by_cases hb : b = p
      · subst hb
        by_cases hx : x ∈ q.elements
        · exact ⟨k + 1, hk.element (by rw [hlists, if_pos rfl]; exact hx)⟩
        · obtain ⟨w, hw, -⟩ := hs.element hl
          refine ⟨0, .root ⟨hlive.mpr ⟨w, hw⟩, fun y hl' => ?_⟩⟩
          rw [hlists] at hl'
          split at hl'
          · exact hx hl'
          · rename_i hne
            exact hne (hs.parent_unique hl' hl)
      · exact ⟨k + 1, hk.element (by rw [hlists, if_neg hb]; exact hl)⟩
  -- A listed variable is no link, so it is another one than a changed link.
  have helem : ∀ {x c}, (h.change p fun v => { v with payload := q }).Lists x c →
      ∃ w, h.var? c = some w ∧ w.owner = .array x ∧ ∀ t, w.payload ≠ .link t := by
    intro x c hl
    rw [hlists] at hl
    split at hl
    · subst_vars
      rcases hmem c hl with he | ⟨-, -, hw⟩
      · exact hs.element ⟨v, hv, he⟩
      · exact hw
    · exact hs.element hl
  refine ⟨Arena.sound_modify hs.arena _ _, ?_, ?_, ?_, hnd, ?_, ?_⟩
  · intro x c hl
    obtain ⟨w, hw, ho, hlink⟩ := helem hl
    by_cases hc : c = p
    · subst hc
      exact ⟨{ w with payload := q }, by rw [var?_change, if_pos rfl, hw]; rfl, ho, hq⟩
    · exact ⟨w, by rw [var?_change, if_neg hc, hw], ho, hlink⟩
  · intro x u hu
    rw [var?_change] at hu
    split at hu
    · obtain ⟨u', -, rfl⟩ := Option.map_eq_some_iff.mp hu
      exact hnodup
    · exact hs.nodup hu
  · intro c w x hw ho
    have hw' : ∃ w', h.var? c = some w' ∧ w'.owner = .array x := by
      rw [var?_change] at hw
      split at hw
      · obtain ⟨w', hw', rfl⟩ := Option.map_eq_some_iff.mp hw
        exact ⟨w', hw', ho⟩
      · exact ⟨w, hw, ho⟩
    obtain ⟨w', hw', ho'⟩ := hw'
    rw [hlists, hloose]
    by_cases hcq : c ∈ q.elements
    · right
      rcases hmem c hcq with he | ⟨-, -, u, hu, hou, -⟩
      · obtain ⟨u, hu, hou, -⟩ := hs.element ⟨v, hv, he⟩
        rw [hw'] at hu
        cases hu
        rw [ho'] at hou
        cases hou
        simpa using hcq
      · rw [hw'] at hu
        cases hu
        rw [ho'] at hou
        cases hou
        simpa using hcq
    · rcases hs.listed hw' ho' with hc | hl
      · exact .inl ⟨.inl hc, hcq⟩
      · by_cases hx : x = p
        · subst hx
          obtain ⟨u, hu, hc⟩ := hl
          rw [hv] at hu
          cases hu
          exact .inl ⟨.inr hc, hcq⟩
        · exact .inr (by simpa [hx] using hl)
  · intro c hc
    refine ⟨hlive.mpr ?_, hroot hc⟩
    rcases ((hloose c).mp hc).1 with hc | hc
    · exact (hs.loose_root hc).1
    · obtain ⟨w, hw, -⟩ := hs.element ⟨v, hv, hc⟩
      exact ⟨w, hw⟩
  · intro c hc
    obtain ⟨n, hd⟩ := hs.depth (hlive.mp hc)
    exact hdepth hd

theorem Sound.change_payload {q : Payload} (hs : h.Sound loose strict)
    (hv : h.var? p = some v) (hp : ∀ t, v.payload ≠ .link t) (hq : ∀ t, q ≠ .link t)
    (hnodup : q.elements.toList.Nodup)
    (hmem : ∀ c ∈ q.elements, c ∈ v.payload.elements ∨
      c ∈ loose ∧ ¬h.Below c p ∧ ∃ w, h.var? c = some w ∧ w.owner = .array p ∧
        w.leftValue = v.leftValue ∧ ∀ t, w.payload ≠ .link t)
    (hnd : loose'.Nodup)
    (hloose : ∀ c, c ∈ loose' ↔ (c ∈ loose ∨ c ∈ v.payload.elements) ∧ c ∉ q.elements) :
    (h.change p fun v => { v with payload := q }).Sound loose' strict := by
  have hm : Maps _ h (h.change p fun v => { v with payload := q }) := maps_change _
  have helem : ∀ {c}, c ∈ q.elements → ∀ w, h.var? c = some w → ∀ t, w.payload ≠ .link t := by
    intro c hc w hw
    rcases hmem c hc with he | ⟨-, -, w', hw', -, -, hno⟩
    · obtain ⟨w', hw', -, hno⟩ := hs.forest.element ⟨v, hv, he⟩
      cases hw.symm.trans hw'
      exact hno
    · cases hw.symm.trans hw'
      exact hno
  -- What is no longer loose has become an element.
  have howner : ∀ {c w o}, h.var? c = some w → c ∉ loose' → w.owner = o →
      (∀ p, o ≠ .array p) → c ∉ loose := by
    intro c w o hw hc ho hno hin
    have hcq : c ∈ q.elements := by
      by_contra hcq
      exact hc ((hloose c).mpr ⟨.inl hin, hcq⟩)
    have harray : w.owner = .array p := by
      rcases hmem c hcq with he | ⟨-, -, w', hw', ho', -⟩
      · obtain ⟨w', hw', ho', -⟩ := hs.forest.element ⟨v, hv, he⟩
        rw [hw] at hw'
        cases hw'
        exact ho'
      · rw [hw] at hw'
        cases hw'
        exact ho'
    exact hno p (ho.symm.trans harray)
  refine ⟨hs.forest.change_payload hv hq hnodup (fun c hc => ?_) hnd hloose,
    hm.flagged ?_, fun hstrict => hm.ruled ?_ ?_ ?_ ?_, hm.linked ?_ ?_ ?_⟩
  · refine (hmem c hc).imp_right ?_
    rintro ⟨h₁, h₂, w, hw, h₃, -, h₄⟩
    exact ⟨h₁, h₂, w, hw, h₃, h₄⟩
  · intro x c y z hl hy hz
    have hsame : z.leftValue = y.leftValue := by
      rw [lists_change_payload hv] at hl
      split at hl
      · subst_vars
        rw [hv] at hy
        cases hy
        rcases hmem c hl with he | ⟨-, -, w, hw, -, hwl, -⟩
        · exact hs.flagged.left hv hz he
        · rw [hz] at hw
          cases hw
          exact hwl
      · obtain ⟨y', hy', hc⟩ := hl
        rw [hy] at hy'
        cases hy'
        exact hs.flagged.left hy hz hc
    split <;> split <;> exact hsame
  · intro c w hw hc ho
    have ho : w.owner = .detached := by split at ho <;> exact ho
    have := (hs.ruled hstrict).temporary hw (howner hw hc ho (by simp)) ho
    split <;> exact this
  · intro c w hw hc ho
    have ho : w.owner = .detached := by split at ho <;> exact ho
    have := (hs.ruled hstrict).plain hw (howner hw hc ho (by simp)) ho
    split
    · exact hq
    · exact this
  · intro c w s hw hc ho
    have ho : w.owner = .scope s := by split at ho <;> exact ho
    have := (hs.ruled hstrict).bound hw (howner hw hc ho (by simp)) ho
    split <;> exact this
  · intro l u t w hu hl hlink hw
    have hleft : w.leftValue = true := by
      split at hlink
      · exact absurd hlink (hq t)
      · refine (hs.ruled hstrict).target hu (fun hin => ?_) hlink hw
        by_cases hlq : l ∈ q.elements
        · exact helem hlq u hu t hlink
        · exact hl ((hloose l).mpr ⟨.inl hin, hlq⟩)
    split <;> exact hleft
  · intro l u t hu hlink
    split at hlink
    · exact absurd hlink (hq t)
    · obtain ⟨x, hx, hby, hno⟩ := hs.linked.link hu hlink
      refine ⟨x, hx, ?_⟩
      split
      · exact ⟨hby, hq⟩
      · exact ⟨hby, hno⟩
  · intro t u l hu hl
    have hl : l ∈ u.linkedBy := by split at hl <;> exact hl
    obtain ⟨x, hx, hlink⟩ := hs.linked.linked hu hl
    refine ⟨x, hx, ?_⟩
    rw [if_neg]
    · exact hlink
    · rintro rfl
      rw [hv] at hx
      cases hx
      exact hp t hlink
  · intro t u hu
    have := hs.linked.once hu
    split <;> exact this

abbrev added (h : Heap) (v : Variable) : Heap :=
  ⟨(h.arena.insert v).2⟩

abbrev fresh (h : Heap) (v : Variable) : VarId :=
  (h.arena.insert v).1

theorem Forest.var?_fresh (hs : h.Forest loose) (v : Variable) : h.var? (h.fresh v) = none :=
  Arena.get?_insert_fresh hs.arena v

theorem Forest.var?_added (hs : h.Forest loose) (v : Variable) (x : VarId) :
    (h.added v).var? x = if x = h.fresh v then some v else h.var? x := by
  split
  · subst_vars
    exact Arena.get?_insert_self hs.arena v
  · exact Arena.get?_insert_of_ne hs.arena v ‹_›

-- A new variable without elements is loose at first.
theorem Sound.insert (hs : h.Sound loose strict) (hel : v.payload.elements = #[])
    (hlink : ∀ t, v.payload ≠ .link t) (hby : v.linkedBy = []) :
    (h.added v).Sound (h.fresh v :: loose) strict := by
  have hvar := hs.forest.var?_added v
  have hnone := hs.forest.var?_fresh v
  have hlists : ∀ {p c}, (h.added v).Lists p c ↔ h.Lists p c := by
    intro p c
    unfold Lists
    rw [hvar]
    split
    · subst_vars
      simp [hel, hnone]
    · rfl
  have hnl : ∀ p, ¬h.Lists p (h.fresh v) := by
    intro p hl
    obtain ⟨w, hw, -⟩ := hs.forest.element hl
    rw [hnone] at hw
    cases hw
  have hold : ∀ {x w}, h.var? x = some w → (h.added v).var? x = some w := by
    intro x w hw
    rw [hvar, if_neg, hw]
    rintro rfl
    rw [hnone] at hw
    cases hw
  have hroot : (h.added v).Root (h.fresh v) :=
    ⟨⟨v, by rw [hvar, if_pos rfl]⟩, fun p hl => hnl p (hlists.mp hl)⟩
  have holdroot : ∀ {c}, h.Root c → (h.added v).Root c := by
    rintro c ⟨⟨w, hw⟩, hr⟩
    exact ⟨⟨w, hold hw⟩, fun p hl => hr p (hlists.mp hl)⟩
  have hdepth : ∀ {x n}, h.Depth x n → (h.added v).Depth x n := by
    intro x n hd
    induction hd with
    | root hr => exact .root (holdroot hr)
    | element _ hl ih => exact ih.element (hlists.mpr hl)
  refine ⟨⟨Arena.sound_insert hs.forest.arena v, ?_, ?_, ?_, ?_, ?_, ?_⟩, ⟨?_⟩,
    fun hstrict => ⟨?_, ?_, ?_, ?_⟩, ⟨?_, ?_, ?_⟩⟩
  · intro p c hl
    obtain ⟨w, hw, h₁⟩ := hs.forest.element (hlists.mp hl)
    exact ⟨w, hold hw, h₁⟩
  · intro p u hu
    rw [hvar] at hu
    split at hu
    · cases hu
      simp [hel]
    · exact hs.forest.nodup hu
  · intro c w p hw ho
    rw [hvar] at hw
    split at hw
    · exact .inl (by simp_all)
    · rw [hlists]
      exact (hs.forest.listed hw ho).imp_left (List.mem_cons_of_mem _)
  · refine List.nodup_cons.mpr ⟨fun hc => ?_, hs.forest.loose_nodup⟩
    obtain ⟨w, hw⟩ := (hs.forest.loose_root hc).1
    rw [hnone] at hw
    cases hw
  · intro c hc
    rcases List.mem_cons.mp hc with rfl | hc
    · exact hroot
    · exact holdroot (hs.forest.loose_root hc)
  · rintro c ⟨w, hw⟩
    rw [hvar] at hw
    split at hw
    · subst_vars
      exact ⟨0, .root hroot⟩
    · obtain ⟨n, hd⟩ := hs.forest.depth ⟨w, hw⟩
      exact ⟨n, hdepth hd⟩
  · intro p c x y hx hy hc
    obtain ⟨x', hx', hc'⟩ := hlists.mp ⟨x, hx, hc⟩
    obtain ⟨y', hy', -⟩ := hs.forest.element ⟨x', hx', hc'⟩
    rw [hold hx'] at hx
    rw [hold hy'] at hy
    cases hx
    cases hy
    exact hs.flagged.left hx' hy' hc'
  · intro c w hw hc ho
    obtain ⟨hne, hc⟩ : c ≠ h.fresh v ∧ c ∉ loose := by simpa using hc
    rw [hvar, if_neg hne] at hw
    exact (hs.ruled hstrict).temporary hw hc ho
  · intro c w hw hc ho
    obtain ⟨hne, hc⟩ : c ≠ h.fresh v ∧ c ∉ loose := by simpa using hc
    rw [hvar, if_neg hne] at hw
    exact (hs.ruled hstrict).plain hw hc ho
  · intro c w s hw hc ho
    obtain ⟨hne, hc⟩ : c ≠ h.fresh v ∧ c ∉ loose := by simpa using hc
    rw [hvar, if_neg hne] at hw
    exact (hs.ruled hstrict).bound hw hc ho
  · intro l u t w hu hl ht hw
    obtain ⟨hne, hl⟩ : l ≠ h.fresh v ∧ l ∉ loose := by simpa using hl
    rw [hvar, if_neg hne] at hu
    obtain ⟨w', hw', -⟩ := hs.linked.link hu ht
    rw [hold hw'] at hw
    cases hw
    exact (hs.ruled hstrict).target hu hl ht hw'
  · intro l u t hu ht
    rw [hvar] at hu
    split at hu
    · cases hu
      exact absurd ht (hlink t)
    · obtain ⟨w, hw, h₁⟩ := hs.linked.link hu ht
      exact ⟨w, hold hw, h₁⟩
  · intro t u l hu hl
    rw [hvar] at hu
    split at hu
    · cases hu
      simp [hby] at hl
    · obtain ⟨w, hw, h₁⟩ := hs.linked.linked hu hl
      exact ⟨w, hold hw, h₁⟩
  · intro t u hu
    rw [hvar] at hu
    split at hu
    · cases hu
      simp [hby]
    · exact hs.linked.once hu

open Classical in
-- The variables of a set get a flag.
noncomputable def marking (G : VarId → Prop) (flag : Bool) (x : VarId) (v : Variable) : Variable :=
  if G x then { v with leftValue := flag } else v

section

variable {G : VarId → Prop} {flag : Bool}

theorem marking_of_pos (hg : G id) : marking G flag id v = { v with leftValue := flag } :=
  if_pos hg

theorem marking_of_neg (hg : ¬G id) : marking G flag id v = v :=
  if_neg hg

theorem payload_marking : (marking G flag id v).payload = v.payload := by
  unfold marking
  split <;> rfl

theorem owner_marking : (marking G flag id v).owner = v.owner := by
  unfold marking
  split <;> rfl

theorem linkedBy_marking : (marking G flag id v).linkedBy = v.linkedBy := by
  unfold marking
  split <;> rfl

end

-- All of a tree has the flag of its root.
theorem Flagged.below (hs : h.Flagged) (hb : h.Below top c) (hv : h.var? top = some v)
    (hw : h.var? c = some w) : w.leftValue = v.leftValue := by
  induction hb generalizing w with
  | refl =>
    rw [hv] at hw
    cases hw
    rfl
  | step _ hl ih =>
    obtain ⟨y, hy, hc⟩ := hl
    rw [hs.left hy hw hc]
    exact ih hy

theorem Ruled.aimed (hs : h.Ruled []) (hd : h.Detached id) : h.Aimed id := by
  obtain ⟨v, hv, ho⟩ := hd
  exact .of_no_link hv (hs.plain hv (by simp) ho)

-- A loose tree is marked as a whole. It is not the target of a link if it loses
-- the flag.
theorem Sound.marked {flag : Bool} (hs : h.Sound loose strict) (ha : h'.arena.Sound)
    (hm : Maps (marking (h.Below top) flag) h h') (hv : h.var? top = some v) (hc : top ∈ loose)
    (hflag : strict → flag = true ∨ v.leftValue = false) : h'.Sound loose strict := by
  have hel : ∀ {x v}, h.var? x = some v →
      (marking (h.Below top) flag x v).payload.elements = v.payload.elements :=
    fun _ => by rw [payload_marking]
  have hr := hs.forest.loose_root hc
  -- Only the root of the tree lies in no array, and it is loose.
  have hout : ∀ {c w}, h.var? c = some w → c ∉ loose → (∀ p, w.owner ≠ .array p) →
      ¬h.Below top c := by
    intro c w hw hcl ho hb
    cases hb.eq_of_root (hs.forest.root_of_owner hw ho).2
    exact hcl hc
  refine ⟨hm.forest hel hs.forest ha (fun _ _ => owner_marking) ?_, hm.flagged ?_,
    fun hstrict => hm.ruled ?_ ?_ ?_ ?_, hm.linked ?_ ?_ ?_⟩
  · intro p c w hl hw
    obtain ⟨w', hw', -, hno⟩ := hs.forest.element hl
    rw [hw] at hw'
    cases hw'
    rw [payload_marking]
    exact hno
  · intro p c x y hl hx hy
    have hl := (hm.lists hel).mp hl
    obtain ⟨x', hx', hc⟩ := hl
    rw [hx] at hx'
    cases hx'
    by_cases hb : h.Below top p
    · rw [marking_of_pos hb, marking_of_pos (hb.step ⟨x, hx, hc⟩)]
    · have hb' : ¬h.Below top c := by
        intro hb'
        cases hb' with
        | refl => exact hr.2 p ⟨x, hx, hc⟩
        | step hb' hl' => exact hb (hs.forest.parent_unique hl' ⟨x, hx, hc⟩ ▸ hb')
      rw [marking_of_neg hb, marking_of_neg hb']
      exact hs.flagged.left hx hy hc
  · intro c w hw hcl ho
    rw [owner_marking] at ho
    rw [marking_of_neg (hout hw hcl (by simp [ho]))]
    exact (hs.ruled hstrict).temporary hw hcl ho
  · intro c w hw hcl ho
    rw [owner_marking] at ho
    rw [payload_marking]
    exact (hs.ruled hstrict).plain hw hcl ho
  · intro c w s hw hcl ho
    rw [owner_marking] at ho
    rw [marking_of_neg (hout hw hcl (by simp [ho]))]
    exact (hs.ruled hstrict).bound hw hcl ho
  · intro l u t w hu hl hlink hw
    rw [payload_marking] at hlink
    have hleft := (hs.ruled hstrict).target hu hl hlink hw
    by_cases hb : h.Below top t
    · rw [marking_of_pos hb]
      rcases hflag hstrict with hflag | hflag
      · exact hflag
      · rw [hs.flagged.below hb hv hw, hflag] at hleft
        cases hleft
    · rw [marking_of_neg hb]
      exact hleft
  · intro l u t hu hlink
    rw [payload_marking] at hlink
    obtain ⟨w, hw, hby, hno⟩ := hs.linked.link hu hlink
    exact ⟨w, hw, Eq.symm linkedBy_marking ▸ hby, Eq.symm payload_marking ▸ hno⟩
  · intro t u l hu hl
    rw [linkedBy_marking] at hl
    obtain ⟨x, hx, hlink⟩ := hs.linked.linked hu hl
    exact ⟨x, hx, Eq.trans payload_marking hlink⟩
  · intro t u hu
    rw [linkedBy_marking]
    exact hs.linked.once hu

-- A variable becomes a link, and its target knows it.
def linking (l t x : VarId) (v : Variable) : Variable :=
  if x = t then { v with linkedBy := v.linkedBy ++ [l] }
  else if x = l then { v with payload := .link t }
  else v

theorem flags_linking {l t : VarId} (x : VarId) (v : Variable) :
    (linking l t x v).owner = v.owner ∧ (linking l t x v).leftValue = v.leftValue := by
  unfold linking
  split
  · exact ⟨rfl, rfl⟩
  · split <;> exact ⟨rfl, rfl⟩

theorem maps_linking {l t : VarId} (hne : t ≠ l) :
    Maps (linking l t) h ((h.change l fun v => { v with payload := .link t }).change t fun w =>
      { w with linkedBy := w.linkedBy ++ [l] }) := by
  intro x
  rw [var?_change, var?_change]
  rcases h.var? x with _ | v
  · simp
  · by_cases hxt : x = t
    · simp [linking, hxt, hne]
    · by_cases hxl : x = l
      · simp [linking, hxl, Ne.symm hne]
      · simp [linking, hxt, hxl]

-- A loose null becomes a link.
theorem Sound.link {t : VarId} (hs : h.Sound loose strict) (hv : h.var? id = some v)
    (hnull : v.payload = .null) (hby : v.linkedBy = []) (hloose : id ∈ loose)
    (ht : h.var? t = some w) (hno : ∀ u, w.payload ≠ .link u) (hne : t ≠ id) :
    ((h.change id fun v => { v with payload := .link t }).change t fun w =>
      { w with linkedBy := w.linkedBy ++ [id] }).Sound loose strict := by
  have hr := hs.forest.loose_root hloose
  have hm := maps_linking (h := h) hne
  have howner := @flags_linking id t
  have hel : ∀ {x v}, h.var? x = some v →
      (linking id t x v).payload.elements = v.payload.elements := by
    intro x u hu
    simp only [linking]
    split
    · rfl
    · split
      · subst_vars
        rw [hv] at hu
        cases hu
        simp [hnull, Payload.elements]
      · rfl
  have ha := Arena.sound_modify (Arena.sound_modify hs.forest.arena id fun v =>
    { v with payload := .link t }) t fun w => { w with linkedBy := w.linkedBy ++ [id] }
  -- The other links are as before.
  have hother : ∀ {l u t'}, l ≠ id → (linking id t l u).payload = .link t' →
      u.payload = .link t' := by
    intro l u t' hl hlink
    simp only [linking, hl, if_false] at hlink
    split at hlink <;> exact hlink
  refine ⟨hm.forest hel hs.forest ha (fun {c w} _ _ => (howner c w).1) ?_,
    hm.flagged ?_, fun hstrict => hm.ruled ?_ ?_ ?_ ?_, hm.linked ?_ ?_ ?_⟩
  · intro p c x hl hx
    obtain ⟨x', hx', -, hxno⟩ := hs.forest.element hl
    rw [hx] at hx'
    cases hx'
    have hc : c ≠ id := fun he => hr.2 p (he ▸ hl)
    simp only [linking, hc, if_false]
    split <;> exact hxno
  · intro p c x y hl hx hy
    obtain ⟨x', hx', hc⟩ := (hm.lists hel).mp hl
    rw [hx] at hx'
    cases hx'
    rw [(howner c y).2, (howner p x).2]
    exact hs.flagged.left hx hy hc
  · intro c x hx hc ho
    rw [(howner c x).2]
    exact (hs.ruled hstrict).temporary hx hc ((howner c x).1 ▸ ho)
  · intro c x hx hc ho
    have hci : c ≠ id := fun he => hc (he ▸ hloose)
    have := (hs.ruled hstrict).plain hx hc ((howner c x).1 ▸ ho)
    simp only [linking, hci, if_false]
    split <;> exact this
  · intro c x s hx hc ho
    rw [(howner c x).2]
    exact (hs.ruled hstrict).bound hx hc ((howner c x).1 ▸ ho)
  · intro l u t' x hu hl hlink hx
    have hli : l ≠ id := fun he => hl (he ▸ hloose)
    rw [(howner t' x).2]
    exact (hs.ruled hstrict).target hu hl (hother hli hlink) hx
  · intro l u t' hu hlink
    by_cases hl : l = id
    · have ht' : t' = t := by
        simpa [linking, hl, Ne.symm hne] using hlink.symm
      subst ht'
      exact ⟨w, ht, by simp [linking, hl], by simpa [linking] using hno⟩
    · obtain ⟨x, hx, hmem, hx₁⟩ := hs.linked.link hu (hother hl hlink)
      have hid : t' ≠ id := by
        rintro rfl
        rw [hv] at hx
        cases hx
        simp [hby] at hmem
      refine ⟨x, hx, ?_, ?_⟩
      · by_cases ht' : t' = t <;> simp [linking, ht', hid, hmem]
      · by_cases ht' : t' = t
        · simpa [linking, ht'] using hx₁
        · simpa [linking, ht', hid] using hx₁
  · intro t' u l hu hl
    by_cases hnew : t' = t ∧ l = id
    · obtain ⟨rfl, rfl⟩ := hnew
      exact ⟨v, hv, by simp [linking, Ne.symm hne]⟩
    · have hmem : l ∈ u.linkedBy := by
        by_cases ht' : t' = t
        · have hl' : l ≠ id := fun he => hnew ⟨ht', he⟩
          simpa [linking, ht', hl'] using hl
        · by_cases hi : t' = id <;> simpa [linking, ht', hi, Ne.symm hne] using hl
      obtain ⟨x, hx, hlink⟩ := hs.linked.linked hu hmem
      have hlid : l ≠ id := by
        rintro rfl
        rw [hv] at hx
        cases hx
        rw [hnull] at hlink
        cases hlink
      refine ⟨x, hx, ?_⟩
      simp only [linking, hlid, if_false]
      split <;> exact hlink
  · intro t' u hu
    have hnd := hs.linked.once hu
    -- A null is known to nobody as a link.
    have hnot : id ∉ u.linkedBy := by
      intro hin
      obtain ⟨x, hx, hlink⟩ := hs.linked.linked hu hin
      rw [hv] at hx
      cases hx
      rw [hnull] at hlink
      cases hlink
    unfold linking
    split
    · exact List.nodup_append.mpr ⟨hnd, by simp, fun a ha b hb hab =>
        hnot (List.mem_singleton.mp hb ▸ hab ▸ ha)⟩
    · split <;> exact hnd

end Heap

end FinLang

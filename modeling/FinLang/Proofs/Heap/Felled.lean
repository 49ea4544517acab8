import FinLang.Proofs.Heap.Confined

namespace FinLang

namespace Heap

-- Whole trees may have gone, and nothing else. The roots are in a set.
structure Felled (R : VarId → Prop) (h h' : Heap) : Prop where
  root : ∀ {x}, R x → h.Root x
  freed : ∃ G, Freed G h h' ∧ ∀ x, G x → ∃ top, R top ∧ h.Below top x

-- A variable that stands in none of the trees.
def Spared (h : Heap) (R : VarId → Prop) (x : VarId) : Prop :=
  ∀ top, R top → ¬h.Below top x

variable {h h' h'' : Heap} {loose loose' : List VarId} {strict strict' : Prop}
  {R R' : VarId → Prop} {id t x : VarId} {v w w' : Variable} {E : Failure → Heap → Prop}

-- What stands for the same contents reads the same.
theorem Stands.toValue_eq (hst : h.Stands x t w) (hst' : h'.Stands x t w')
    (hs : h.Sound loose strict) (hs' : h'.Sound loose' strict') (hp : Preserved h h' t) :
    h'.toValue x = h.toValue x := by
  obtain ⟨value, hvalue, hshow⟩ := hs.exists_shows hst
  have hholds : h'.Holds t value := Holds.preserve ⟨w, hst.var, hshow⟩ hp
  obtain ⟨u, hu, hshow'⟩ := hholds
  cases hst'.var.symm.trans hu
  rw [hvalue, (hs'.toValue_iff hst').mpr hshow']

theorem Extends.toValue (hx : Extends h h') (hs : h.Sound loose strict)
    (hs' : h'.Sound loose' strict') (hl : h.Live x) : h'.toValue x = h.toValue x := by
  obtain ⟨t, w, hst⟩ := hs.stands hl
  exact hst.toValue_eq (hst.extends hx hs'.linked) hs hs' hx.preserved

-- A flag does not matter.
theorem toValue_change_protected {flag : Bool} (hs : h.Sound loose strict)
    (hs' : (h.change id fun v => { v with writeProtected := flag }).Sound loose' strict')
    (hl : h.Live x) :
    (h.change id fun v => { v with writeProtected := flag }).toValue x = h.toValue x := by
  have hm : Maps (fun y v => if y = id then { v with writeProtected := flag } else v) h
      (h.change id fun v => { v with writeProtected := flag }) := maps_change _
  obtain ⟨t, w, hst⟩ := hs.stands hl
  have hlink : ∀ {y u}, h.var? y = some u →
      ∃ u', (h.change id fun v => { v with writeProtected := flag }).var? y = some u' ∧
        u'.payload = u.payload := by
    intro y u hu
    refine ⟨_, hm.some hu, ?_⟩
    split <;> rfl
  obtain ⟨w', hw', hp⟩ := hlink hst.var
  have hst' : (h.change id fun v => { v with writeProtected := flag }).Stands x t w' := by
    have hno : ∀ u, w'.payload ≠ .link u := fun u => hp ▸ hst.no_link u
    rcases hst.self_or_link with rfl | ⟨v, hv, ht⟩
    · exact .self hw' hno
    · obtain ⟨v', hv', hp'⟩ := hlink hv
      have ht' := hp'.trans ht
      exact ⟨resolve_eq_target hs'.linked hv' ht', hw', hno, .inr ⟨v', hv', ht'⟩⟩
  exact hst.toValue_eq hst' hs hs' fun y u _ hu => hlink hu

namespace Felled

theorem refl (hr : ∀ {x}, R x → h.Root x) : Felled R h h :=
  ⟨hr, _, .refl, fun _ => False.elim⟩

theorem stays (hf : Felled R h h') (hx : h.Spared R x) : Stays h h' x := by
  obtain ⟨G, hfreed, hG⟩ := hf.freed
  exact hfreed.stays fun hg => by
    obtain ⟨top, htop, hb⟩ := hG x hg
    exact hx top htop hb

-- What stands next to the trees reads as before, if it leads to none of them.
theorem toValue (hf : Felled R h h') (hs : h.Sound loose strict) (hs' : h'.Sound loose' strict')
    (hst : h.Stands x t w) (hx : h.Spared R x) (ht : h.Spared R t) :
    h'.toValue x = h.toValue x := by
  obtain ⟨G, hfreed, hG⟩ := hf.freed
  have hout : ∀ {y}, h.Spared R y → ¬G y := fun hy hg => by
    obtain ⟨top, htop, hb⟩ := hG _ hg
    exact hy top htop hb
  -- Of a tree and what stands next to it neither lies in the other.
  have hbelow : ∀ y, h.Below t y → ¬G y := by
    intro y hb hg
    obtain ⟨top, htop, hb'⟩ := hG y hg
    rcases hs.forest.comparable hb' hb with h' | h'
    · exact ht top htop h'
    · exact ht top htop (h'.eq_of_root (hf.root htop).2 ▸ .refl)
  have hst' : h'.Stands x t (w.without G) := by
    have hw' := hfreed.some (hout ht) hst.var
    have hno : ∀ u, (w.without G).payload ≠ .link u := fun u hu =>
      hst.no_link u (Payload.without_eq_link_iff.mp hu).1
    rcases hst.self_or_link with rfl | ⟨v, hv, hlink⟩
    · exact .self hw' hno
    · have hv' := hfreed.some (hout hx) hv
      have hlink' : (v.without G).payload = .link t :=
        Payload.without_eq_link_iff.mpr ⟨hlink, hout ht⟩
      exact ⟨resolve_eq_target hs'.linked hv' hlink', hw', hno, .inr ⟨_, hv', hlink'⟩⟩
  exact hst.toValue_eq hst' hs hs' (hfreed.preserved hs.forest hst.var hst.no_link hbelow)

theorem trans (hf : Felled R h h') (hf' : Felled R' h' h'') (hsub : ∀ x, R' x → R x) :
    Felled R h h'' := by
  obtain ⟨G, hfreed, hG⟩ := hf.freed
  obtain ⟨G', hfreed', hG'⟩ := hf'.freed
  refine ⟨hf.root, _, hfreed.trans hfreed', ?_⟩
  rintro x (hx | hx)
  · exact hG x hx
  · obtain ⟨top, htop, hb⟩ := hG' x hx
    exact ⟨top, hsub top htop, hfreed.below hb⟩

end Felled

-- A left-value is in no temporary.
theorem Sound.spared_of_left (hs : h.Sound []) (hR : ∀ x, R x → h.Detached x)
    (hv : h.var? x = some v) (hleft : v.leftValue = true) : h.Spared R x := by
  intro top htop hb
  obtain ⟨u, hu, ho⟩ := hR top htop
  have hflag := hs.rules.temporary hu (by simp) ho
  rw [← hs.flagged.below hb hu hv, hleft] at hflag
  cases hflag

-- What is held is spared when others go.
theorem Sound.spared_of_held (hs : h.Sound []) (hR : ∀ x, R x → h.Detached x) (hx : h.Held x)
    (hnot : ¬R x) : h.Spared R x := by
  intro top htop hb
  cases hs.not_held_of_below (hR top htop) hb hx
  exact hnot htop

-- A link leads past all temporaries.
theorem Sound.spared_target (hs : h.Sound []) (hR : ∀ x, R x → h.Detached x)
    (hst : h.Stands x t w) (hx : h.Spared R x) : h.Spared R t := by
  by_cases hne : t = x
  · exact hne ▸ hx
  · exact hs.spared_of_left hR hst.var (hst.left hs.rules (by simp) hne)

theorem release_felled (hs : h.Sound []) :
    Ensures (release id) h
      (fun _ h' => h'.Sound [] ∧ Felled (fun x => x = id ∧ h.Detached x) h h' ∧
        (h.Detached id → ¬h'.Live id)) E := by
  have hroot : ∀ {x}, x = id ∧ h.Detached x → h.Root x := fun hx =>
    hs.forest.root_of_detached hx.2
  by_cases hd : h.Detached id
  · obtain ⟨v, hv, ho⟩ := hd
    have hd : h.Detached id := ⟨v, hv, ho⟩
    rw [release, Ensures.bind_iff, Ensures.get_iff]
    simp only [show h.arena.get? id = some v from hv, ho, if_true]
    refine (free_ensures (hs.loosen (hs.forest.root_of_detached hd) (by simp))).mono ?_
      fun _ _ he => he
    rintro _ h' ⟨hs', G, hf, hG, hbelow⟩
    exact ⟨hs', ⟨hroot, G, hf, fun x hx => ⟨id, ⟨rfl, hd⟩, hbelow x hx⟩⟩, fun _ =>
      not_live_of_var? ((hf id).1 hG)⟩
  · exact (release_of_not_detached hd).mpr ⟨hs, .refl hroot, fun h => absurd h hd⟩

theorem releaseAll_felled (ids : List VarId) (hs : h.Sound []) :
    Ensures (releaseAll ids) h
      (fun _ h' => h'.Sound [] ∧ Felled (fun x => x ∈ ids ∧ h.Detached x) h h' ∧
        ∀ x ∈ ids, h.Detached x → ¬h'.Live x) E := by
  unfold releaseAll
  induction ids generalizing h with
  | nil => exact ⟨hs, .refl fun hx => hs.forest.root_of_detached hx.2, nofun⟩
  | cons id rest ih =>
    simp only [List.forM_eq_forM, List.forM_cons] at ih ⊢
    rw [Ensures.bind_iff]
    refine (release_felled hs).mono ?_ fun _ _ he => he
    rintro _ h₁ ⟨hs₁, hf₁, hgone₁⟩
    obtain ⟨G, hfreed, hG⟩ := hf₁.freed
    have hold : ∀ x, h₁.Detached x → h.Detached x := by
      rintro x ⟨u, hu, ho⟩
      obtain ⟨-, v, hv, rfl⟩ := hfreed.of_some hu
      exact ⟨v, hv, ho⟩
    refine (ih hs₁).mono ?_ fun _ _ he => he
    rintro _ h₂ ⟨hs₂, hf₂, hgone₂⟩
    have hf₁' : Felled (fun x => x ∈ id :: rest ∧ h.Detached x) h h₁ :=
      ⟨fun hx => hs.forest.root_of_detached hx.2, G, hfreed, fun x hx => by
        obtain ⟨top, ⟨rfl, hd⟩, hb⟩ := hG x hx
        exact ⟨top, ⟨List.mem_cons_self .., hd⟩, hb⟩⟩
    refine ⟨hs₂, hf₁'.trans hf₂ fun x hx => ⟨List.mem_cons_of_mem _ hx.1, hold x hx.2⟩, ?_⟩
    intro x hx hd hlive
    obtain ⟨G', hfreed', -⟩ := hf₂.freed
    obtain ⟨u, hu⟩ := hlive
    obtain ⟨-, v, hv, rfl⟩ := hfreed'.of_some hu
    rcases List.mem_cons.mp hx with rfl | hx
    · exact hgone₁ hd ⟨v, hv⟩
    · refine hgone₂ x hx ?_ ⟨_, hu⟩
      obtain ⟨-, v', hv', rfl⟩ := hfreed.of_some hv
      exact ⟨_, hv, (ownedBy_iff hv').mp hd⟩

end Heap

end FinLang

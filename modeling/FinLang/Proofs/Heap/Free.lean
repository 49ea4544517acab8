import FinLang.Proofs.Heap.Steps

namespace FinLang

namespace Payload

open Classical in
-- What is left of a content when variables have gone.
noncomputable def without (G : VarId → Prop) : Payload → Payload
  | .link t => if G t then .null else .link t
  | p => p

variable {G G' : VarId → Prop} {p : Payload} {t : VarId}

theorem elements_without : (p.without G).elements = p.elements := by
  cases p with
  | link t => by_cases ht : G t <;> simp [without, ht, elements]
  | _ => rfl

theorem without_eq_link_iff : p.without G = .link t ↔ p = .link t ∧ ¬G t := by
  cases p with
  | link u =>
    by_cases hu : G u
    · simp only [without, hu, if_true]
      grind
    · simp only [without, hu, if_false]
      grind
  | _ => simp [without]

theorem without_eq_self (hp : ∀ t, p = .link t → ¬G t) : p.without G = p := by
  cases p with
  | link t => exact if_neg (hp t rfl)
  | _ => rfl

theorem without_without : (p.without G).without G' = p.without fun x => G x ∨ G' x := by
  cases p with
  | link t => by_cases ht : G t <;> by_cases ht' : G' t <;> simp [without, ht, ht']
  | _ => rfl

end Payload

open Classical in
noncomputable def Variable.without (G : VarId → Prop) (v : Variable) : Variable :=
  { v with
    payload := v.payload.without G
    linkedBy := v.linkedBy.filter fun l => !decide (G l) }

theorem Variable.without_without {G G' : VarId → Prop} (v : Variable) :
    (v.without G).without G' = v.without fun x => G x ∨ G' x := by
  simp only [without, Payload.without_without, List.filter_filter, Variable.mk.injEq, true_and]
  congr 1
  funext l
  by_cases hl : G l <;> by_cases hl' : G' l <;> simp [hl, hl']

namespace Variable

variable {G : VarId → Prop} {v : Variable}

theorem linkedBy_without_eq_self (hl : ∀ l ∈ v.linkedBy, ¬G l) :
    (v.without G).linkedBy = v.linkedBy :=
  List.filter_eq_self.mpr fun l hmem => by simpa using hl l hmem

theorem linkedBy_without_single (id : VarId) :
    (v.without (· = id)).linkedBy = v.linkedBy.filter (· != id) :=
  List.filter_congr fun l _ => by by_cases hl : l = id <;> simp [hl]

theorem without_eq {p : Payload} {ls : List VarId} (hp : v.payload.without G = p)
    (hl : (v.without G).linkedBy = ls) : v.without G = { v with payload := p, linkedBy := ls } := by
  subst hp hl
  rfl

end Variable

namespace Heap

variable {h h' h'' : Heap} {loose : List VarId} {strict : Prop} {K G : VarId → Prop} {id p c : VarId}
  {v w : Variable}

-- The variables of a set have gone, and the others no longer know of them.
def Freed (G : VarId → Prop) (h h' : Heap) : Prop :=
  ∀ x, (G x → h'.var? x = none) ∧ (¬G x → h'.var? x = (h.var? x).map (Variable.without G))

namespace Freed

theorem refl : Freed (fun _ => False) h h := by
  refine fun x => ⟨False.elim, fun _ => ?_⟩
  rcases hx : h.var? x with _ | u
  · rfl
  · have hu : u.without (fun _ => False) = u :=
      Variable.without_eq (Payload.without_eq_self (by simp))
        (Variable.linkedBy_without_eq_self (by simp))
    simp [hu]

theorem of_some (hf : Freed G h h') (hw : h'.var? c = some w) :
    ¬G c ∧ ∃ v, h.var? c = some v ∧ w = v.without G := by
  by_cases hc : G c
  · rw [(hf c).1 hc] at hw
    cases hw
  · rw [(hf c).2 hc] at hw
    obtain ⟨v, hv, rfl⟩ := Option.map_eq_some_iff.mp hw
    exact ⟨hc, v, hv, rfl⟩

theorem some (hf : Freed G h h') (hc : ¬G c) (hv : h.var? c = .some v) :
    h'.var? c = .some (v.without G) := by
  rw [(hf c).2 hc, hv]
  rfl

theorem lists (hf : Freed G h h') : h'.Lists p c ↔ ¬G p ∧ h.Lists p c := by
  constructor
  · rintro ⟨w, hw, hc⟩
    obtain ⟨hp, v, hv, rfl⟩ := hf.of_some hw
    exact ⟨hp, v, hv, Payload.elements_without (G := G) ▸ hc⟩
  · rintro ⟨hp, v, hv, hc⟩
    exact ⟨_, hf.some hp hv, (Payload.elements_without (G := G)).symm ▸ hc⟩

theorem below {top : VarId} (hf : Freed G h h') (hb : h'.Below top c) : h.Below top c := by
  induction hb with
  | refl => exact .refl
  | step _ hl ih => exact ih.step (hf.lists.mp hl).2

theorem trans {G' : VarId → Prop} (hf : Freed G h h') (hf' : Freed G' h' h'') :
    Freed (fun x => G x ∨ G' x) h h'' := by
  intro x
  constructor
  · intro hx
    by_cases hx' : G' x
    · exact (hf' x).1 hx'
    · rw [(hf' x).2 hx', (hf x).1 (hx.resolve_right hx')]
      rfl
  · intro hx
    obtain ⟨hx, hx'⟩ := not_or.mp hx
    rw [(hf' x).2 hx', (hf x).2 hx, Option.map_map]
    congr 1
    funext v
    exact v.without_without

end Freed

-- One variable goes and its elements become loose.
theorem Sound.forget (hs : h.Sound (id :: loose) strict) (hv : h.var? id = some v)
    (ha : h'.arena.Sound) (hf : Freed (· = id) h h') :
    h'.Sound (v.payload.elements.toList ++ loose) strict := by
  have hother {x u} := hf.of_some (c := x) (w := u)
  have hnew : ∀ {x u}, x ≠ id → h.var? x = some u → h'.var? x = some (u.without (· = id)) :=
    fun hx hu => hf.some hx hu
  have hlists : ∀ {p c}, h'.Lists p c ↔ p ≠ id ∧ h.Lists p c := hf.lists
  have hidroot := hs.forest.loose_root (List.mem_cons_self ..)
  have hchild : ∀ {c}, c ∈ v.payload.elements → h'.Root c := by
    intro c hc
    have hl : h.Lists id c := ⟨v, hv, hc⟩
    obtain ⟨w, hw, -⟩ := hs.forest.element hl
    refine ⟨⟨_, hnew ?_ hw⟩, fun p hp => ?_⟩
    · rintro rfl
      exact hidroot.2 _ hl
    · exact (hlists.mp hp).1 (hs.forest.parent_unique (hlists.mp hp).2 hl)
  have holdroot : ∀ {c}, c ≠ id → h.Root c → h'.Root c := by
    rintro c hc ⟨⟨u, hu⟩, hr⟩
    exact ⟨⟨_, hnew hc hu⟩, fun p hl => hr p (hlists.mp hl).2⟩
  have hdepth : ∀ {x n}, h.Depth x n → x ≠ id → ∃ m, h'.Depth x m := by
    intro x n hd
    induction hd with
    | root hr => exact fun hx => ⟨0, .root (holdroot hx hr)⟩
    | @element p x n hd hl ih =>
      intro _
      by_cases hp : p = id
      · subst hp
        obtain ⟨u, hu, hc⟩ := hl
        rw [hv] at hu
        cases hu
        exact ⟨0, .root (hchild hc)⟩
      · obtain ⟨m, hm⟩ := ih hp
        exact ⟨m + 1, hm.element (hlists.mpr ⟨hp, hl⟩)⟩
  have hnd := List.nodup_cons.mp hs.forest.loose_nodup
  refine ⟨⟨ha, ?_, ?_, ?_, ?_, ?_, ?_⟩, ⟨?_⟩, fun hstrict => ⟨?_, ?_, ?_, ?_⟩,
    ⟨?_, ?_, ?_⟩⟩
  · intro p c hl
    obtain ⟨-, hl⟩ := hlists.mp hl
    obtain ⟨w, hw, ho, hlink⟩ := hs.forest.element hl
    have hc : c ≠ id := by
      rintro rfl
      exact hidroot.2 p hl
    exact ⟨_, hnew hc hw, ho, fun t ht => hlink t (Payload.without_eq_link_iff.1 ht).1⟩
  · intro p u hu
    obtain ⟨-, u', hu', rfl⟩ := hother hu
    exact (Payload.elements_without (G := (· = id))).symm ▸ hs.forest.nodup hu'
  · intro c u p hu ho
    obtain ⟨hc, u', hu', rfl⟩ := hother hu
    rw [hlists]
    rcases hs.forest.listed hu' ho with hl | hl
    · rcases List.mem_cons.mp hl with rfl | hl
      · exact absurd rfl hc
      · exact .inl (List.mem_append_right _ hl)
    · by_cases hp : p = id
      · subst hp
        obtain ⟨x, hx, hcx⟩ := hl
        rw [hv] at hx
        cases hx
        exact .inl (List.mem_append_left _ (Array.mem_toList_iff.mpr hcx))
      · exact .inr ⟨hp, hl⟩
  · refine List.nodup_append.mpr ⟨hs.forest.nodup hv, hnd.2, fun a ha b hb hab => ?_⟩
    subst hab
    exact (hs.forest.loose_root (List.mem_cons_of_mem _ hb)).2 id
      ⟨v, hv, Array.mem_toList_iff.mp ha⟩
  · intro c hc
    rcases List.mem_append.mp hc with hc | hc
    · exact hchild (Array.mem_toList_iff.mp hc)
    · refine holdroot ?_ (hs.forest.loose_root (List.mem_cons_of_mem _ hc))
      rintro rfl
      exact hnd.1 hc
  · rintro c ⟨u, hu⟩
    obtain ⟨hc, u', hu', -⟩ := hother hu
    obtain ⟨n, hd⟩ := hs.forest.depth ⟨u', hu'⟩
    exact hdepth hd hc
  · intro p c x y hx hy hc
    obtain ⟨-, x', hx', rfl⟩ := hother hx
    obtain ⟨-, y', hy', rfl⟩ := hother hy
    exact hs.flagged.left (v := x') (w := y') hx' hy' (Payload.elements_without (G := (· = id)) ▸ hc)
  · intro c u hu hc ho
    obtain ⟨hne, u', hu', rfl⟩ := hother hu
    have hc : c ∉ id :: loose := by simp_all
    exact (hs.ruled hstrict).temporary (w := u') hu' hc ho
  · intro c u hu hc ho t ht
    obtain ⟨hne, u', hu', rfl⟩ := hother hu
    have hc : c ∉ id :: loose := by simp_all
    exact (hs.ruled hstrict).plain (w := u') hu' hc ho t (Payload.without_eq_link_iff.1 ht).1
  · intro c u s hu hc ho
    obtain ⟨hne, u', hu', rfl⟩ := hother hu
    have hc : c ∉ id :: loose := by simp_all
    exact (hs.ruled hstrict).bound (w := u') hu' hc ho
  · intro l u t w hu hl hlink hw
    obtain ⟨hne, u', hu', rfl⟩ := hother hu
    obtain ⟨ht, w', hw', rfl⟩ := hother hw
    have hl : l ∉ id :: loose := by simp_all
    exact (hs.ruled hstrict).target (w := w') hu' hl (Payload.without_eq_link_iff.1 hlink).1 hw'
  · intro l u t hu hlink
    obtain ⟨hl, u', hu', rfl⟩ := hother hu
    obtain ⟨hlink, ht⟩ := Payload.without_eq_link_iff.1 hlink
    obtain ⟨x, hx, hmem, hno⟩ := hs.linked.link hu' hlink
    refine ⟨_, hnew ht hx, ?_, fun y hy => hno y (Payload.without_eq_link_iff.1 hy).1⟩
    exact List.mem_filter.mpr ⟨hmem, by simpa using hl⟩
  · intro t u l hu hl
    obtain ⟨ht, u', hu', rfl⟩ := hother hu
    obtain ⟨hl, hne⟩ := List.mem_filter.mp hl
    obtain ⟨x, hx, hlink⟩ := hs.linked.linked hu' hl
    exact ⟨_, hnew (by simpa using hne) hx, Payload.without_eq_link_iff.2 ⟨hlink, ht⟩⟩
  · intro t u hu
    obtain ⟨-, u', hu', rfl⟩ := hother hu
    exact (hs.linked.once hu').filter _

section

variable {Q : Unit → Heap → Prop} {E : Failure → Heap → Prop}

theorem unsetLink_iff_of_link {t : VarId} (hv : h.var? id = some v) (hl : v.payload = .link t) :
    Ensures (unsetLink id) h Q E ↔
      Q () ((h.change id fun v => { v with payload := .null }).change t fun v =>
        { v with linkedBy := v.linkedBy.filter (· != id) }) := by
  simp only [unsetLink, setPayload, Ensures.bind_iff, read_lookup_iff hv, hl, update_iff hv]
  exact modifyVariable_iff

theorem unsetLink_iff_of_no_link (hv : h.var? id = some v) (hl : ∀ t, v.payload ≠ .link t) :
    Ensures (unsetLink id) h Q E ↔ Q () h := by
  simp only [unsetLink, Ensures.bind_iff, read_lookup_iff hv]
  exact Ensures.pure_iff

private theorem erased_of_link {t : VarId} (hs : h.Linked) (hv : h.var? id = some v)
    (hl : v.payload = .link t)
    (hm : Maps (fun x w => if x = t then { w with linkedBy := w.linkedBy.filter (· != id) } else w)
      h h') : Freed (· = id) h ⟨h'.arena.erase id⟩ := by
  intro x
  refine ⟨?_, fun hx => ?_⟩
  · rintro rfl
    exact Arena.get?_erase_self _ _
  · refine (Arena.get?_erase_of_ne _ hx).trans ((hm x).trans ?_)
    rcases hu : h.var? x with _ | u
    · rfl
    · simp only [Option.map_some, Option.some.injEq]
      -- A link is not linked to.
      have hpay : u.payload.without (· = id) = u.payload := by
        refine Payload.without_eq_self ?_
        rintro _ hlink rfl
        obtain ⟨w, hw, -, hno⟩ := hs.link hu hlink
        rw [hv] at hw
        cases hw
        exact hno t hl
      by_cases hxt : x = t
      · rw [if_pos hxt, Variable.without_eq hpay (Variable.linkedBy_without_single id)]
      · rw [if_neg hxt, Variable.without_eq hpay (Variable.linkedBy_without_eq_self ?_)]
        rintro l hmem rfl
        obtain ⟨w, hw, hlink⟩ := hs.linked hu hmem
        rw [hv] at hw
        cases hw
        rw [hl] at hlink
        exact hxt (Payload.link.inj hlink).symm

private theorem erased_of_no_link (hs : h.Linked) (hv : h.var? id = some v)
    (hl : ∀ t, v.payload ≠ .link t)
    (hm : Maps (fun x w => if x ∈ v.linkedBy then { w with payload := .null } else w) h h') :
    Freed (· = id) h ⟨h'.arena.erase id⟩ := by
  intro x
  refine ⟨?_, fun hx => ?_⟩
  · rintro rfl
    exact Arena.get?_erase_self _ _
  · refine (Arena.get?_erase_of_ne _ hx).trans ((hm x).trans ?_)
    rcases hu : h.var? x with _ | u
    · rfl
    · simp only [Option.map_some, Option.some.injEq]
      have hby : (u.without (· = id)).linkedBy = u.linkedBy := by
        refine Variable.linkedBy_without_eq_self ?_
        rintro l hmem rfl
        obtain ⟨w, hw, hlink⟩ := hs.linked hu hmem
        rw [hv] at hw
        cases hw
        exact hl x hlink
      by_cases hmem : x ∈ v.linkedBy
      · obtain ⟨w, hw, hlink⟩ := hs.linked hv hmem
        rw [hu] at hw
        cases hw
        have hpay : u.payload.without (· = id) = .null := by simp [hlink, Payload.without]
        rw [if_pos hmem, Variable.without_eq hpay hby]
      · have hpay : u.payload.without (· = id) = u.payload := by
          refine Payload.without_eq_self ?_
          rintro _ hlink rfl
          obtain ⟨w, hw, hin, -⟩ := hs.link hu hlink
          rw [hv] at hw
          cases hw
          exact hmem hin
        rw [if_neg hmem, Variable.without_eq hpay hby]

-- A variable gives up its link, the links to it become null, and it goes.
theorem freeWithin_succ {n : Nat} (hs : h.Linked) (ha : h.arena.Sound) (hv : h.var? id = some v)
    (hrest : ∀ h' : Heap, h'.arena.Sound → h'.arena.live + 1 = h.arena.live →
      Freed (· = id) h h' → (∀ y, y = id ∨ h.arena.Vacated y → h'.arena.Vacated y) →
      Ensures (v.payload.elements.forM (freeWithin n)) h' Q E) :
    Ensures (freeWithin (n + 1) id) h Q E := by
  have hlive {h' : Heap} {w : Variable} (ha' : h'.arena.Sound)
      (hw : h'.var? id = some w) (hl : h'.arena.live = h.arena.live) :
      (h'.arena.erase id).live + 1 = h.arena.live := by
    have := Arena.live_erase ha' hw
    omega
  by_cases hl : ∃ t, v.payload = .link t
  · obtain ⟨t, hl⟩ := hl
    have hne : id ≠ t := by
      rintro rfl
      obtain ⟨w, hw, -, hno⟩ := hs.link hv hl
      rw [hv] at hw
      cases hw
      exact hno _ hl
    have hby : v.linkedBy = [] := by
      refine List.eq_nil_iff_forall_not_mem.mpr fun l hmem => ?_
      obtain ⟨w, hw, hlink⟩ := hs.linked hv hmem
      obtain ⟨u, hu, -, hno⟩ := hs.link hw hlink
      rw [hv] at hu
      cases hu
      exact hno t hl
    unfold freeWithin
    rw [Ensures.bind_iff, unsetLink_iff_of_link hv hl]
    generalize hh : (h.change id fun v => { v with payload := .null }).change t
      (fun v => { v with linkedBy := v.linkedBy.filter (· != id) }) = h₁
    have hw : h₁.var? id = some { v with payload := .null } := by
      rw [← hh, var?_change, if_neg hne, var?_change, if_pos rfl, hv]
      rfl
    have ha₁ : h₁.arena.Sound := by
      rw [← hh]
      exact Arena.sound_modify (Arena.sound_modify ha _ _) _ _
    have hfreed : Freed (· = id) h ⟨h₁.arena.erase id⟩ := by
      have hm : Maps _ h (h.change t fun v => { v with linkedBy := v.linkedBy.filter (· != id) }) :=
        maps_change _
      have hf := erased_of_link hs hv hl hm
      intro x
      refine ⟨fun hx => hx ▸ Arena.get?_erase_self _ _, fun hx => ?_⟩
      refine ((Arena.get?_erase_of_ne _ hx).trans ?_).trans ((hf x).2 hx)
      refine Eq.trans ?_ (Arena.get?_erase_of_ne _ hx).symm
      rw [← hh]
      refine (var?_change _ _).trans (Eq.trans ?_ (var?_change _ _).symm)
      rw [var?_change, if_neg hx]
    have hvacated : ∀ y, y = id ∨ h.arena.Vacated y → (h₁.arena.erase id).Vacated y := by
      rintro y (rfl | hy)
      · exact Arena.vacated_erase hw
      · rw [← hh]
        exact hy.modify.modify.erase
    have hel : v.payload.elements = #[] := by rw [hl]; rfl
    rw [Ensures.bind_iff, read_lookup_iff hw, Ensures.bind_iff, hby]
    have := hrest ⟨h₁.arena.erase id⟩ (Arena.sound_erase ha₁ id)
      (hlive ha₁ hw (by rw [← hh]; rfl)) hfreed hvacated
    rw [hel] at this
    exact this
  · have hl : ∀ t, v.payload ≠ .link t := fun t ht => hl ⟨t, ht⟩
    unfold freeWithin
    rw [Ensures.bind_iff, unsetLink_iff_of_no_link hv hl, Ensures.bind_iff,
      read_lookup_iff hv, Ensures.bind_iff]
    have hall := Ensures.forM (fun _ h' => ∀ y, h.arena.Vacated y → h'.arena.Vacated y)
      (f := fun l => (liftM (modifyVariable l fun l => { l with payload := .null }) : HeapM Unit))
      (E := E) (fun _ _ _ hvac => modifyVariable_iff.2 fun y hy => (hvac y hy).modify) v.linkedBy h
      fun _ hy => hy
    refine ((modify_all (f := fun l => { l with payload := .null }) (fun _ => rfl) v.linkedBy
      ha).and hall).mono ?_ fun _ _ he => he.1
    rintro _ h₁ ⟨⟨ha₁, hlive₁, hm⟩, hvac⟩
    rw [Ensures.bind_iff]
    refine Ensures.modify_iff.mpr ?_
    refine hrest _ (Arena.sound_erase ha₁ id) (hlive ha₁ (hm.some hv) hlive₁)
      (erased_of_no_link hs hv hl hm) ?_
    rintro y (rfl | hy)
    · exact Arena.vacated_erase (hm.some hv)
    · exact (hvac y hy).erase

end

-- All of a loose tree is freed, and nothing else.
theorem freeWithin_ensures (n : Nat) {E : Failure → Heap → Prop} (hs : h.Sound (id :: loose) strict)
    (hn : h.arena.live < n) :
    Ensures (freeWithin n id) h
      (fun _ h' => h'.Sound loose strict ∧ h'.arena.live ≤ h.arena.live ∧
        ∃ G, Freed G h h' ∧ G id ∧ ∀ x, G x → h.Below id x) E := by
  induction n generalizing h id loose with
  | zero => omega
  | succ n ih =>
    obtain ⟨v, hv⟩ := (hs.forest.loose_root (List.mem_cons_self ..)).1
    refine freeWithin_succ hs.linked hs.forest.arena hv fun h₁ ha₁ hlive₁ hf₁ _ => ?_
    -- The elements that are still to be freed are loose.
    let I : List VarId → Heap → Prop := fun rest h' =>
      h'.Sound (rest ++ loose) strict ∧ h'.arena.live + 1 ≤ h.arena.live ∧ (∀ c ∈ rest, h.Lists id c) ∧
        ∃ G, Freed G h h' ∧ G id ∧ ∀ x, G x → h.Below id x
    have hI : I v.payload.elements.toList h₁ :=
      ⟨hs.forget hv ha₁ hf₁, by omega, fun c hc => ⟨v, hv, Array.mem_toList_iff.mp hc⟩,
        (· = id), hf₁, rfl, fun x hx => hx ▸ .refl⟩
    refine (Ensures.forM_array I ?_ _ _ hI).mono ?_ fun _ _ he => he
    · rintro c rest h' ⟨hs', hn', hrest, G, hf, hG, hbelow⟩
      refine (ih hs' (by omega)).mono ?_ fun _ _ he => he
      rintro _ h'' ⟨hs'', hle, G', hf', -, hbelow'⟩
      refine ⟨hs'', by omega, fun c hc => hrest c (List.mem_cons_of_mem _ hc),
        _, hf.trans hf', .inl hG, ?_⟩
      rintro x (hx | hx)
      · exact hbelow x hx
      · have hl := hrest c (List.mem_cons_self ..)
        exact (Below.refl.step hl).trans (hf.below (hbelow' x hx))
    · rintro _ h' ⟨hs', hn', -, hG⟩
      exact ⟨hs', by omega, hG⟩

theorem free_ensures {E : Failure → Heap → Prop} (hs : h.Sound (id :: loose) strict) :
    Ensures (free id) h
      (fun _ h' => h'.Sound loose strict ∧ ∃ G, Freed G h h' ∧ G id ∧ ∀ x, G x → h.Below id x) E := by
  have hn : h.arena.live < h.walkBudget := Nat.lt_succ_of_le hs.forest.arena.live_le_size
  rw [free, Ensures.bind_iff, Ensures.get_iff]
  exact (freeWithin_ensures _ hs hn).mono (fun _ _ hq => ⟨hq.1, hq.2.2⟩) fun _ _ he => he

end Heap

end FinLang

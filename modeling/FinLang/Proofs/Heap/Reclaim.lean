import FinLang.Proofs.Heap.Frame

namespace FinLang

namespace Heap

variable {h h' h₁ : Heap} {loose : List VarId} {strict : Prop} {G : VarId → Prop} {id p c d x : VarId}
  {v w : Variable} {E : Failure → Heap → Prop}

-- Of two variables with something in common the one lies in the other.
theorem Forest.comparable (hs : h.Forest loose) (hc : h.Below c x) (hd : h.Below d x) :
    h.Below c d ∨ h.Below d c := by
  induction hc with
  | refl => exact .inr hd
  | step hb hl ih =>
    cases hd with
    | refl => exact .inl (hb.step hl)
    | step hd hl' =>
      cases hs.parent_unique hl hl'
      exact ih hd

-- Different elements of an array have nothing in common.
theorem Forest.siblings (hs : h.Forest loose) (hc : h.Lists p c) (hd : h.Lists p d)
    (hcx : h.Below c x) (hdx : h.Below d x) : c = d := by
  have hnot : ∀ {a b}, h.Lists p a → h.Lists p b → h.Below a b → a = b := by
    intro a b ha hb hab
    cases hab with
    | refl => rfl
    | step hab hl =>
      cases hs.parent_unique hb hl
      exact absurd hab (hs.not_below_of_lists ha)
  rcases hs.comparable hcx hdx with hb | hb
  · exact hnot hc hd hb
  · exact (hnot hd hc hb).symm

theorem Freed.linked (hf : Freed G h h') (hs : h.Linked) : h'.Linked where
  link {l _ t} hv ht := by
    obtain ⟨hl, v, hv', rfl⟩ := hf.of_some hv
    obtain ⟨hlink, hGt⟩ := Payload.without_eq_link_iff.mp ht
    obtain ⟨w, hw, hmem, hno⟩ := hs.link hv' hlink
    refine ⟨_, hf.some hGt hw, List.mem_filter.mpr ⟨hmem, by simpa using hl⟩, fun u hu => ?_⟩
    exact hno u (Payload.without_eq_link_iff.mp hu).1
  linked {t _ l} hw hl := by
    obtain ⟨ht, w, hw', rfl⟩ := hf.of_some hw
    obtain ⟨hmem, hGl⟩ := List.mem_filter.mp hl
    obtain ⟨v, hv, hlink⟩ := hs.linked hw' hmem
    exact ⟨_, hf.some (by simpa using hGl) hv, Payload.without_eq_link_iff.mpr ⟨hlink, ht⟩⟩
  once {t _} hw := by
    obtain ⟨-, w, hw', rfl⟩ := hf.of_some hw
    exact (hs.once hw').filter _

-- A tree of which nothing has been freed is still whole.
theorem Freed.below_iff (hf : Freed G h h') (hG : ∀ x, h.Below c x → ¬G x) :
    h'.Below c x ↔ h.Below c x := by
  refine ⟨hf.below, fun hb => ?_⟩
  induction hb with
  | refl => exact .refl
  | step hb hl ih => exact ih.step (hf.lists.mpr ⟨hG _ hb, hl⟩)

theorem Freed.congr {G' : VarId → Prop} (hf : Freed G h h') (hG : ∀ x, G x ↔ G' x) : Freed G' h h' :=
  (funext fun x => propext (hG x) : G = G') ▸ hf

-- What lies in those of the variables that it is not still up to.
def Done (h : Heap) (items : Array VarId) (rest : List VarId) (x : VarId) : Prop :=
  ∃ c ∈ items, c ∉ rest ∧ h.Below c x

section Done

variable {items : Array VarId} {rest : List VarId}

theorem not_done_toList : ¬h.Done items items.toList x := by
  rintro ⟨c, hc, hnot, -⟩
  exact hnot (Array.mem_toList_iff.mpr hc)

theorem done_nil_iff : h.Done items [] x ↔ ∃ c ∈ items, h.Below c x := by
  simp [Done]

theorem done_cons_iff (hc : c ∈ items) (hnot : c ∉ rest) :
    h.Done items (c :: rest) x ∨ h.Below c x ↔ h.Done items rest x := by
  constructor
  · rintro (⟨d, hd, hnot, hdx⟩ | hx)
    · exact ⟨d, hd, fun hin => hnot (List.mem_cons_of_mem _ hin), hdx⟩
    · exact ⟨c, hc, hnot, hx⟩
  · rintro ⟨d, hd, hnot, hdx⟩
    by_cases hdc : d = c
    · exact .inr (hdc ▸ hdx)
    · exact .inl ⟨d, hd, by simp [hdc, hnot], hdx⟩

end Done

-- The walk takes all that lies in a variable and nothing else, whoever owns the variable. What is
-- taken never leads anywhere again.
theorem freeWithin_takes (n : Nat) (hs : h.Forest loose) (hl : h.Linked) (hf : Freed G h h₁)
    (ha : h₁.arena.Sound) (hw : h.Within n id) (hG : ∀ x, h.Below id x → ¬G x) :
    Ensures (freeWithin n id) h₁
      (fun _ h' => h'.arena.Sound ∧ Freed (fun x => G x ∨ h.Below id x) h h' ∧
        ∀ y, h₁.arena.Vacated y ∨ h.Below id y → h'.arena.Vacated y) E := by
  induction n generalizing h₁ G id with
  | zero => exact hw.elim
  | succ n ih =>
    obtain ⟨v, hv, hel⟩ := hw
    have hlist : ∀ {c}, c ∈ v.payload.elements → h.Lists id c := fun hc => ⟨v, hv, hc⟩
    refine freeWithin_succ (hf.linked hl) ha (hf.some (hG id .refl) hv) fun h₂ ha₂ _ hf₂ hvac₂ => ?_
    rw [show (v.without G).payload.elements = v.payload.elements from Payload.elements_without]
    -- The variable itself has gone, and all that lies in the first elements.
    let done : List VarId → VarId → Prop := fun rest x => x = id ∨ h.Done v.payload.elements rest x
    let I : List VarId → Heap → Prop := fun rest h' =>
      h'.arena.Sound ∧ rest.Nodup ∧ (∀ c ∈ rest, c ∈ v.payload.elements) ∧
        Freed (fun x => G x ∨ done rest x) h h' ∧
        ∀ y, h₁.arena.Vacated y ∨ done rest y → h'.arena.Vacated y
    have hstart : ∀ x, done v.payload.elements.toList x ↔ x = id := fun x => or_iff_left not_done_toList
    have hI : I v.payload.elements.toList h₂ :=
      ⟨ha₂, hs.nodup hv, fun c hc => Array.mem_toList_iff.mp hc,
        (hf.trans hf₂).congr fun x => or_congr_right (hstart x).symm,
        fun y hy => hvac₂ y (hy.symm.imp_left (hstart y).mp)⟩
    refine (Ensures.forM_array I ?_ _ _ hI).mono ?_ fun _ _ he => he
    · rintro c rest h' ⟨ha', hnd, hrest, hf', hvac'⟩
      obtain ⟨hcr, hnd⟩ := List.nodup_cons.mp hnd
      have hc := hrest c (List.mem_cons_self ..)
      have hout : ∀ x, h.Below c x → ¬(G x ∨ done (c :: rest) x) := by
        rintro x hb (hx | rfl | ⟨d, hd, hnot, hdx⟩)
        · exact hG x ((Below.refl.step (hlist hc)).trans hb) hx
        · exact hs.not_below_of_lists (hlist hc) hb
        · exact hnot (hs.siblings (hlist hc) (hlist hd) hb hdx ▸ List.mem_cons_self ..)
      have hnext : ∀ x, done (c :: rest) x ∨ h.Below c x ↔ done rest x := fun x =>
        or_assoc.trans (or_congr_right (done_cons_iff hc hcr))
      refine (ih hf' ha' (hel c hc) hout).mono ?_ fun _ _ he => he
      rintro _ h'' ⟨ha'', hf'', hvac''⟩
      refine ⟨ha'', hnd, fun d hd => hrest d (List.mem_cons_of_mem _ hd),
        hf''.congr fun x => or_assoc.trans (or_congr_right (hnext x)), fun y hy => hvac'' y ?_⟩
      rcases hy with hy | hy
      · exact .inl (hvac' y (.inl hy))
      · exact ((hnext y).mpr hy).imp_left fun hy => hvac' y (.inr hy)
    · rintro _ h' ⟨ha', -, -, hf', hvac'⟩
      have hall : ∀ x, done [] x ↔ h.Below id x := by
        refine fun x => ⟨?_, fun hb => hb.head.imp_right ?_⟩
        · rintro (rfl | ⟨c, hc, -, hb⟩)
          · exact .refl
          · exact (Below.refl.step (hlist hc)).trans hb
        · rintro ⟨c, ⟨u, hu, hc⟩, hb⟩
          cases hv.symm.trans hu
          exact done_nil_iff.2 ⟨c, hc, hb⟩
      exact ⟨ha', hf'.congr fun x => or_congr_right (hall x),
        fun y hy => hvac' y (hy.imp_right (hall y).mpr)⟩

theorem free_takes (hs : h.Forest loose) (hl : h.Linked) (hid : h.Live id) :
    Ensures (free id) h
      (fun _ h' => h'.arena.Sound ∧ Freed (h.Below id) h h' ∧
        ∀ y, h.arena.Vacated y ∨ h.Below id y → h'.arena.Vacated y) E := by
  rw [free, Ensures.bind_iff, Ensures.get_iff]
  refine (freeWithin_takes _ hs hl .refl hs.arena (hs.within hid)
    fun _ _ => not_false).mono ?_ fun _ _ he => he
  rintro _ h' ⟨ha, hf, hvac⟩
  exact ⟨ha, hf.congr fun x => or_iff_right not_false, hvac⟩

-- Loose trees are taken one after the other.
theorem freeAll_takes (items : Array VarId) (hs : h.Sound (items.toList ++ loose) strict) :
    Ensures (items.forM free) h
      (fun _ h' => Freed (fun x => ∃ c ∈ items, h.Below c x) h h' ∧
        ∀ y, (∃ c ∈ items, h.Below c y) → h'.arena.Vacated y) E := by
  let I : List VarId → Heap → Prop := fun rest h' =>
    h'.Sound (rest ++ loose) strict ∧ (∀ c ∈ rest, c ∈ items) ∧ Freed (h.Done items rest) h h' ∧
      ∀ y, h.Done items rest y → h'.arena.Vacated y
  have hI : I items.toList h :=
    ⟨hs, fun c hc => Array.mem_toList_iff.mp hc,
      Freed.refl.congr fun x => (iff_false_intro not_done_toList).symm,
      fun y hy => absurd hy not_done_toList⟩
  refine (Ensures.forM_array I ?_ _ _ hI).mono ?_ fun _ _ he => he
  · rintro c rest h' ⟨hs', hrest, hf, hvac⟩
    have hc := hrest c (List.mem_cons_self ..)
    have hcr : c ∉ rest := (List.nodup_cons.mp (List.nodup_append.mp hs'.forest.loose_nodup).1).1
    have hroot : ∀ {d}, d ∈ items → h.Root d := fun hd =>
      hs.forest.loose_root (List.mem_append_left _ (Array.mem_toList_iff.mpr hd))
    -- Different loose variables have nothing in common.
    have hout : ∀ x, h.Below c x → ¬h.Done items (c :: rest) x := by
      rintro x hb ⟨d, hd, hnot, hdx⟩
      exact hnot (hs.forest.root_unique (hroot hc) (hroot hd) hb hdx ▸ List.mem_cons_self ..)
    have hsame : h'.Below c = h.Below c := funext fun x => propext (hf.below_iff hout)
    have hlive := (hs'.forest.loose_root (List.mem_append_left _ (List.mem_cons_self ..))).1
    have htake : Ensures (free c) h' _ E := free_takes hs'.forest hs'.linked hlive
    refine ((free_ensures hs').and htake).mono ?_ fun _ _ he => he.1
    rintro _ h'' ⟨⟨hs'', -⟩, -, hf'', hvac''⟩
    rw [hsame] at hf'' hvac''
    refine ⟨hs'', fun d hd => hrest d (List.mem_cons_of_mem _ hd),
      (hf.trans hf'').congr fun x => done_cons_iff hc hcr, fun y hy => hvac'' y ?_⟩
    exact ((done_cons_iff hc hcr).mpr hy).imp_left (hvac y)
  · rintro _ h' ⟨-, -, hf, hvac⟩
    exact ⟨hf.congr fun x => done_nil_iff, fun y hy => hvac y (done_nil_iff.2 hy)⟩

end Heap

end FinLang

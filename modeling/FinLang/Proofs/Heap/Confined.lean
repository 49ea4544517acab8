import FinLang.Proofs.Heap.Handover
import FinLang.Proofs.Heap.Reclaim

namespace FinLang

theorem Payload.without_congr {G G' : VarId → Prop} {p : Payload}
    (hG : ∀ t, p = .link t → (G t ↔ G' t)) : p.without G = p.without G' := by
  cases p with
  | link t =>
    by_cases ht : G t
    · rw [without, without, if_pos ht, if_pos ((hG t rfl).mp ht)]
    · rw [without, without, if_neg ht, if_neg (mt (hG t rfl).mpr ht)]
  | _ => rfl

namespace Heap

-- Outside of a set every variable is as it was, except that a link to what has gone is null now.
def Confined (T : VarId → Prop) (h h' : Heap) : Prop :=
  ∀ x v, ¬T x → h.var? x = some v →
    h'.var? x = some { v with payload := v.payload.without fun y => ¬h'.Live y }

variable {h h' h₁ : Heap} {loose : List VarId} {strict : Prop} {T T' G : VarId → Prop}
  {id t g x source : VarId} {v w u : Variable} {p : Payload}

namespace Confined

-- Where nothing has gone, nothing changes outside.
theorem of_same (hl : h.Linked) (hsame : ∀ x v, ¬T x → h.var? x = some v → h'.var? x = some v)
    (hlive : ∀ {x}, h.Live x → h'.Live x) : Confined T h h' := by
  intro x v hx hv
  have hpay : (v.payload.without fun y => ¬h'.Live y) = v.payload := by
    refine Payload.without_eq_self fun t ht hgone => ?_
    obtain ⟨w, hw, -⟩ := hl.link hv ht
    exact hgone (hlive ⟨w, hw⟩)
  rw [hpay]
  exact hsame x v hx hv

theorem refl (hl : h.Linked) : Confined T h h :=
  of_same hl (fun _ _ _ hv => hv) fun hx => hx

theorem mono (hc : Confined T h h') (ht : ∀ x, T x → T' x) : Confined T' h h' :=
  fun x v hx => hc x v (mt (ht x) hx)

theorem change {f : Variable → Variable} (hl : h.Linked) (ht : T t) : Confined T h (h.change t f) := by
  refine of_same hl (fun x v hx hv => ?_) (maps_change f).live.mpr
  rw [var?_change, if_neg, hv]
  rintro rfl
  exact hx ht

-- A change inside comes after it. What has gone does not come back.
theorem later (hc : Confined T h h₁) (hl : h.Linked)
    (hsame : ∀ x v, ¬T x → h₁.var? x = some v → h'.var? x = some v)
    (hlive : ∀ {y}, h.Live y → (h'.Live y ↔ h₁.Live y)) : Confined T h h' := by
  intro x v hx hv
  refine (hsame x _ hx (hc x v hx hv)).trans ?_
  have hpay : (v.payload.without fun y => ¬h₁.Live y) = v.payload.without fun y => ¬h'.Live y := by
    refine Payload.without_congr fun t ht => ?_
    obtain ⟨w, hw, -⟩ := hl.link hv ht
    exact not_congr (hlive ⟨w, hw⟩).symm
  rw [hpay]

theorem stays (hc : Confined T h h') (hx : ¬T x) : Stays h h' x :=
  fun v hv => ⟨_, hc x v hx hv, rfl, rfl, rfl⟩

-- A tree outside has the same contents.
theorem preserved (hc : Confined T h h') (hs : h.Forest loose) (hv : h.var? x = some v)
    (hno : ∀ t, v.payload ≠ .link t) (hout : ∀ y, h.Below x y → ¬T y) : Preserved h h' x := by
  intro y u hb hu
  refine ⟨_, hc y u (hout y hb) hu, Payload.without_eq_self fun t ht => absurd ht ?_⟩
  by_cases hyx : y = x
  · subst hyx
    cases hv.symm.trans hu
    exact hno t
  · exact hs.no_link_of_below hb hyx hu t

theorem toValue (hc : Confined T h h') (hs : h.Sound [] strict) (hs' : h'.Sound [] strict)
    (hv : h.var? x = some v) (hno : ∀ t, v.payload ≠ .link t) (hout : ∀ y, h.Below x y → ¬T y) :
    h'.toValue x = h.toValue x := by
  obtain ⟨value, hvalue⟩ := hs.toValue_ok ⟨v, hv⟩
  have hst : h.Stands x x v := .self hv hno
  have hholds : h.Holds x value := ⟨v, hv, (hs.toValue_iff hst).mp hvalue⟩
  rw [hvalue]
  exact hs'.toValue_of_holds (hholds.preserve (hc.preserved hs.forest hv hno hout))

end Confined

-- An emptied variable loses all that lies in it.
theorem clear_takes (hs : h.Sound [] strict) (hst : h.Stands id t w) :
    Ensures (clear id) h
      (fun _ h' => Freed (fun x => h.Below t x ∧ x ≠ t)
          (h.change t fun v => { v with payload := .null }) h' ∧
        ∀ y, h.Below t y → y ≠ t → h'.arena.Vacated y)
      (Refused h) := by
  have hs₁ := hs.set_null hst.var hst.no_link
  have hlist : ∀ {c}, c ∈ w.payload.elements → h.Lists t c := fun hc => ⟨w, hst.var, hc⟩
  have hlists : ∀ {x y}, (h.change t fun v => { v with payload := .null }).Lists x y ↔
      x ≠ t ∧ h.Lists x y := by
    intro x y
    rw [lists_change_payload hst.var]
    split
    · simp [*, Payload.elements]
    · simp [*]
  -- An element does not have the array in it.
  have hbelow : ∀ {c x}, c ∈ w.payload.elements →
      ((h.change t fun v => { v with payload := .null }).Below c x ↔ h.Below c x) := by
    intro c x hc
    constructor
    · intro hb
      induction hb with
      | refl => exact .refl
      | step _ hl ih => exact ih.step (hlists.mp hl).2
    · intro hb
      induction hb with
      | refl => exact .refl
      | step hb hl ih =>
        refine ih.step (hlists.mpr ⟨?_, hl⟩)
        rintro rfl
        exact hs.forest.not_below_of_lists (hlist hc) hb
  have hin : ∀ x, (∃ c ∈ w.payload.elements,
      (h.change t fun v => { v with payload := .null }).Below c x) ↔ h.Below t x ∧ x ≠ t := by
    intro x
    constructor
    · rintro ⟨c, hc, hb⟩
      have hcx : h.Below c x := (hbelow hc).mp hb
      refine ⟨(Below.refl.step (hlist hc)).trans hcx, fun hxt => ?_⟩
      exact hs.forest.not_below_of_lists (hlist hc) (hxt ▸ hcx)
    · rintro ⟨hb, hne⟩
      obtain ⟨c, ⟨v, hv, hc⟩, hb⟩ := hb.head.resolve_left hne
      cases hst.var.symm.trans hv
      exact ⟨c, hc, (hbelow hc).mpr hb⟩
  rw [clear, Ensures.bind_iff]
  refine read_writable hst fun hp => ?_
  rw [Ensures.bind_iff, setPayload, update_iff hst.var, Ensures.bind_iff]
  refine (freeAll_takes _ hs₁).mono ?_ fun _ _ he => he
  rintro _ h' ⟨hf, hvac⟩
  exact ⟨hf.congr hin, fun y hb hne => hvac y ((hin y).mpr ⟨hb, hne⟩)⟩

-- Elements are no links, so nothing outside knows them but as the target of a link.
theorem confined_of_cleared (hs : h.Sound [] strict)
    (hf : Freed (fun x => h.Below t x ∧ x ≠ t) (h.change t fun v => { v with payload := .null }) h') :
    Confined (h.Below t) h h' := by
  intro x v hx hv
  have hne : x ≠ t := fun he => hx (he ▸ .refl)
  have hv₁ : (h.change t fun v => { v with payload := .null }).var? x = some v := by
    rw [var?_change, if_neg hne, hv]
  rw [hf.some (fun hG => hx hG.1) hv₁, Variable.without_eq rfl]
  · have hpay : v.payload.without (fun x => h.Below t x ∧ x ≠ t) =
        v.payload.without fun y => ¬h'.Live y := by
      refine Payload.without_congr fun y hy => ?_
      obtain ⟨u, hu, -⟩ := hs.linked.link hv hy
      obtain ⟨u₁, hu₁⟩ := (maps_change fun v => { v with payload := .null }).live.mpr ⟨u, hu⟩
      constructor
      · rintro hG ⟨u', hu'⟩
        exact (hf.of_some hu').1 hG
      · intro hgone
        by_contra hG
        exact hgone ⟨_, hf.some hG hu₁⟩
    rw [hpay]
  · refine Variable.linkedBy_without_eq_self fun l hl hG => ?_
    obtain ⟨u, hu, hlink⟩ := hs.linked.linked hv hl
    exact hs.forest.no_link_of_below hG.1 hG.2 hu x hlink

-- What was live and is so no longer has been freed for good.
theorem vacated_of_cleared
    (hf : Freed (fun x => h.Below t x ∧ x ≠ t) (h.change t fun v => { v with payload := .null }) h')
    (hvac : ∀ y, h.Below t y → y ≠ t → h'.arena.Vacated y) (hx : h.Live x) (hgone : ¬h'.Live x) :
    h'.arena.Vacated x := by
  obtain ⟨v, hv⟩ := (maps_change fun v => { v with payload := .null }).live.mpr hx
  by_cases hG : h.Below t x ∧ x ≠ t
  · exact hvac x hG.1 hG.2
  · exact absurd ⟨_, hf.some hG hv⟩ hgone

section Writing

variable (hs : h.Sound [] strict) (hst : h.Stands id t w) (hst' : h.Stands source g u)

include hs hst

theorem clear_confined :
    Ensures (clear id) h
      (fun r h' => r = (t, w.leftValue) ∧ Cleared h t w h' strict ∧ Confined (h.Below t) h h' ∧
        ∀ {x}, h.Live x → ¬h'.Live x → h'.arena.Vacated x)
      (Refused h) := by
  refine ((clear_ensures hs hst).and (clear_takes hs hst)).mono ?_ fun _ _ he => he.1
  rintro r h' ⟨⟨-, hr, hcl⟩, hf, hvac⟩
  exact ⟨hr, hcl, confined_of_cleared hs hf, vacated_of_cleared hf hvac⟩

include hst'

-- A copy changes the target and what lies in it.
theorem copy_confined :
    Ensures (copy id source) h (fun _ h' => Confined (h.Below t) h h') (Refused h) := by
  rw [copy, Ensures.bind_iff, read_resolve_iff hst, Ensures.bind_iff, read_resolve_iff hst']
  split
  · exact .refl hs.linked
  · rw [Ensures.bind_iff]
    refine checkTypes_ensures hst hst' ?_
    rw [Ensures.bind_iff]
    refine read_toValue hs hst'.live fun value => ?_
    rw [writeValue, Ensures.bind_iff]
    refine (clear_confined hs hst).mono ?_ fun _ _ he => he
    rintro _ h₁ ⟨rfl, hcl, hc, hgone⟩
    obtain ⟨w₁, hw₁, hnull, -, hflag, -⟩ := hcl.record
    have hs₁ := (hcl.step closed_nothing not_false).sound
    refine (fill_ensures value hs₁ hw₁ hnull hflag).mono ?_ fun _ _ he => he
    intro _ h₂ hf
    refine hc.later hs.linked (fun x v hx hv => hf.others x v ?_ hv) fun hy => ⟨?_, ?_⟩
    · rintro rfl
      exact hx .refl
    · rintro ⟨v, hv⟩
      by_contra hl
      cases (hf.passed (hgone hy hl).passed).get?_eq_none.symm.trans hv
    · rintro ⟨v, hv⟩
      obtain ⟨v', hv', -⟩ := hf.stays _ v hv
      exact ⟨v', hv'⟩

-- So does a hand-over, and it changes the temporary array that gives up its elements, with what
-- lies in it.
theorem moveOrCopy_confined (hleft : w.leftValue = true) :
    Ensures (moveOrCopy id source) h
      (fun _ h' => Confined (fun x => h.Below t x ∨ isSpare u = true ∧ h.Below g x) h h')
      (Refused h) := by
  have hcopy := (copy_confined hs hst hst').mono (Q := fun _ h' =>
    Confined (fun x => h.Below t x ∨ isSpare u = true ∧ h.Below g x) h h')
    (fun _ _ hc => hc.mono fun _ => .inl) fun _ _ he => he
  rw [moveOrCopy, Ensures.bind_iff, read_resolve_iff hst', Ensures.bind_iff,
    read_lookup_iff hst'.var]
  split
  · exact hcopy
  rename_i hspare
  have hspare : isSpare u = true := by simpa using hspare
  rw [Ensures.bind_iff, read_resolve_iff hst]
  split
  · exact hcopy
  rename_i hne
  obtain ⟨hgf, items, hu⟩ := eq_array_of_isSpare hspare
  rw [Ensures.bind_iff]
  refine checkTypes_ensures hst hst' ?_
  rw [Ensures.bind_iff]
  refine (clear_confined hs hst).mono ?_ fun _ _ he => he
  rintro _ h₁ ⟨rfl, hcl, hc, -⟩
  refine (hcl.move hs closed_nothing hst hst' hleft hgf hu hne not_false not_false).mono ?_
    fun _ _ he => he
  rintro _ h₂ ⟨-, hh⟩
  refine (hc.mono fun _ => .inl).later hs.linked (fun x v hx hv => ?_) fun _ => hh.lives
  obtain ⟨hxt, hxg⟩ := not_or.mp hx
  rw [hh.outside x (fun he => hxt (he ▸ .refl)) fun hb => hxg ⟨hspare, hcl.below hb⟩, hv]

end Writing

end Heap

end FinLang

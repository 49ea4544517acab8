import FinLang.Proofs.Heap.Write
import Mathlib.Data.List.Nodup

namespace FinLang

namespace Heap

variable {h h' : Heap} {loose : List VarId} {strict : Prop} {K : VarId → Prop} {id t c : VarId}
  {v w : Variable} {p : Payload} {i : Nat} {E : Failure → Heap → Prop}

theorem elements_appendItems (extra : Array VarId) (p : Payload) :
    (appendItems extra p).elements = p.elements ++ extra := by
  cases p <;> simp [appendItems, Payload.elements]

theorem appendItems_ne_link (extra : Array VarId) (p : Payload) (u : VarId) :
    appendItems extra p ≠ .link u := by
  cases p <;> simp [appendItems]

-- The element that is asked for is there in the end; an array may have grown for it, by null
-- elements. Nothing else has changed.
structure Reached (K : VarId → Prop) (h : Heap) (t : VarId) (w : Variable) (i : Nat) (c : VarId)
    (h' : Heap) (strict : Prop := True) : Prop where
  step : Step K (fun _ => False) [] h h' strict
  record : ∃ p, h'.var? t = some { w with payload := p } ∧ (∀ u, p ≠ .link u) ∧
    p.elements[i]? = some c
  others : ∀ x v, x ≠ t → h.var? x = some v → h'.var? x = some v
  added : ∀ x u, h.var? x = none → h'.var? x = some u →
    u = .make .null (.array t) w.leftValue ∧ h'.Lists t x

-- The handle stands for the same array as before.
theorem Reached.stands (hr : Reached K h t w i c h' strict) (hst : h.Stands id t w) :
    ∃ p, h'.Stands id t { w with payload := p } ∧ p.elements[i]? = some c := by
  obtain ⟨p, hw, hno, hget⟩ := hr.record
  refine ⟨p, ?_, hget⟩
  rcases hst.self_or_link with rfl | ⟨v, hv, hlink⟩
  · exact .self hw hno
  · have hne : id ≠ t := by
      rintro rfl
      cases hv.symm.trans hst.var
      exact hst.no_link _ hlink
    have hv' := hr.others id v hne hv
    exact ⟨resolve_eq_target hr.step.sound.linked hv' hlink, hw, hno, .inr ⟨v, hv', hlink⟩⟩

-- An array grows by new variables, which all become its elements.
theorem growth_added {E : Failure → Heap → Prop} (hs : h.arena.Sound) (flag : Bool) (n : Nat)
    (items : Array VarId) :
    Ensures (liftM (growth t flag n items) : HeapM (Array VarId)) h
      (fun items' h' => Extends h h' ∧ (∀ x ∈ items, x ∈ items') ∧
        ∀ x u, h.var? x = none → h'.var? x = some u →
          u = .make .null (.array t) flag ∧ x ∈ items') E := by
  induction n generalizing h items with
  | zero => exact ⟨.refl, fun _ hx => hx, fun x u hx hu => nomatch hx.symm.trans hu⟩
  | succ n ih =>
    have hself := Arena.get?_insert_self hs (.make .null (.array t) flag)
    have hother := fun x => @Arena.get?_insert_of_ne _ _ _ hs (.make .null (.array t) flag) x
    have hnone := Arena.get?_insert_fresh hs (.make .null (.array t) flag)
    obtain ⟨hext, hmem, hnew⟩ := Ensures.lift_iff.mp (ih (h := h.added (.make .null (.array t) flag))
      (Arena.sound_insert hs _) (items.push (h.fresh (.make .null (.array t) flag))))
    rw [Ensures.lift_iff, growth]
    refine ⟨fun x v hv => hext x v ((hother x ?_).trans hv), fun x hx => hmem x (by simp [hx]),
      fun x u hx hu => ?_⟩
    · rintro rfl
      cases hnone.symm.trans hv
    · by_cases hf : x = h.fresh (.make .null (.array t) flag)
      · subst hf
        exact ⟨Option.some.inj (hu.symm.trans (hext _ _ hself)), hmem _ (by simp)⟩
      · exact hnew x u ((hother x hf).trans hx) hu

theorem element_ensures (hs : h.Sound [] strict) (hc : h.Closed K) (hst : h.Stands id t w)
    (hkt : ¬K t) :
    Ensures (element id i) h (fun c h' => Reached K h t w i c h' strict) (Refused h) := by
  rw [element, Ensures.bind_iff, read_resolve_iff hst, Ensures.bind_iff, read_lookup_iff hst.var,
    Ensures.bind_iff]
  refine read_ensures (fun e he => ?_) fun count hcount => ?_
  · rcases hw : w.payload <;> simp only [elementCount, hw] at he <;> cases he <;>
      simp [Cause.Ordinary, Failure.of, Cause.kind]
  have hsize : count = w.payload.elements.size := by
    rcases hw : w.payload <;> simp [elementCount, hw] at hcount <;> simp [← hcount, Payload.elements]
  split
  · split
    · rw [Ensures.bind_iff]
      refine fail_iff.mpr ⟨rfl, ?_⟩
      simp [Cause.Ordinary, Failure.of, Cause.kind]
    · rw [Ensures.bind_iff]
      refine ((growth_ensures (i + 1 - count) #[] (.refl hs)).and
        (growth_added (E := Refused h) hs.forest.arena w.leftValue _ #[])).mono ?_ fun _ _ he => he.1
      rintro extra h₁ ⟨⟨hextra, hb⟩, -, -, hnew⟩
      have hw₁ := hb.extends_ t w hst.var
      have hs₂ := hb.adopt (q := appendItems extra w.payload) hst.var hst.no_link
        (appendItems_ne_link _ _) (by simp [elements_appendItems]) rfl
      have hs₂ : (h₁.change t fun v => { v with payload := appendItems extra v.payload }).Sound []
          strict :=
        hs₂.congr (Arena.sound_modify hb.sound.forest.arena _ _) (var?_change_congr hw₁ rfl)
      have hw₂ : (h₁.change t fun v => { v with payload := appendItems extra v.payload }).var? t =
          some { w with payload := appendItems extra w.payload } := by
        rw [var?_change, if_pos rfl, hw₁]
        rfl
      have hin : i < (appendItems extra w.payload).elements.size := by
        rw [elements_appendItems, Array.size_append]
        simp only [Array.size_empty] at hextra
        omega
      rw [Ensures.bind_iff, update_iff hw₁, Ensures.bind_iff, read_lookup_iff hw₂,
        Array.getElem?_eq_getElem hin]
      have hstep : Step K (fun _ => False) (extra.toList ++ []) h h₁ strict :=
        hb.step (fun x hx => hc.live hx) (by simp) (by simp)
      refine ⟨hstep.seq (.change hs₂ hkt fun _ => rfl),
        ⟨_, hw₂, appendItems_ne_link _ _, Array.getElem?_eq_getElem hin⟩, fun x v hx hv => ?_,
        fun x u hx hu => ?_⟩
      · rw [var?_change, if_neg hx]
        exact hb.extends_ x v hv
      · have hne : x ≠ t := by
          rintro rfl
          cases hx.symm.trans hst.var
        rw [var?_change, if_neg hne] at hu
        obtain ⟨rfl, hin⟩ := hnew x u hx hu
        exact ⟨rfl, _, hw₂, by simp [elements_appendItems, hin]⟩
  · rename_i hlt
    have hin : i < w.payload.elements.size := by omega
    rw [Ensures.bind_iff, read_lookup_iff hst.var, Array.getElem?_eq_getElem hin]
    exact ⟨.refl hs, ⟨_, hst.var, hst.no_link, Array.getElem?_eq_getElem hin⟩, fun _ _ _ hv => hv,
      fun x u hx hu => by cases hx.symm.trans hu⟩

theorem mem_setIfInBounds {items : Array VarId} {x d : VarId} (hnd : items.toList.Nodup)
    (hc : items[i]? = some c) :
    x ∈ items.setIfInBounds i d ↔ x = d ∨ x ∈ items ∧ x ≠ c := by
  obtain ⟨hi, rfl⟩ := Array.getElem?_eq_some_iff.mp hc
  simp only [Array.mem_iff_getElem?, Array.getElem?_setIfInBounds]
  constructor
  · rintro ⟨k, hk⟩
    split at hk
    · subst_vars
      exact .inl (Option.some.inj hk).symm
    · rename_i hne
      refine .inr ⟨⟨k, hk⟩, ?_⟩
      rintro rfl
      obtain ⟨hk', heq⟩ := Array.getElem?_eq_some_iff.mp hk
      exact hne ((@List.Nodup.getElem_inj_iff _ _ hnd i hi k hk').mp (by simpa using heq.symm))
  · rintro (rfl | ⟨⟨k, hk⟩, hne⟩)
    · exact ⟨i, by simp [hi]⟩
    · refine ⟨k, ?_⟩
      rw [if_neg, hk]
      rintro rfl
      obtain ⟨hk', heq⟩ := Array.getElem?_eq_some_iff.mp hk
      exact hne heq.symm

-- An element has been taken out of its array: it has no owner any more, and a new null variable is in
-- its place. Nothing else has changed.
structure Taken (h : Heap) (t : VarId) (w : Variable) (c : VarId) (h' : Heap) : Prop where
  element : ∀ u, h.var? c = some u → h'.var? c = some { u with owner := .detached }
  array : ∃ p, h'.var? t = some { w with payload := p }
  others : ∀ x v, x ≠ t → x ≠ c → h.var? x = some v → h'.var? x = some v
  added : ∀ x u, h.var? x = none → h'.var? x = some u →
    u = .make .null (.array t) false ∧ h'.Lists t x

-- An element of a temporary becomes a temporary itself.
theorem detachElement_ensures (hs : h.Sound [] strict) (hc : h.Closed K) (hst : h.Stands id t w)
    (hkt : ¬K t) (hleft : w.leftValue = false) (hi : w.payload.elements[i]? = some c) :
    Ensures (detachElement id i) h
      (fun r h' => r = c ∧ Step K (· = c) [] h h' strict ∧ h'.Held c ∧ Taken h t w c h') E := by
  obtain ⟨items, hitems⟩ : ∃ items, w.payload = .array items := by
    rcases hw : w.payload <;> simp_all [Payload.elements]
  have hel : w.payload.elements = items := by rw [hitems]; rfl
  rw [hel] at hi
  have hnd : items.toList.Nodup := hel ▸ hs.forest.nodup hst.var
  have hcin : c ∈ items := Array.mem_of_getElem? hi
  have hlist : h.Lists t c := ⟨w, hst.var, hel.symm ▸ hcin⟩
  have hkc : ¬K c := mt (hc.element hlist).mp hkt
  obtain ⟨u, hu, huo, huno⟩ := hs.forest.element hlist
  have hct : c ≠ t := fun he => hs.forest.not_below_of_lists hlist (he ▸ .refl)
  rw [detachElement, Ensures.bind_iff, read_resolve_iff hst, Ensures.bind_iff,
    read_lookup_iff hst.var, hel, hi, Ensures.bind_iff]
  -- The substitute.
  have hb := (Built.refl hs : Built h h [] [] (.array t) false strict).insert
  refine insert_iff.mpr ?_
  have hvar₁ := hs.forest.var?_added (.make .null (.array t) false)
  generalize h.fresh (.make .null (.array t) false) = d at hb hvar₁
  generalize h.added (.make .null (.array t) false) = h₁ at hb hvar₁
  have hw₁ := hb.extends_ t w hst.var
  have hu₁ := hb.extends_ c u hu
  obtain ⟨y, hy, hyo, hyl, -, -, hyno⟩ := hb.record d (by simp)
  have hdc : d ∉ items := by
    intro hin
    obtain ⟨z, hz, -⟩ := hs.forest.element ⟨w, hst.var, hel.symm ▸ hin⟩
    rw [hb.fresh d (by simp)] at hz
    cases hz
  have hmem (x : VarId) := mem_setIfInBounds (x := x) (d := d) hnd hi
  have hs₂ : (h₁.change t fun v =>
      { v with payload := .array (items.setIfInBounds i d) }).Sound [c] strict := by
    refine hb.sound.change_payload hw₁ hst.no_link (by simp) ?_ (fun x hx => ?_) (by simp)
      fun x => ?_
    · simp only [Payload.elements, Array.toList_setIfInBounds]
      exact hnd.set (by simpa using hdc)
    · rcases (hmem x).mp hx with rfl | ⟨hx, -⟩
      · exact .inr ⟨by simp, hb.not_below (by simp) ⟨w, hst.var⟩, y, hy, hyo, hyl.trans hleft.symm,
          hyno⟩
      · exact .inl (hel.symm ▸ hx)
    · simp only [Payload.elements, hmem, hitems, List.mem_singleton, List.nil_append,
        List.append_nil]
      constructor
      · rintro rfl
        refine ⟨.inr hcin, ?_⟩
        rintro (rfl | ⟨-, hne⟩)
        · exact hdc hcin
        · exact hne rfl
      · rintro ⟨hx, hnot⟩
        by_contra hne
        exact hnot (hx.imp_right fun hx => ⟨hx, hne⟩)
  have hstep₁ : Step K (· = c) ([d] ++ []) h h₁ strict :=
    hb.step (fun x hx => hc.live hx) (by simp) (by simp)
  rw [Ensures.bind_iff, update_iff hw₁, Ensures.bind_iff]
  have hs₂ : (h₁.change t fun v =>
      { v with payload := v.payload.mapElements (·.setIfInBounds i d) }).Sound [c] strict :=
    hs₂.congr (Arena.sound_modify hb.sound.forest.arena _ _)
      (var?_change_congr hw₁ (by rw [hitems]; rfl))
  have hstep₂ : Step K (· = c) [c] h₁ _ strict := .change hs₂ hkt fun _ => rfl
  have hu₂ : (h₁.change t fun v =>
      { v with payload := v.payload.mapElements (·.setIfInBounds i d) }).var? c = some u := by
    rw [var?_change, if_neg hct, hu₁]
  have hvar₂ : ∀ x, (h₁.change t fun v =>
      { v with payload := v.payload.mapElements (·.setIfInBounds i d) }).var? x =
      if x = t then some { w with payload := .array (items.setIfInBounds i d) } else h₁.var? x := by
    intro x
    rw [var?_change]
    split
    · rename_i hx
      rw [hx, hw₁, Option.map_some, hitems]
      rfl
    · rfl
  generalize (h₁.change t fun v =>
      { v with payload := v.payload.mapElements (·.setIfInBounds i d) }) = h₂ at hs₂ hstep₂ hu₂ hvar₂
  -- What has been taken out gets the owner and the flag of a temporary.
  have hul : u.leftValue = false :=
    (hs.flagged.left hst.var hu (hel.symm ▸ hcin)).trans hleft
  have hs₃ := hs₂.change_owner (o := .detached) (List.mem_singleton_self c)
  have hstep₃ : Step K (· = c) [c] h₂ _ strict :=
    .change_owner hs₃ hkc hu₂ (by simp [huo]) (by simp) fun _ => rfl
  have hu₃ : (h₂.change c fun v => { v with owner := .detached }).var? c =
      some { u with owner := .detached } := by
    rw [var?_change, if_pos rfl, hu₂]
    rfl
  have hvar₃ : ∀ x, x ≠ c → (h₂.change c fun v => { v with owner := .detached }).var? x =
      h₂.var? x := fun x hx => (var?_change _ _).trans (if_neg hx)
  rw [setOwner, update_iff hu₂, Ensures.bind_iff]
  generalize (h₂.change c fun v => { v with owner := .detached }) = h₃ at hs₃ hstep₃ hu₃ hvar₃
  refine (setLeftValue_ensures hs₃.forest.arena (hs₃.forest.within ⟨_, hu₃⟩)).mono ?_
    fun _ _ he => he
  rintro _ h₄ ⟨ha₄, hm₄⟩
  have hs₄ := hs₃.marked ha₄ hm₄ hu₃ (by simp) fun _ => .inr hul
  have hu₄ : h₄.var? c = some { u with owner := .detached } := by
    rw [hm₄.some hu₃, marking_of_pos .refl, ← hul]
  have hs₅ := hs₄.tighten hu₄ (by simp) (fun _ _ => ⟨hul, huno⟩) (by simp)
    fun _ => .of_no_link hu₄ huno
  have hK₃ : h₃.Closed K :=
    hc.keeps hs hs₃ (hstep₁.keeps.trans (hstep₂.keeps.trans hstep₃.keeps))
  have hstep₄ : Step K (· = c) [] h₃ h₄ strict := by
    refine .of_maps hs₅ hm₄ (fun x z hx _ => marking_of_neg fun hb => ?_) fun _ _ _ => owner_marking
    exact hkc ((hK₃.below hb).mp hx)
  refine ⟨rfl, (hstep₁.seq hstep₂).seq (hstep₃.seq hstep₄), ⟨_, hu₄, .inl rfl⟩, ?_⟩
  -- All that lies in the element has the flag of a temporary already.
  have hvar₄ : ∀ x, h₄.var? x = h₃.var? x := by
    intro x
    rw [hm₄ x]
    rcases hx : h₃.var? x with _ | v
    · rfl
    · by_cases hb : h₃.Below c x
      · have hv : v.leftValue = false := (hs₃.flagged.below hb hu₃ hx).trans hul
        rw [Option.map_some, marking_of_pos hb, ← hv]
      · rw [Option.map_some, marking_of_neg hb]
  have ht : h₄.var? t = some { w with payload := .array (items.setIfInBounds i d) } := by
    rw [hvar₄, hvar₃ t hct.symm, hvar₂, if_pos rfl]
  have hother : ∀ x, x ≠ t → x ≠ c →
      h₄.var? x = if x = d then some (.make .null (.array t) false) else h.var? x := by
    intro x hxt hxc
    rw [hvar₄, hvar₃ x hxc, hvar₂, if_neg hxt, hvar₁]
  have hd : h.var? d = none := hb.fresh d (by simp)
  refine ⟨fun u' hu' => ?_, ⟨_, ht⟩, fun x v hxt hxc hv => ?_, fun x u' hx hu' => ?_⟩
  · cases hu.symm.trans hu'
    exact hu₄
  · rw [hother x hxt hxc, if_neg, hv]
    rintro rfl
    cases hd.symm.trans hv
  · have hxt : x ≠ t := by
      rintro rfl
      cases hx.symm.trans hst.var
    have hxc : x ≠ c := by
      rintro rfl
      cases hx.symm.trans hu
    rw [hother x hxt hxc] at hu'
    split at hu'
    · subst_vars
      cases hu'
      exact ⟨rfl, _, ht, (hmem x).mpr (.inl rfl)⟩
    · cases hx.symm.trans hu'

-- A temporary becomes the last element of an array and gets its flag.
theorem attach_ensures (hs : h.Sound [] strict) (hc : h.Closed K) (hw : h.var? t = some w)
    (hno : ∀ u, w.payload ≠ .link u) (hkt : ¬K t) (hv : h.var? c = some v)
    (hvo : v.owner = .detached) (hvl : ∀ u, v.payload ≠ .link u) (hkc : ¬K c) (hout : ¬h.Below c t) :
    Ensures (do
      update t fun v => { v with payload := appendItems #[c] v.payload }
      setOwner c (.array t)
      setLeftValue c w.leftValue) h
      (fun _ h' => Step K (fun _ => False) [] h h' strict ∧ ¬h'.Detached c ∧
        ∃ w', h'.var? t = some w' ∧ w'.owner = w.owner ∧ w'.writeProtected = w.writeProtected ∧
          w'.payload = appendItems #[c] w.payload) E := by
  have hne : c ≠ t := fun he => hout (he ▸ .refl)
  have hroot := hs.forest.root_of_owner hv (by simp [hvo])
  -- The owner first, then the flag, then the elements: in this order every heap
  -- is sound.
  have hs₁ := (hs.loosen hroot (by simp)).change_owner (o := .array t) (List.mem_cons_self ..)
  have hstep₁ : Step K (fun _ => False) [c] h
      (h.change c fun v => { v with owner := .array t }) strict :=
    .change_owner hs₁ hkc hv (by simp [hvo]) (by simp) (by simp)
  have hm₁ : Maps _ h (h.change c fun v => { v with owner := .array t }) := maps_change _
  have hv₁ := hm₁.some hv
  have hw₁ := hm₁.some hw
  rw [if_pos rfl] at hv₁
  rw [if_neg hne.symm] at hw₁
  generalize (h.change c fun v => { v with owner := .array t }) = h₁ at *
  have hlists₁ : ∀ {p x}, h₁.Lists p x ↔ h.Lists p x :=
    hm₁.lists fun {x v} _ => by split <;> rfl
  have hbelow₁ : ∀ {x}, h₁.Below c x ↔ h.Below c x := hm₁.below fun {x v} _ => by split <;> rfl
  have hset : Ensures (setLeftValue c w.leftValue) h₁ _ fun _ _ => False :=
    setLeftValue_ensures hs₁.forest.arena (hs₁.forest.within ⟨_, hv₁⟩)
  obtain ⟨-, h₂, ha₂, hm₂⟩ := hset.exists_ok
  have hs₂ := hs₁.marked ha₂ hm₂ hv₁ (by simp) fun hstrict => by
    have := (hs.ruled hstrict).temporary hv (by simp) hvo
    exact .inr this
  have hc₁ := hc.keeps hs hs₁ hstep₁.keeps
  have hstep₂ : Step K (fun _ => False) [c] h₁ h₂ strict :=
    .of_maps hs₂ hm₂ (fun x z hx _ => marking_of_neg fun hb => hkc ((hc₁.below hb).mp hx))
      fun _ _ _ => owner_marking
  have hw₂ : h₂.var? t = some w := by
    rw [hm₂.some hw₁, marking_of_neg fun hb => hout (hbelow₁.mp hb)]
  have hv₂ : h₂.var? c = some { v with owner := .array t, leftValue := w.leftValue } := by
    rw [hm₂.some hv₁, marking_of_pos .refl]
  -- What the array has in the end.
  have hnot : c ∉ w.payload.elements := fun hin => hroot.2 t ⟨w, hw, hin⟩
  have hnd : (appendItems #[c] w.payload).elements.toList.Nodup := by
    simpa [elements_appendItems, List.nodup_append, hnot] using
      ⟨hs.forest.nodup hw, fun a hin he => hnot (he ▸ hin)⟩
  have hmem : ∀ x, x ∈ (appendItems #[c] w.payload).elements ↔ x ∈ w.payload.elements ∨ x = c := by
    simp [elements_appendItems]
  have hloose : ∀ x, x ∈ [] ↔ (x ∈ [c] ∨ x ∈ w.payload.elements) ∧
      x ∉ (appendItems #[c] w.payload).elements := by
    intro x
    rw [hmem, List.mem_singleton]
    grind
  have hs₃ : (h₂.change t fun v => { v with payload := appendItems #[c] w.payload }).Sound [] strict := by
    refine hs₂.change_payload hw₂ hno (appendItems_ne_link _ _) hnd (fun x hx => ?_) (by simp) hloose
    refine ((hmem x).mp hx).imp_right ?_
    rintro rfl
    refine ⟨by simp, fun hb => hout (hbelow₁.mp ?_), _, hv₂, rfl, rfl, hvl⟩
    exact (hm₂.below fun _ => by rw [payload_marking]).mp hb
  have hstep₃ : Step K (fun _ => False) [] h₂ _ strict := .change hs₃ hkt fun _ => rfl
  -- As it is done, the elements come first and the flag last.
  rw [Ensures.bind_iff, update_iff hw, Ensures.bind_iff, setOwner, update_iff (v := v) (by
    rw [var?_change, if_neg hne, hv])]
  have hvar : ∀ x, (((h.change t fun v => { v with payload := appendItems #[c] v.payload }).change c
      fun v => { v with owner := .array t }).var? x) =
      (h₁.change t fun v => { v with payload := appendItems #[c] w.payload }).var? x := by
    intro x
    simp only [var?_change, hm₁ x]
    by_cases hxc : x = c
    · simp [hxc, hne]
    · by_cases hxt : x = t <;> simp [hxt, hxc, hne.symm, hw]
  have hg : ((h.change t fun v => { v with payload := appendItems #[c] v.payload }).change c
      fun v => { v with owner := .array t }).arena.Sound :=
    Arena.sound_modify (Arena.sound_modify hs.forest.arena _ _) _ _
  generalize ((h.change t fun v => { v with payload := appendItems #[c] v.payload }).change c
    fun v => { v with owner := .array t }) = g at hvar hg ⊢
  have hlists : ∀ {p x}, p ≠ t → (g.Lists p x ↔ h.Lists p x) := by
    intro p x hpt
    rw [← hlists₁]
    unfold Lists
    rw [hvar, var?_change, if_neg hpt]
  have hbelow : g.Below c = h₁.Below c := by
    funext x
    rw [propext hbelow₁, eq_iff_iff]
    constructor
    · intro hb
      induction hb with
      | refl => exact .refl
      | step _ hl ih => exact ih.step ((hlists fun he => hout (he ▸ ih)).mp hl)
    · intro hb
      induction hb with
      | refl => exact .refl
      | step hb hl ih => exact ih.step ((hlists fun he => hout (he ▸ hb)).mpr hl)
  have hf : g.Forest [] := by
    refine Forest.congr (hs₁.forest.change_payload hw₁ (appendItems_ne_link _ _) hnd (fun x hx => ?_)
      (by simp) hloose) hg hvar
    refine ((hmem x).mp hx).imp_right ?_
    rintro rfl
    exact ⟨by simp, fun hb => hout (hbelow₁.mp hb), _, hv₁, rfl, hvl⟩
  have hgc : g.Live c := ⟨_, (hvar c).trans ((var?_change _ _).trans ((if_neg hne).trans hv₁))⟩
  refine (setLeftValue_ensures hg (hf.within hgc)).mono ?_ fun _ _ he => he
  rintro _ h₄ ⟨ha₄, hm₄⟩
  have hvar₄ : ∀ x, h₄.var? x =
      (h₂.change t fun v => { v with payload := appendItems #[c] w.payload }).var? x := by
    intro x
    rw [hm₄ x, hvar x, var?_change, var?_change, hm₂ x, hbelow]
    by_cases hxt : x = t
    · subst hxt
      have hx : ¬h₁.Below c x := mt hbelow₁.mp hout
      simp [hw₁, marking_of_neg hx]
    · simp [hxt]
  refine ⟨((hstep₁.seq hstep₂).seq hstep₃).congr ha₄ hvar₄, ?_, ?_⟩
  · rintro ⟨y, hy, hyo⟩
    rw [hvar₄, var?_change, if_neg hne, hv₂] at hy
    cases hy
    cases hyo
  · refine ⟨{ w with payload := appendItems #[c] w.payload }, ?_, rfl, rfl, rfl⟩
    rw [hvar₄, var?_change, if_pos rfl, hw₂]
    rfl

-- An array in the making: a temporary that may still be written to.
def Open (h : Heap) (id : VarId) : Prop :=
  ∃ v, h.var? id = some v ∧ v.owner = .detached ∧ v.writeProtected = false ∧
    ∃ items, v.payload = .array items

-- A temporary becomes the last element of a temporary array.
theorem pushElement_ensures (hs : h.Sound []) (hc : h.Closed K) (ha : h.Open id) (hka : ¬K id)
    (hd : h.Detached c) (hkc : ¬K c) (hne : c ≠ id) :
    Ensures (pushElement id c) h
      (fun _ h' => Step K (fun _ => False) [] h h' ∧ h'.Open id ∧ ¬h'.Detached c) E := by
  obtain ⟨w, hw, hwo, hwp, items, hitems⟩ := ha
  obtain ⟨v, hv, hvo⟩ := hd
  have hno : ∀ t, w.payload ≠ .link t := by simp [hitems]
  have hout : ¬h.Below c id := fun hb =>
    hne (hb.eq_of_root (hs.forest.root_of_owner hw (by simp [hwo])).2).symm
  have hstands : h.Stands id id w := .self hw hno
  have hwritable : h.writable id = .ok (id, w) :=
    hstands.writable.elim And.left fun herr => by
      simp [Heap.writable, hstands.resolve, lookup_eq hw, hwp, bind, Except.bind, pure,
        Except.pure] at herr
  rw [pushElement, Ensures.bind_iff, read_resolve_iff hstands, Ensures.bind_iff]
  refine read_ok (f := fun h => h.writable id) (a := (id, w)) hwritable |>.mpr ?_
  simp only [hitems, Payload.varType]
  refine (attach_ensures hs hc hw hno hka hv hvo (hs.rules.plain hv (by simp) hvo) hkc hout).mono
    ?_ fun _ _ he => he
  rintro _ h' ⟨hstep, hnd, w', hw', hwo', hwp', hpay⟩
  refine ⟨hstep, ⟨w', hw', hwo'.trans hwo, hwp'.trans hwp, items ++ #[c], ?_⟩, hnd⟩
  rw [hpay, hitems]
  rfl

-- More variables make no difference to what a handle stands for.
theorem Stands.extends {h' : Heap} (hst : h.Stands id t w) (hx : Extends h h') (hl : h'.Linked) :
    h'.Stands id t w := by
  have hw := hx t w hst.var
  rcases hst.self_or_link with rfl | ⟨v, hv, hlink⟩
  · exact .self hw hst.no_link
  · have hv' := hx id v hv
    exact ⟨resolve_eq_target hl hv' hlink, hw, hst.no_link, .inr ⟨v, hv', hlink⟩⟩

-- A new link, still without an owner.
theorem allocLink_ensures (hs : h.Sound [] strict) (hc : h.Closed K) (hst : h.Stands id t w)
    (hkt : ¬K t) :
    Ensures (allocLink id) h
      (fun l h' => Step K (· = l) [l] h h' strict ∧ h.var? l = none ∧ h'.Detached l ∧
        (w.leftValue = true → h'.Aimed l)) E := by
  have ht := temporary_added (p := .null) hs (fun x hx => hc.live hx) rfl (by simp)
  rw [allocLink, Ensures.bind_iff]
  refine (alloc_iff (p := .null) rfl).mpr ?_
  have hl : (h.added (.temporary .null)).var? (h.fresh (.temporary .null)) =
      some (.temporary .null) := by
    rw [hs.forest.var?_added, if_pos rfl]
  generalize h.added (.temporary .null) = h₁ at ht hl
  generalize h.fresh (.temporary .null) = l at ht hl
  have hw₁ := ht.extends_ t w hst.var
  have hne : t ≠ l := by
    rintro rfl
    have := hst.var
    rw [ht.fresh] at this
    cases this
  have hst₁ : h₁.Stands id t w := hst.extends ht.extends_ ht.step.sound.linked
  have hroot := ht.step.sound.forest.root_of_detached ht.detached
  have hs₂ := (ht.step.sound.loosen hroot (by simp)).link hl rfl rfl (by simp) hw₁ hst.no_link hne
  have hkl : ¬K l := by
    intro hk
    obtain ⟨v, hv⟩ := hc.live hk
    rw [ht.fresh] at hv
    cases hv
  rw [Ensures.bind_iff, setLink, Ensures.bind_iff, read_resolve_iff hst₁, if_neg hne,
    Ensures.bind_iff, unsetLink_iff_of_no_link hl (by simp [Variable.temporary, Variable.make]),
    Ensures.bind_iff, read_lookup_iff hl, if_neg (by decide), setPayload, Ensures.bind_iff,
    update_iff hl]
  refine modifyVariable_iff.mpr ?_
  have hm := maps_linking (h := h₁) hne
  refine ⟨ht.step.seq ?_, ht.fresh, ⟨_, hm.some hl, (flags_linking _ _).1⟩, fun hleft => ?_⟩
  rotate_left
  · intro v t' w' hv ht' hw'
    cases hv.symm.trans (hm.some hl)
    obtain rfl : t = t' := by simpa [linking, Ne.symm hne] using ht'
    cases hw'.symm.trans (hm.some hw₁)
    exact (flags_linking t w).2.trans hleft
  refine .of_maps hs₂ (maps_linking hne) (fun x v hx _ => ?_) fun x v _ => (flags_linking x v).1
  have hxt : x ≠ t := fun he => hkt (he ▸ hx)
  have hxl : x ≠ l := fun he => hkl (he ▸ hx)
  simp [linking, hxt, hxl]

end Heap

end FinLang

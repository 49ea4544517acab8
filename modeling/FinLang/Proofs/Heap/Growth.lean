import FinLang.Proofs.Heap.Elements
import FinLang.Proofs.Heap.Paths

namespace FinLang

namespace Heap

-- One step along a path. An array that was too short has got nulls, and a null has become an array.
-- Nothing else has changed.
structure Opened (h : Heap) (t : VarId) (w : Variable) (i : Nat) (c : VarId) (h' : Heap)
    (strict : Prop := True) : Prop where
  sound : h'.Sound [] strict
  array : ∃ extra, h'.var? t = some { w with payload := .array (w.payload.elements ++ extra) } ∧
    (w.payload.elements ++ extra)[i]? = some c ∧ extra.size = i + 1 - w.payload.elements.size ∧
    ∀ x ∈ extra, h.var? x = none ∧ h'.var? x = some (.make .null (.array t) w.leftValue)
  others : ∀ x v, x ≠ t → h.var? x = some v → h'.var? x = some v
  same : i < w.payload.elements.size → h' = h

-- The elements along a path, one after the other.
def elementAll (id : VarId) (is : List Nat) : HeapM VarId :=
  is.foldlM element id

-- What lies on a path before its end.
def Above (h : Heap) (t : VarId) (is : List Nat) (x : VarId) : Prop :=
  ∃ js, js <+: is ∧ js ≠ is ∧ h.at? t js = some x

-- A path has been walked to its end. Arrays on the way have grown as far as the path needs it, and
-- where there was no end yet it is a new null.
structure Grown (h : Heap) (t : VarId) (is : List Nat) (e : VarId) (h' : Heap)
    (strict : Prop := True) : Prop where
  sound : h'.Sound [] strict
  path : h'.at? t is = some e
  value : ∀ {value}, h.Holds t value → h'.Holds t (value.alter is id)
  frame : ∀ {x v}, h.var? x = some v → h'.var? x = some v ∨ h.Above t is x ∧ v.payload.Indexable ∧
    ∃ extra, h'.var? x = some { v with payload := .array (v.payload.elements ++ extra) }
  reached : h.at? t is = some e ∧ h' = h ∨
    ∃ u, h'.var? e = some u ∧ u.payload = .null ∧ u.writeProtected = false

variable {h h' h₁ : Heap} {loose : List VarId} {strict : Prop} {id t c e x : VarId} {v w : Variable}
  {i : Nat} {is js : List Nat} {value : Value} {E : Failure → Heap → Prop}

theorem appendItems_of_indexable {p : Payload} (hp : p.Indexable) (extra : Array VarId) :
    appendItems extra p = .array (p.elements ++ extra) := by
  rcases hp with rfl | ⟨items, rfl⟩
  · simp [appendItems, Payload.elements]
  · rfl

theorem elementCount_of_indexable {p : Payload} (hp : p.Indexable) :
    elementCount p = .ok p.elements.size := by
  rcases hp with rfl | ⟨items, rfl⟩ <;> rfl

private theorem element_grows (hs : h.Sound [] strict) (hst : h.Stands id t w)
    (hp : w.payload.Indexable) (hfree : w.writeProtected = false) :
    Ensures (element id i) h
      (fun _ h' => (i < w.payload.elements.size → h' = h) ∧
        ∃ extra, h'.var? t = some { w with payload := .array (w.payload.elements ++ extra) } ∧
          extra.size = i + 1 - w.payload.elements.size ∧ ∀ x ∈ extra, h.var? x = none) E := by
  have hcount := elementCount_of_indexable hp
  rw [element, Ensures.bind_iff, read_resolve_iff hst, Ensures.bind_iff, read_lookup_iff hst.var,
    Ensures.bind_iff, read_ok (f := fun _ => elementCount w.payload) hcount]
  split
  · rename_i hle
    rw [if_neg (by simp [hfree]), Ensures.bind_iff]
    refine (growth_ensures (i + 1 - w.payload.elements.size) #[] (.refl hs)).mono ?_ fun _ _ he => he
    rintro extra h₁ ⟨hsize, hb⟩
    have hw₁ := hb.extends_ t w hst.var
    have hw₂ : (h₁.change t fun v => { v with payload := appendItems extra v.payload }).var? t =
        some { w with payload := .array (w.payload.elements ++ extra) } := by
      rw [var?_change, if_pos rfl, hw₁, Option.map_some, appendItems_of_indexable hp]
    have hin : i < (w.payload.elements ++ extra).size := by
      rw [Array.size_append, hsize, Array.size_empty]
      omega
    have hget : (Payload.array (w.payload.elements ++ extra)).elements[i]? = some _ :=
      Array.getElem?_eq_getElem hin
    rw [Ensures.bind_iff, update_iff hw₁, Ensures.bind_iff, read_lookup_iff hw₂, hget]
    exact ⟨fun hlt => absurd hlt (by omega), extra, hw₂, by simpa using hsize,
      fun x hx => hb.fresh x (Array.mem_toList_iff.mpr hx)⟩
  · rename_i hlt
    have hin : i < w.payload.elements.size := by omega
    have harray := Payload.eq_array_of_getElem? (Array.getElem?_eq_getElem hin)
    rw [Ensures.bind_iff, read_lookup_iff hst.var, Array.getElem?_eq_getElem hin]
    refine ⟨fun _ => rfl, #[], ?_, by simp; omega, by simp⟩
    rw [Array.append_empty, ← harray]
    exact hst.var

-- A step along a path never fails.
theorem element_opens (hs : h.Sound [] strict) (hst : h.Stands id t w) (hp : w.payload.Indexable)
    (hfree : w.writeProtected = false) :
    Ensures (element id i) h (fun c h' => Opened h t w i c h' strict) E := by
  refine ((element_ensures hs closed_nothing hst not_false).and
    (element_grows (E := fun _ _ => False) hs hst hp hfree)).mono ?_ fun _ _ he => he.2.elim
  rintro c h' ⟨hr, hsame, extra, ht, hsize, hfresh⟩
  have hsound := hr.step.sound
  obtain ⟨p, ht', -, hc⟩ := hr.record
  obtain rfl : p = .array (w.payload.elements ++ extra) := by
    have := ht'.symm.trans ht
    simpa using this
  refine ⟨hsound, ⟨extra, ht, hc, hsize, fun x hx => ⟨hfresh x hx, ?_⟩⟩, hr.others, hsame⟩
  obtain ⟨u, hu, -⟩ := hsound.forest.element ⟨_, ht, Array.mem_append_right _ hx⟩
  rw [hu, (hr.added x u (hfresh x hx) hu).1]

-- What has no elements ends every path.
theorem at?_of_plain (hw : h.var? t = some w) (hel : w.payload.elements = #[])
    (he : h.at? t is = some e) : is = [] ∧ e = t := by
  cases is with
  | nil => exact ⟨rfl, (Option.some.inj he).symm⟩
  | cons i is =>
    obtain ⟨w', c, hw', hc, -⟩ := at?_cons_iff.1 he
    cases hw.symm.trans hw'
    simp [hel] at hc

theorem Above.below (ha : h.Above t is x) : h.Below t x := by
  obtain ⟨js, -, -, hx⟩ := ha
  exact below_of_at? hx

theorem holds_items (hw : h.var? t = some w) (hp : w.payload.Indexable) (hh : h.Holds t value) :
    List.Forall₂ h.Holds w.payload.elements.toList value.items := by
  rcases hp with hp | ⟨items, hp⟩
  · obtain ⟨u, hu, hshow⟩ := hh
    cases hw.symm.trans hu
    rw [hp] at hshow ⊢
    cases value with
    | null => exact .nil
    | _ => simp [Shows] at hshow
  · obtain ⟨values, rfl, hall⟩ := (holds_array_iff hw hp).mp hh
    rw [hp]
    exact hall

namespace Opened

-- The element was there before, or it is new.
theorem old_or_new (ho : Opened h t w i c h' strict) :
    w.payload.elements[i]? = some c ∧ h' = h ∨
      h.var? c = none ∧ h'.var? c = some (.make .null (.array t) w.leftValue) := by
  obtain ⟨extra, -, hc, -, hnew⟩ := ho.array
  by_cases hi : i < w.payload.elements.size
  · exact .inl ⟨(Array.getElem?_append_left hi).symm.trans hc, ho.same hi⟩
  · rw [Array.getElem?_append_right (by omega)] at hc
    exact .inr (hnew c (Array.mem_of_getElem? hc))

theorem preserved (ho : Opened h t w i c h' strict) (hs : h.Forest loose) (hl : h.Lists t x) :
    Preserved h h' x := by
  refine fun y v hb hv => ⟨v, ho.others y v ?_ hv, rfl⟩
  rintro rfl
  exact hs.not_below_of_lists hl hb

theorem holds (ho : Opened h t w i c h' strict) (hs : h.Forest loose) (hw : h.var? t = some w)
    (hp : w.payload.Indexable) (hh : h.Holds t value) :
    h'.Holds t (.array (value.items.rightpad (i + 1) .null)) := by
  obtain ⟨extra, ht, -, hsize, hnew⟩ := ho.array
  have hitems := holds_items hw hp hh
  refine (holds_array_iff ht rfl).mpr ⟨_, rfl, ?_⟩
  rw [Array.toList_append, List.rightpad]
  refine List.rel_append ?_ ?_
  · refine List.forall₂_iff_zip.mpr ⟨hitems.length_eq, fun {d v} hd => ?_⟩
    have hin := Array.mem_toList_iff.mp (List.of_mem_zip hd).1
    exact ((List.forall₂_iff_zip.mp hitems).2 hd).preserve (ho.preserved hs ⟨w, hw, hin⟩)
  · have hlen : value.items.length = w.payload.elements.size := by
      simpa using hitems.length_eq.symm
    refine List.forall₂_iff_zip.mpr ⟨by simp [hsize, hlen], fun {d v} hin => ?_⟩
    obtain ⟨hd, hv⟩ := List.of_mem_zip hin
    obtain rfl := List.eq_of_mem_replicate hv
    refine ⟨_, (hnew d (Array.mem_toList_iff.mp hd)).2, ?_⟩
    simp [Shows, Variable.make]

theorem walkable (ho : Opened h t w i c h' strict) (hw : h.var? t = some w)
    (hp : h.Walkable t (i :: is)) : h'.Walkable c is := by
  rcases ho.old_or_new with ⟨hc, rfl⟩ | ⟨-, hc⟩
  · exact hp.next hw hc
  · have hend : ∀ {js x u}, h'.at? c js = some x → h'.var? x = some u →
        u = .make .null (.array t) w.leftValue := fun hx hu => by
      obtain ⟨-, rfl⟩ := at?_of_plain hc rfl hx
      exact Option.some.inj (hu.symm.trans hc)
    refine ⟨fun _ hx hu => ?_, fun _ _ hx hu => ?_⟩
    · rw [hend hx hu]
      rfl
    · rw [hend hx hu]
      exact .inl rfl

-- The rest of a path behind its first step.
theorem cons (ho : Opened h t w i c h₁ strict) (hs : h.Sound [] strict) (hw : h.var? t = some w)
    (hp : w.payload.Indexable) (hg : Grown h₁ c is e h' strict) : Grown h t (i :: is) e h' strict := by
  obtain ⟨extra, ht₁, hc, -, -⟩ := ho.array
  have hlist : h₁.Lists t c := ⟨_, ht₁, Array.mem_of_getElem? hc⟩
  have hfor := ho.sound.forest
  have ht' : h'.var? t = some { w with payload := .array (w.payload.elements ++ extra) } :=
    (hg.frame ht₁).resolve_right fun ha => hfor.not_below_of_lists hlist ha.1.below
  refine ⟨hg.sound, at?_cons_iff.2 ⟨_, c, ht', hc, hg.path⟩, fun hh => ?_, fun {x v} hv => ?_, ?_⟩
  · have hold : ∀ d, h₁.Lists t d → d ≠ c → Preserved h₁ h' d := by
      refine fun d hd hne x v hb hv => ⟨v, (hg.frame hv).resolve_right fun ha => hne ?_, rfl⟩
      exact hfor.siblings hd hlist hb ha.1.below
    obtain ⟨values, heq, -, hh'⟩ :=
      hfor.holds_modify ht₁ hc (ho.holds hs.forest hw hp hh) ht' rfl hold fun _ => hg.value
    cases heq
    exact hh'
  · by_cases hxt : x = t
    · subst hxt
      cases hw.symm.trans hv
      exact .inr ⟨⟨[], List.nil_prefix, by simp, rfl⟩, hp, extra, ht'⟩
    · refine (hg.frame (ho.others x v hxt hv)).imp_right fun ⟨⟨js, hjs, hne, hx⟩, hrest⟩ => ⟨?_, hrest⟩
      refine ⟨i :: js, List.cons_prefix_cons.mpr ⟨rfl, hjs⟩, by simpa using hne, ?_⟩
      rcases ho.old_or_new with ⟨hc, rfl⟩ | ⟨hnone, hnew⟩
      · exact at?_cons_iff.2 ⟨w, c, hw, hc, hx⟩
      · obtain ⟨-, rfl⟩ := at?_of_plain hnew rfl hx
        cases hnone.symm.trans hv
  · rcases hg.reached with ⟨he, rfl⟩ | hnull
    · rcases ho.old_or_new with ⟨hc, rfl⟩ | ⟨-, hnew⟩
      · exact .inl ⟨at?_cons_iff.2 ⟨w, c, hw, hc, he⟩, rfl⟩
      · obtain ⟨-, rfl⟩ := at?_of_plain hnew rfl he
        exact .inr ⟨_, hnew, rfl, rfl⟩
    · exact .inr hnull

end Opened

-- A path that can be walked leads to its end.
theorem elementAll_grows (hs : h.Sound [] strict) (hst : h.Stands id t w) (hne : is = [] → id = t)
    (hp : h.Walkable t is) : Ensures (elementAll id is) h (fun e h' => Grown h t is e h' strict) E := by
  induction is generalizing h id t w with
  | nil =>
    cases hne rfl
    exact ⟨hs, rfl, fun hh => hh, .inl, .inl ⟨rfl, rfl⟩⟩
  | cons i is ih =>
    have hindex := hp.indexable List.nil_prefix (by simp) rfl hst.var
    rw [elementAll, List.foldlM_cons, Ensures.bind_iff]
    refine (element_opens hs hst hindex (hp.free List.nil_prefix rfl hst.var)).mono ?_ fun _ _ he => he
    rintro c h₁ ho
    obtain ⟨extra, ht₁, hc, -⟩ := ho.array
    obtain ⟨u, hu, -, hno⟩ := ho.sound.forest.element ⟨_, ht₁, Array.mem_of_getElem? hc⟩
    exact (ih ho.sound (.self hu hno) (fun _ => rfl) (ho.walkable hst.var hp)).mono
      (fun _ _ hg => ho.cons hs hst.var hindex hg) fun _ _ he => he

namespace Grown

theorem at?_mono (hg : Grown h t is e h' strict) {y : VarId} (hx : h.at? y js = some x) :
    h'.at? y js = some x := by
  refine at?_preserve hx fun _ z v _ _ _ hv => ?_
  rcases hg.frame hv with hv' | ⟨-, -, extra, hv'⟩
  · exact ⟨v, #[], hv', by simp⟩
  · exact ⟨_, extra, hv', rfl⟩

theorem live (hg : Grown h t is e h' strict) (hl : h.Live x) : h'.Live x := by
  obtain ⟨v, hv⟩ := hl
  rcases hg.frame hv with hv' | ⟨-, -, extra, hv'⟩
  · exact ⟨_, hv'⟩
  · exact ⟨_, hv'⟩

-- What lies beside the path keeps its contents.
theorem preserved (hg : Grown h t is e h' strict) (hs : h.Forest loose) (hx : h.at? t js = some x)
    (hout : ¬js <+: is) : Preserved h h' x := by
  refine fun y v hb hv => ⟨v, (hg.frame hv).resolve_right ?_, rfl⟩
  rintro ⟨⟨js', hjs, -, hy⟩, -⟩
  exact hout ((hs.prefix_of_below hx hy hb).trans hjs)

end Grown

end Heap

end FinLang

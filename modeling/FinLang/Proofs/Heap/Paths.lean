import FinLang.Proofs.Heap.Contents
import FinLang.Proofs.Heap.Reclaim
import Mathlib.Data.List.Forall2
import Mathlib.Data.List.Nodup

namespace FinLang

-- What relates to the elements of a list before and after a change of one of them.
theorem forall₂_modify {α β : Type} {R S : α → β → Prop} {l : List α} {vs : List β} {i : Nat} {c : α}
    {f : β → β} (hr : List.Forall₂ R l vs) (hnd : l.Nodup) (hc : l[i]? = some c)
    (hold : ∀ d ∈ l, d ≠ c → ∀ v, R d v → S d v) (hnew : ∀ v, R c v → S c (f v)) :
    List.Forall₂ S l (vs.modify i f) := by
  obtain ⟨hlen, hget⟩ := List.forall₂_iff_get.mp hr
  obtain ⟨hi, rfl⟩ := List.getElem?_eq_some_iff.mp hc
  refine List.forall₂_iff_get.mpr ⟨by simpa using hlen, fun j hj hj' => ?_⟩
  have hjv : j < vs.length := by simpa using hj'
  simp only [List.get_eq_getElem, List.getElem_modify] at hget ⊢
  split
  · subst_vars
    exact hnew _ (hget _ hj hjv)
  · rename_i hne
    refine hold _ (List.getElem_mem hj) (fun he => hne ?_) _ (hget j hj hjv)
    exact ((List.Nodup.getElem_inj_iff hnd).mp he).symm

-- What an index can be applied to. A null counts as an empty array.
def Payload.Indexable (p : Payload) : Prop :=
  p = .null ∨ ∃ items, p = .array items

theorem Payload.eq_array_of_getElem? {p : Payload} {i : Nat} {c : VarId}
    (hc : p.elements[i]? = some c) : p = .array p.elements := by
  cases p with
  | array items => rfl
  | _ => simp [elements] at hc

namespace Value

def items : Value → List Value
  | .array values => values
  | _ => []

-- Changes what is found along a path of indices. Each array on the way is filled up with nulls as
-- far as the path needs it.
def alter : List Nat → (Value → Value) → Value → Value
  | [], f, v => f v
  | i :: is, f, v => .array ((v.items.rightpad (i + 1) .null).modify i (alter is f))

example : alter [0, 2] (fun _ => .string "text") (.array [.null]) =
    .array [.array [.null, .null, .string "text"]] := rfl

theorem alter_alter (is : List Nat) (f g : Value → Value) (v : Value) :
    alter is f (alter is g v) = alter is (f ∘ g) v := by
  induction is generalizing v with
  | nil => rfl
  | cons i is ih =>
    have hpad (l : List Value) (hl : i + 1 ≤ l.length) : l.rightpad (i + 1) .null = l := by
      simp [List.rightpad, Nat.sub_eq_zero_of_le hl]
    simp only [alter, items]
    rw [hpad _ (by simp [List.rightpad]; omega), List.modify_modify_eq]
    congr 2
    exact funext ih

end Value

namespace Heap

-- The element that a path of indices leads to.
def at? (h : Heap) (t : VarId) : List Nat → Option VarId
  | [] => some t
  | i :: is => (h.var? t).bind fun w => w.payload.elements[i]?.bind (h.at? · is)

-- A path can be walked where it meets arrays and nulls only and nothing on it is protected, as far
-- as there are elements yet.
structure Walkable (h : Heap) (t : VarId) (is : List Nat) : Prop where
  free : ∀ {js x w}, js <+: is → h.at? t js = some x → h.var? x = some w → w.writeProtected = false
  indexable : ∀ {js x w}, js <+: is → js ≠ is → h.at? t js = some x → h.var? x = some w →
    w.payload.Indexable

variable {h h' : Heap} {loose : List VarId} {strict : Prop} {t c e x y : VarId} {v w w' : Variable}
  {i : Nat} {is js : List Nat} {value new : Value} {values : List Value}

@[simp] theorem at?_nil : h.at? t [] = some t := rfl

theorem at?_cons : h.at? t (i :: is) =
    (h.var? t).bind fun w => w.payload.elements[i]?.bind (h.at? · is) := rfl

theorem at?_cons_iff : h.at? t (i :: is) = some e ↔
    ∃ w c, h.var? t = some w ∧ w.payload.elements[i]? = some c ∧ h.at? c is = some e := by
  rw [at?_cons, Option.bind_eq_some_iff]
  constructor
  · rintro ⟨w, hw, hc⟩
    obtain ⟨c, hc, he⟩ := Option.bind_eq_some_iff.mp hc
    exact ⟨w, c, hw, hc, he⟩
  · rintro ⟨w, c, hw, hc, he⟩
    exact ⟨w, hw, Option.bind_eq_some_iff.mpr ⟨c, hc, he⟩⟩

theorem at?_append : h.at? t (is ++ js) = (h.at? t is).bind (h.at? · js) := by
  induction is generalizing t with
  | nil => rfl
  | cons i is ih =>
    simp only [List.cons_append, at?_cons, ih]
    cases h.var? t with
    | none => rfl
    | some w => cases hc : w.payload.elements[i]? <;> simp [hc]

theorem at?_concat (he : h.at? t is = some e) (hw : h.var? e = some w)
    (hc : w.payload.elements[i]? = some c) : h.at? t (is ++ [i]) = some c := by
  rw [at?_append, he]
  exact at?_cons_iff.2 ⟨w, c, hw, hc, rfl⟩

theorem below_iff_at? : h.Below t x ↔ ∃ is, h.at? t is = some x := by
  constructor
  · intro hb
    induction hb with
    | refl => exact ⟨[], rfl⟩
    | step _ hl ih =>
      obtain ⟨is, hp⟩ := ih
      obtain ⟨w, hw, hc⟩ := hl
      obtain ⟨i, hi⟩ := Array.mem_iff_getElem?.mp hc
      exact ⟨is ++ [i], at?_concat hp hw hi⟩
  · rintro ⟨is, he⟩
    induction is generalizing t with
    | nil =>
      cases he
      exact .refl
    | cons i is ih =>
      obtain ⟨w, c, hw, hc, he⟩ := at?_cons_iff.1 he
      exact (Below.refl.step ⟨w, hw, Array.mem_of_getElem? hc⟩).trans (ih he)

theorem below_of_at? (he : h.at? t is = some e) : h.Below t e :=
  below_iff_at?.2 ⟨is, he⟩

-- One path only leads to an element.
theorem Forest.at?_inj (hs : h.Forest loose) (hi : h.at? t is = some x) (hj : h.at? t js = some x) :
    is = js := by
  have hnil : ∀ {t i is}, h.at? t (i :: is) ≠ some t := fun he => by
    obtain ⟨w, c, hw, hc, he⟩ := at?_cons_iff.1 he
    exact hs.not_below_of_lists ⟨w, hw, Array.mem_of_getElem? hc⟩ (below_of_at? he)
  induction is generalizing t js with
  | nil =>
    cases hi
    cases js with
    | nil => rfl
    | cons j js => exact absurd hj hnil
  | cons i is ih =>
    cases js with
    | nil =>
      cases hj
      exact absurd hi hnil
    | cons j js =>
      obtain ⟨w, c, hw, hc, hi⟩ := at?_cons_iff.1 hi
      obtain ⟨w', d, hw', hd, hj⟩ := at?_cons_iff.1 hj
      cases hw.symm.trans hw'
      obtain rfl := hs.siblings ⟨w, hw, Array.mem_of_getElem? hc⟩ ⟨w, hw, Array.mem_of_getElem? hd⟩
        (below_of_at? hi) (below_of_at? hj)
      obtain ⟨hi', hci⟩ := Array.getElem?_eq_some_iff.mp hc
      obtain ⟨hj', hcj⟩ := Array.getElem?_eq_some_iff.mp hd
      have hij : i = j := (List.Nodup.getElem_inj_iff (hs.nodup hw)).mp (hci.trans hcj.symm)
      rw [hij, ih hi hj]

theorem Forest.ne_of_at? (hs : h.Forest loose) (hj : h.at? t js = some x) (hne : js ≠ []) : x ≠ t := by
  rintro rfl
  have hroot : h.at? x [] = some x := rfl
  exact hne (hs.at?_inj hj hroot)

-- The path to what lies below an element goes on from there.
theorem Forest.prefix_of_below (hs : h.Forest loose) (hi : h.at? t is = some e)
    (hj : h.at? t js = some x) (hb : h.Below e x) : is <+: js := by
  obtain ⟨ks, hk⟩ := below_iff_at?.1 hb
  have hik : h.at? t (is ++ ks) = some x := by rw [at?_append, hi]; exact hk
  exact hs.at?_inj hik hj ▸ List.prefix_append is ks

-- Of two paths to something in common one goes on where the other ends.
theorem Forest.prefix_or_prefix (hs : h.Forest loose) (hi : h.at? t is = some e)
    (hj : h.at? t js = some x) (he : h.Below e y) (hx : h.Below x y) : is <+: js ∨ js <+: is := by
  obtain ⟨ks, hk⟩ := below_iff_at?.1 ((below_of_at? hi).trans he)
  exact List.prefix_or_prefix_of_prefix (hs.prefix_of_below hi hk he) (hs.prefix_of_below hj hk hx)

-- A path is still there if all arrays on the way have kept their elements.
theorem at?_preserve (he : h.at? t is = some e)
    (hkeep : ∀ js x w, js <+: is → js ≠ is → h.at? t js = some x → h.var? x = some w →
      ∃ w' extra, h'.var? x = some w' ∧ w'.payload.elements = w.payload.elements ++ extra) :
    h'.at? t is = some e := by
  induction is generalizing t with
  | nil => exact he
  | cons i is ih =>
    obtain ⟨w, c, hw, hc, he⟩ := at?_cons_iff.1 he
    obtain ⟨w', extra, hw', hel⟩ := hkeep [] t w (List.nil_prefix) (by simp) rfl hw
    have hin := (Array.getElem?_eq_some_iff.mp hc).1
    refine at?_cons_iff.2 ⟨w', c, hw', ?_, ih he fun js x w hjs hne hx hv => ?_⟩
    · rw [hel, Array.getElem?_append_left hin, hc]
    · exact hkeep (i :: js) x w (List.cons_prefix_cons.mpr ⟨rfl, hjs⟩) (by simpa using hne)
        (at?_cons_iff.2 ⟨_, c, ‹_›, hc, hx⟩) hv

theorem Walkable.next (hp : h.Walkable t (i :: is)) (hw : h.var? t = some w)
    (hc : w.payload.elements[i]? = some c) : h.Walkable c is where
  free hjs hx := hp.free (List.cons_prefix_cons.mpr ⟨rfl, hjs⟩) (at?_cons_iff.2 ⟨w, c, hw, hc, hx⟩)
  indexable hjs hne hx := hp.indexable (List.cons_prefix_cons.mpr ⟨rfl, hjs⟩) (by simpa using hne)
    (at?_cons_iff.2 ⟨w, c, hw, hc, hx⟩)

theorem showsAll_iff_forall₂ {ids : List VarId} :
    h.ShowsAll ids values ↔ List.Forall₂ h.Holds ids values := by
  induction values generalizing ids with
  | nil => simp [ShowsAll]
  | cons value values ih =>
    rw [ShowsAll, List.forall₂_cons_right_iff]
    constructor
    · rintro ⟨c, rest, v, rfl, hv, hshow, hrest⟩
      exact ⟨c, rest, ⟨v, hv, hshow⟩, ih.mp hrest, rfl⟩
    · rintro ⟨c, rest, ⟨v, hv, hshow⟩, hrest, rfl⟩
      exact ⟨c, rest, v, rfl, hv, hshow, ih.mpr hrest⟩

-- An array holds what its elements hold.
theorem holds_array_iff {items : Array VarId} (hw : h.var? t = some w) (hp : w.payload = .array items) :
    h.Holds t value ↔ ∃ values, value = .array values ∧ List.Forall₂ h.Holds items.toList values := by
  constructor
  · rintro ⟨u, hu, hshow⟩
    cases hw.symm.trans hu
    rw [hp] at hshow
    cases value with
    | array values =>
      rw [Shows] at hshow
      obtain ⟨_, ⟨⟩, hall⟩ := hshow
      exact ⟨values, rfl, showsAll_iff_forall₂.1 hall⟩
    | _ => simp [Shows] at hshow
  · rintro ⟨values, rfl, hall⟩
    refine ⟨w, hw, ?_⟩
    rw [hp, Shows]
    exact ⟨items, rfl, showsAll_iff_forall₂.2 hall⟩

-- One level of a change: an array whose other elements are as they were.
theorem Forest.holds_modify (hs : h.Forest loose) {f : Value → Value} (hw : h.var? t = some w)
    (hc : w.payload.elements[i]? = some c) (hh : h.Holds t value) (hw' : h'.var? t = some w')
    (hp : w'.payload = w.payload) (hold : ∀ d, h.Lists t d → d ≠ c → Preserved h h' d)
    (hnew : ∀ value, h.Holds c value → h'.Holds c (f value)) :
    ∃ values, value = .array values ∧ i < values.length ∧ h'.Holds t (.array (values.modify i f)) := by
  have harray := Payload.eq_array_of_getElem? hc
  obtain ⟨values, rfl, hall⟩ := (holds_array_iff hw harray).mp hh
  have hin : i < w.payload.elements.size := (Array.getElem?_eq_some_iff.mp hc).1
  refine ⟨values, rfl, by simpa [← hall.length_eq] using hin,
    (holds_array_iff hw' (hp.trans harray)).mpr ⟨_, rfl, ?_⟩⟩
  refine forall₂_modify hall (hs.nodup hw) (by simpa using hc) (fun d hd hne v hv => ?_) hnew
  exact hv.preserve (hold d ⟨w, hw, Array.mem_toList_iff.mp hd⟩ hne)

-- In a tree only what lies below one element may have another content.
def ChangedBelow (h h' : Heap) (t e : VarId) : Prop :=
  ∀ {x v}, h.Below t x → ¬h.Below e x → h.var? x = some v →
    ∃ v', h'.var? x = some v' ∧ v'.payload = v.payload

-- A change below the end of a path.
theorem Forest.holds_alter (hs : h.Forest loose) (he : h.at? t is = some e) (hh : h.Holds t value)
    (hout : ChangedBelow h h' t e) (hnew : h'.Holds e new) :
    h'.Holds t (value.alter is fun _ => new) := by
  induction is generalizing t value with
  | nil =>
    cases he
    exact hnew
  | cons i is ih =>
    obtain ⟨w, c, hw, hc, he⟩ := at?_cons_iff.1 he
    have hlist : h.Lists t c := ⟨w, hw, Array.mem_of_getElem? hc⟩
    have hce := below_of_at? he
    have htop : ¬h.Below e t := fun hb => hs.not_below_of_lists hlist (hce.trans hb)
    obtain ⟨w', hw', hp⟩ := hout .refl htop hw
    have hold : ∀ d, h.Lists t d → d ≠ c → Preserved h h' d := by
      refine fun d hd hne x v hb hv => hout ((Below.refl.step hd).trans hb) (fun hex => hne ?_) hv
      exact (hs.siblings hlist hd (hce.trans hex) hb).symm
    obtain ⟨values, rfl, hlen, hh'⟩ := hs.holds_modify hw hc hh hw' hp hold fun value hv =>
      ih he hv fun hb => hout ((Below.refl.step hlist).trans hb)
    rw [Value.alter, Value.items, List.rightpad, Nat.sub_eq_zero_of_le hlen]
    simpa using hh'

-- An element keeps its place in such a change, unless it lay in the one that has changed.
theorem Forest.at?_beside (hs : h.Forest loose) (he : h.at? t is = some e) (hj : h.at? t js = some x)
    (hout : ChangedBelow h h' t e) (hjs : is <+: js → js = is) : h'.at? t js = some x := by
  refine at?_preserve hj fun js' y v hpre hproper hy hv => ?_
  have hnot : ¬h.Below e y := fun hb => hproper <| by
    have hle := hs.prefix_of_below he hy hb
    have heq := hjs (hle.trans hpre)
    exact hpre.eq_of_length_le (heq ▸ hle.length_le)
  obtain ⟨v', hv', hp⟩ := hout (below_of_at? hy) hnot hv
  exact ⟨v', #[], hv', by simp [hp]⟩

-- What lies neither on the path nor behind its end keeps its contents.
theorem Forest.preserved_beside (hs : h.Forest loose) (he : h.at? t is = some e)
    (hj : h.at? t js = some x) (hout : ChangedBelow h h' t e) (hjs : ¬js <+: is) (his : ¬is <+: js) :
    Preserved h h' x := by
  refine fun y v hxy hv => hout ((below_of_at? hj).trans hxy) (fun hey => ?_) hv
  rcases hs.prefix_or_prefix he hj hey hxy with hle | hle
  · exact his hle
  · exact hjs hle

end Heap

end FinLang

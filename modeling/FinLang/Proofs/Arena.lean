import FinLang.Store.Arena
import Mathlib.Data.List.Perm.Subperm

namespace FinLang

namespace Arena

variable {k : HandleKind} {α : Type}

-- The free list names exactly the slots without an entry, each once, and the
-- live count is the number of the others.
structure Sound (a : Arena k α) : Prop where
  free_nodup : a.free.Nodup
  mem_free : ∀ i, i ∈ a.free ↔ ∃ slot, a.slots[i]? = some slot ∧ slot.entry = none
  live_eq : a.live = a.slots.countP fun slot => slot.entry.isSome

theorem sound_empty : (empty : Arena k α).Sound :=
  ⟨List.nodup_nil, by simp [empty], by simp [empty]⟩

theorem Sound.live_le_size {a : Arena k α} (h : a.Sound) : a.live ≤ a.slots.size := by
  rw [h.live_eq]
  exact Array.countP_le_size

theorem get?_eq_some_iff {a : Arena k α} {h : Handle k} {e : α} :
    a.get? h = some e ↔
      ∃ slot, a.slots[h.index]? = some slot ∧ slot.generation = h.generation ∧
        slot.entry = some e := by
  unfold get?
  cases a.slots[h.index]? with
  | none => simp
  | some slot => by_cases hg : slot.generation = h.generation <;> simp [hg]

theorem contains_iff {a : Arena k α} {h : Handle k} :
    a.contains h = true ↔ ∃ e, a.get? h = some e :=
  Option.isSome_iff_exists

private theorem countP_modify (slots : Array (Slot α)) (p : Slot α → Bool) (i : Nat)
    (f : Slot α → Slot α) (slot : Slot α) (hs : slots[i]? = some slot) :
    (slots.modify i f).countP p =
      slots.countP p - (if p slot then 1 else 0) + (if p (f slot) then 1 else 0) := by
  obtain ⟨hi, rfl⟩ := Array.getElem?_eq_some_iff.mp hs
  have hm : slots.modify i f = slots.set i (f slots[i]) := by
    apply Array.ext_getElem?
    intro j
    rw [Array.getElem?_modify, Array.getElem?_set]
    by_cases hj : i = j
    · subst hj
      simp [hi]
    · simp [hj]
  rw [hm, Array.countP_set hi]

private theorem countP_pos (slots : Array (Slot α)) (p : Slot α → Bool) (i : Nat) (slot : Slot α)
    (hs : slots[i]? = some slot) (hp : p slot) : 0 < slots.countP p :=
  Array.countP_pos_iff.mpr ⟨slot, Array.mem_of_getElem? hs, hp⟩

section Insert

variable {a : Arena k α} (hs : a.Sound) (e : α)
include hs

-- Either a free slot is used again or a new one is put at the end.
private theorem insert_cases :
    (∃ i rest slot, a.free = i :: rest ∧ a.slots[i]? = some slot ∧ slot.entry = none ∧
      a.insert e = (⟨i, slot.generation⟩, ⟨a.slots.modify i (fill e), rest, a.live + 1⟩)) ∨
    (a.free = [] ∧ a.insert e =
      (⟨a.slots.size, 0⟩, ⟨a.slots.push ⟨0, some e⟩, [], a.live + 1⟩)) := by
  cases hf : a.free with
  | nil => exact .inr ⟨rfl, by simp [insert, hf]⟩
  | cons i rest =>
    obtain ⟨slot, hi, he⟩ := (hs.mem_free i).mp (by simp [hf])
    exact .inl ⟨i, rest, slot, rfl, hi, he, by simp [insert, hf, hi]⟩

-- The handle that is given out stood for nothing before.
theorem get?_insert_fresh : a.get? (a.insert e).1 = none := by
  rcases insert_cases hs e with ⟨i, rest, slot, -, hi, he, h⟩ | ⟨-, h⟩
  · simp [h, get?, hi, he]
  · simp [h, get?]

theorem get?_insert_self : (a.insert e).2.get? (a.insert e).1 = some e := by
  rcases insert_cases hs e with ⟨i, rest, slot, -, hi, -, h⟩ | ⟨-, h⟩
  · simp [h, get?, Array.getElem?_modify, hi, fill]
  · simp [h, get?]

theorem get?_insert_of_ne {h' : Handle k} (hne : h' ≠ (a.insert e).1) :
    (a.insert e).2.get? h' = a.get? h' := by
  rcases insert_cases hs e with ⟨i, rest, slot, -, hi, he, h⟩ | ⟨-, h⟩
  · rw [h] at hne ⊢
    simp only [get?, Array.getElem?_modify]
    by_cases hj : i = h'.index
    · have hg : slot.generation ≠ h'.generation := by
        intro hg
        apply hne
        cases h'
        simp_all
      simp [hj ▸ hi, hj, fill, hg]
    · simp [hj]
  · rw [h] at hne ⊢
    simp only [get?, Array.getElem?_push]
    by_cases hj : h'.index = a.slots.size
    · have hg : (0 : UInt32) ≠ h'.generation := by
        intro hg
        apply hne
        cases h'
        simp_all
      simp [hj, hg]
    · simp [hj]

theorem sound_insert : (a.insert e).2.Sound := by
  rcases insert_cases hs e with ⟨i, rest, slot, hf, hi, he, h⟩ | ⟨hf, h⟩
  · have hnd := hs.free_nodup
    rw [hf, List.nodup_cons] at hnd
    rw [h]
    refine ⟨hnd.2, fun j => ?_, ?_⟩
    · have hj := hs.mem_free j
      simp only [hf, List.mem_cons] at hj
      simp only [Array.getElem?_modify]
      by_cases hij : i = j
      · subst hij
        simp [hi, fill, hnd.1]
      · rw [if_neg hij, ← hj]
        simp [Ne.symm hij]
    · rw [countP_modify _ _ _ _ slot hi, hs.live_eq]
      simp [he, fill]
  · rw [h]
    refine ⟨List.nodup_nil, fun j => ?_, ?_⟩
    · have hj := hs.mem_free j
      simp only [hf, List.not_mem_nil, false_iff] at hj
      simp only [List.not_mem_nil, false_iff, Array.getElem?_push]
      split
      · simp
      · exact hj
    · simp [hs.live_eq]

omit hs in
theorem live_insert : (a.insert e).2.live = a.live + 1 := by
  unfold insert
  split <;> rfl

omit hs in
theorem size_le_size_insert : a.slots.size ≤ (a.insert e).2.slots.size := by
  unfold insert
  split <;> simp

end Insert

section Modify

variable {a : Arena k α}

theorem sound_modify (hs : a.Sound) (h : Handle k) (f : α → α) : (a.modify h f).Sound := by
  -- No slot becomes empty or occupied.
  have hentry : ∀ i : Nat, ((a.modify h f).slots[i]?).map (fun slot : Slot α => slot.entry.isSome) =
      (a.slots[i]?).map fun slot : Slot α => slot.entry.isSome := by
    intro i
    simp only [modify, Array.getElem?_modify]
    split
    · cases a.slots[i]? with
      | none => rfl
      | some slot => by_cases hg : slot.generation = h.generation <;> simp [hg]
    · rfl
  refine ⟨hs.free_nodup, fun i => ?_, ?_⟩
  · have hvacant : ∀ slots : Array (Slot α),
        (∃ slot, slots[i]? = some slot ∧ slot.entry = none) ↔
          (slots[i]?).map (fun slot : Slot α => slot.entry.isSome) = some false := by
      intro slots
      simp [Option.map_eq_some_iff]
    rw [show (a.modify h f).free = a.free from rfl, hs.mem_free i, hvacant, hvacant, hentry]
  · rw [show (a.modify h f).live = a.live from rfl, hs.live_eq]
    have hmap : (a.modify h f).slots.map (fun slot => slot.entry.isSome) =
        a.slots.map fun slot => slot.entry.isSome := by
      apply Array.ext_getElem?
      intro i
      simpa using hentry i
    have hcount := congrArg (Array.countP id) hmap
    simpa [Array.countP_map, Function.comp_def] using hcount.symm

@[simp] theorem size_modify (h : Handle k) (f : α → α) :
    (a.modify h f).slots.size = a.slots.size := by
  simp [modify]

@[simp] theorem live_modify (h : Handle k) (f : α → α) : (a.modify h f).live = a.live :=
  rfl

theorem get?_modify (h h' : Handle k) (f : α → α) :
    (a.modify h f).get? h' = if h' = h then (a.get? h').map f else a.get? h' := by
  by_cases hh : h' = h
  · subst hh
    simp [get?_modify_self]
  · simp [hh, get?_modify_of_ne a f hh]

end Modify

section Erase

variable {a : Arena k α}

theorem sound_erase (hs : a.Sound) (h : Handle k) : (a.erase h).Sound := by
  unfold erase
  split
  · rename_i hc
    obtain ⟨e, he⟩ := contains_iff.1 hc
    obtain ⟨slot, hi, -, hentry⟩ := get?_eq_some_iff.1 he
    have hnot : h.index ∉ a.free := by
      rw [hs.mem_free]
      simp [hi, hentry]
    refine ⟨List.nodup_cons.mpr ⟨hnot, hs.free_nodup⟩, fun i => ?_, ?_⟩
    · simp only [List.mem_cons, hs.mem_free i, Array.getElem?_modify]
      by_cases hij : h.index = i
      · subst hij
        simp [hi, vacate]
      · rw [if_neg hij]
        simp [Ne.symm hij]
    · rw [countP_modify _ _ _ _ slot hi, hs.live_eq]
      simp [hentry, vacate]
  · exact hs

@[simp] theorem size_erase (h : Handle k) : (a.erase h).slots.size = a.slots.size := by
  unfold erase
  split <;> simp

theorem live_erase (hs : a.Sound) {h : Handle k} {e : α} (hget : a.get? h = some e) :
    (a.erase h).live + 1 = a.live := by
  obtain ⟨slot, hi, -, hentry⟩ := get?_eq_some_iff.1 hget
  have hpos := countP_pos a.slots (fun slot => slot.entry.isSome) h.index slot hi (by simp [hentry])
  have hlive := hs.live_eq
  simp only [erase, contains, hget, Option.isSome_some, if_true]
  omega

theorem get?_erase (h h' : Handle k) :
    (a.erase h).get? h' = if h' = h then none else a.get? h' := by
  by_cases hh : h' = h
  · subst hh
    simp [get?_erase_self]
  · simp [hh, get?_erase_of_ne a hh]

end Erase

section Handles

variable {a : Arena k α}

theorem mem_handles {h : Handle k} : h ∈ a.handles ↔ ∃ e, a.get? h = some e := by
  simp only [handles, List.mem_filterMap, get?_eq_some_iff]
  constructor
  · rintro ⟨⟨slot, i⟩, hm, hsome⟩
    obtain ⟨e, he, rfl⟩ := Option.map_eq_some_iff.mp hsome
    refine ⟨e, slot, ?_, rfl, he⟩
    simpa using List.mem_zipIdx_iff_getElem?.mp hm
  · rintro ⟨e, slot, hi, hg, he⟩
    refine ⟨(slot, h.index), List.mem_zipIdx_iff_getElem?.mpr (by simpa using hi), ?_⟩
    cases h
    simp_all

theorem nodup_handles : a.handles.Nodup := by
  unfold handles
  rw [List.nodup_iff_pairwise_ne, List.pairwise_filterMap]
  have hidx : a.slots.toList.zipIdx.Pairwise fun x y => x.2 < y.2 := by
    rw [List.pairwise_iff_getElem]
    intro i j hi hj hij
    simpa using hij
  refine hidx.imp ?_
  rintro ⟨s, i⟩ ⟨t, j⟩ hlt x hx y hy
  obtain ⟨-, -, rfl⟩ := Option.map_eq_some_iff.mp hx
  obtain ⟨-, -, rfl⟩ := Option.map_eq_some_iff.mp hy
  intro heq
  simp only [Handle.mk.injEq] at heq
  simp only at hlt
  omega

theorem Sound.length_handles (hs : a.Sound) : a.handles.length = a.live := by
  rw [hs.live_eq, handles, List.length_filterMap_eq_countP]
  have hmap : (a.slots.toList.zipIdx.map Prod.fst) = a.slots.toList := by simp
  have hcount := congrArg (List.countP fun slot : Slot α => slot.entry.isSome) hmap
  rw [List.countP_map] at hcount
  rw [← Array.countP_toList, ← hcount]
  congr 1
  funext x
  simp

-- As many entries are live as there are handles in a list that names each of
-- them once.
theorem Sound.live_eq_length (hs : a.Sound) {l : List (Handle k)} (hl : l.Nodup)
    (hmem : ∀ h, h ∈ l ↔ ∃ e, a.get? h = some e) : a.live = l.length := by
  rw [← hs.length_handles]
  apply List.Perm.length_eq
  rw [List.perm_ext_iff_of_nodup nodup_handles hl]
  intro h
  rw [hmem, mem_handles]

theorem Sound.length_le_live (hs : a.Sound) {l : List (Handle k)} (hl : l.Nodup)
    (hmem : ∀ h ∈ l, ∃ e, a.get? h = some e) : l.length ≤ a.live := by
  rw [← hs.length_handles]
  exact (List.subperm_of_subset hl fun h hh => mem_handles.2 (hmem h hh)).length_le

-- Arenas that show the same have the same live count.
theorem Sound.live_congr {a' : Arena k α} (hs : a.Sound) (hs' : a'.Sound)
    (h : ∀ x, a'.get? x = a.get? x) : a'.live = a.live := by
  rw [← hs.length_handles]
  refine hs'.live_eq_length nodup_handles fun x => ?_
  rw [mem_handles, h]

end Handles

section Commute

variable {a : Arena k α} {h h' : Handle k} {e : α} {f g : α → α}

-- Changes behind different handles do not meet,
theorem modify_comm (hne : h ≠ h') :
    (a.modify h f).modify h' g = (a.modify h' g).modify h f := by
  obtain ⟨i, s⟩ := h
  obtain ⟨j, t⟩ := h'
  refine congrArg (Arena.mk · a.free a.live) (Array.ext_getElem? fun x => ?_)
  simp only [modify, Array.getElem?_modify]
  by_cases hi : i = x <;> by_cases hj : j = x <;> simp only [hi, hj, if_true, if_false]
  rcases a.slots[x]? with _ | slot
  · rfl
  have hst : s ≠ t := by
    rintro rfl
    exact hne (by rw [hi, hj])
  by_cases hs : slot.generation = s
  · simp [hs, hst]
  · by_cases ht : slot.generation = t
    · simp [ht, hst.symm]
    · simp [hs, ht]

theorem contains_modify : (a.modify h f).contains h' = a.contains h' := by
  rw [contains, contains, get?_modify]
  split
  · subst_vars
    cases a.get? h' <;> rfl
  · rfl

-- and neither does a change with a new entry or with an erased one.
theorem insert_modify (hs : a.Sound) {old : α} (hget : a.get? h = some old) :
    (a.modify h f).insert e = ((a.insert e).1, (a.insert e).2.modify h f) := by
  obtain ⟨slot, hslot, hgen, hentry⟩ := get?_eq_some_iff.1 hget
  have hi : h.index < a.slots.size := (Array.getElem?_eq_some_iff.mp hslot).1
  unfold insert modify
  rcases hfree : a.free with _ | ⟨index, rest⟩
  · simp only [Array.size_modify, Prod.mk.injEq, true_and, Arena.mk.injEq, and_true]
    refine Array.ext_getElem? fun x => ?_
    simp only [Array.getElem?_modify, Array.getElem?_push, Array.size_modify]
    by_cases hx : x = a.slots.size
    · rw [if_pos hx, if_pos hx, if_neg (by omega)]
    · rw [if_neg hx, if_neg hx]
  · obtain ⟨vacant, hvacant, hnone⟩ := (hs.mem_free index).mp (by simp [hfree])
    have hne : h.index ≠ index := by
      intro heq
      rw [heq, hvacant] at hslot
      cases hslot
      cases hnone.symm.trans hentry
    simp only [Array.getElem?_modify, if_neg hne, Prod.mk.injEq, true_and, Arena.mk.injEq,
      and_true]
    refine Array.ext_getElem? fun x => ?_
    simp only [Array.getElem?_modify]
    by_cases hx : index = x
    · subst hx
      rw [if_pos rfl, if_neg hne, if_neg hne, if_pos rfl]
    · rw [if_neg hx, if_neg hx]

theorem erase_modify (hne : h' ≠ h) {old : α} (hget : a.get? h = some old) :
    (a.modify h f).erase h' = (a.erase h').modify h f := by
  unfold erase
  rw [contains_modify]
  split
  swap
  · rfl
  rename_i hc
  obtain ⟨e, he⟩ := contains_iff.1 hc
  obtain ⟨slot, hslot, hgen, -⟩ := get?_eq_some_iff.1 hget
  obtain ⟨slot', hslot', hgen', -⟩ := get?_eq_some_iff.1 he
  have hindex : h.index ≠ h'.index := by
    intro heq
    rw [heq, hslot'] at hslot
    cases hslot
    cases h
    cases h'
    simp_all
  simp only [modify, Arena.mk.injEq, and_true, and_self]
  refine Array.ext_getElem? fun x => ?_
  simp only [Array.getElem?_modify]
  by_cases hx : h'.index = x
  · subst hx
    rw [if_pos rfl, if_neg hindex, if_neg hindex, if_pos rfl]
  · rw [if_neg hx, if_neg hx]

end Commute

section Generations

-- The slot of a handle is in another generation, so nothing is stored behind the handle as long as
-- slots are filled only.
def Passed (a : Arena k α) (h : Handle k) : Prop :=
  ∃ slot, a.slots[h.index]? = some slot ∧ slot.generation ≠ h.generation

-- The handle was the last one to its slot before the slot was freed.
def Vacated (a : Arena k α) (h : Handle k) : Prop :=
  ∃ slot, a.slots[h.index]? = some slot ∧ slot.generation = h.generation + 1 ∧ slot.entry = none

variable {a : Arena k α} {h h' : Handle k} {f : α → α}

theorem Vacated.passed (hv : a.Vacated h) : a.Passed h := by
  obtain ⟨slot, hi, hg, -⟩ := hv
  refine ⟨slot, hi, fun he => ?_⟩
  have hone : (1 : UInt32) = 0 := by simpa [he] using hg.symm
  cases hone

theorem Passed.get?_eq_none (hp : a.Passed h) : a.get? h = none := by
  obtain ⟨slot, hi, hg⟩ := hp
  simp [get?, hi, hg]

theorem Passed.insert (hp : a.Passed h) (e : α) : (a.insert e).2.Passed h := by
  obtain ⟨slot, hi, hg⟩ := hp
  unfold Arena.insert
  split
  · rename_i index rest _
    simp only [Passed, Array.getElem?_modify, hi, Option.map_some]
    split
    · exact ⟨_, rfl, hg⟩
    · exact ⟨_, rfl, hg⟩
  · have hlt := (Array.getElem?_eq_some_iff.mp hi).1
    exact ⟨slot, by simp [Array.getElem?_push, hi, Nat.ne_of_lt hlt], hg⟩

theorem Passed.modify (hp : a.Passed h) : (a.modify h' f).Passed h := by
  obtain ⟨slot, hi, hg⟩ := hp
  simp only [Passed, Arena.modify, Array.getElem?_modify, hi, Option.map_some]
  split
  · refine ⟨_, rfl, ?_⟩
    split <;> exact hg
  · exact ⟨_, rfl, hg⟩

theorem Vacated.modify (hv : a.Vacated h) : (a.modify h' f).Vacated h := by
  obtain ⟨slot, hi, hg, he⟩ := hv
  simp only [Vacated, Arena.modify, Array.getElem?_modify, hi, Option.map_some]
  split
  · refine ⟨_, rfl, ?_⟩
    split
    · exact ⟨hg, by rw [he]; rfl⟩
    · exact ⟨hg, he⟩
  · exact ⟨_, rfl, hg, he⟩

-- Only an occupied slot is freed.
theorem Vacated.erase (hv : a.Vacated h) : (a.erase h').Vacated h := by
  obtain ⟨slot, hi, hg, he⟩ := hv
  unfold Arena.erase
  split
  · rename_i hc
    obtain ⟨e, hget⟩ := contains_iff.1 hc
    obtain ⟨slot', hi', -, he'⟩ := get?_eq_some_iff.1 hget
    have hne : h'.index ≠ h.index := by
      intro heq
      rw [heq, hi] at hi'
      cases hi'
      cases he.symm.trans he'
    exact ⟨slot, by simp [Array.getElem?_modify, hne, hi], hg, he⟩
  · exact ⟨slot, hi, hg, he⟩

theorem vacated_erase {e : α} (hget : a.get? h = some e) : (a.erase h).Vacated h := by
  obtain ⟨slot, hi, hg, -⟩ := get?_eq_some_iff.1 hget
  have hc : a.contains h = true := contains_iff.mpr ⟨e, hget⟩
  simp only [Vacated, Arena.erase, hc, if_true, Array.getElem?_modify, hi, Option.map_some]
  exact ⟨_, rfl, congrArg (· + 1) hg, rfl⟩

end Generations

end Arena

end FinLang

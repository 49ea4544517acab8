namespace FinLang

inductive HandleKind where
  | variable
  | scope
deriving DecidableEq, Inhabited

-- Names a slot of an arena and one use of that slot. A handle whose generation
-- is not the slot's is stale.
structure Handle (k : HandleKind) where
  index : Nat
  generation : UInt32
deriving DecidableEq, Inhabited

abbrev VarId := Handle .variable

abbrev ScopeId := Handle .scope

namespace Handle

def letter : HandleKind → String
  | .variable => "v"
  | .scope => "e"

def text {k : HandleKind} (h : Handle k) : String :=
  letter k ++ toString h.index ++ "." ++ toString h.generation.toNat

end Handle

structure Slot (α : Type) where
  generation : UInt32
  entry : Option α
deriving Inhabited

-- A growing table of slots. Freed slots are used again, the latest first, and
-- each freeing starts a new generation of the slot.
structure Arena (k : HandleKind) (α : Type) where
  slots : Array (Slot α)
  free : List Nat
  live : Nat
deriving Inhabited

namespace Arena

variable {k : HandleKind} {α : Type}

def empty : Arena k α :=
  ⟨#[], [], 0⟩

def get? (a : Arena k α) (h : Handle k) : Option α :=
  match a.slots[h.index]? with
  | some slot => if slot.generation = h.generation then slot.entry else none
  | none => none

def contains (a : Arena k α) (h : Handle k) : Bool :=
  (a.get? h).isSome

def fill (entry : α) (slot : Slot α) : Slot α :=
  { slot with entry := some entry }

def insert (a : Arena k α) (entry : α) : Handle k × Arena k α :=
  match a.free with
  | index :: rest =>
    let generation := (a.slots[index]?).elim 0 Slot.generation
    (⟨index, generation⟩, ⟨a.slots.modify index (fill entry), rest, a.live + 1⟩)
  | [] => (⟨a.slots.size, 0⟩, ⟨a.slots.push ⟨0, some entry⟩, [], a.live + 1⟩)

-- Changes nothing behind a stale handle.
def modify (a : Arena k α) (h : Handle k) (f : α → α) : Arena k α :=
  { a with
    slots := a.slots.modify h.index fun slot =>
      if slot.generation = h.generation then { slot with entry := slot.entry.map f } else slot }

def vacate (slot : Slot α) : Slot α :=
  ⟨slot.generation + 1, none⟩

def erase (a : Arena k α) (h : Handle k) : Arena k α :=
  if a.contains h then ⟨a.slots.modify h.index vacate, h.index :: a.free, a.live - 1⟩ else a

-- The handles in use, by index.
def handles (a : Arena k α) : List (Handle k) :=
  a.slots.toList.zipIdx.filterMap fun (slot, index) =>
    slot.entry.map fun _ => ⟨index, slot.generation⟩

theorem get?_modify_self (a : Arena k α) (h : Handle k) (f : α → α) :
    (a.modify h f).get? h = (a.get? h).map f := by
  simp only [get?, modify, Array.getElem?_modify, if_true]
  cases a.slots[h.index]? with
  | none => rfl
  | some slot => by_cases hg : slot.generation = h.generation <;> simp [hg]

-- A change is seen through no other handle.
theorem get?_modify_of_ne (a : Arena k α) {h h' : Handle k} (f : α → α) (hne : h' ≠ h) :
    (a.modify h f).get? h' = a.get? h' := by
  simp only [get?, modify, Array.getElem?_modify]
  by_cases hi : h.index = h'.index
  · rw [if_pos hi]
    cases a.slots[h'.index]? with
    | none => rfl
    | some slot =>
      by_cases hg : slot.generation = h.generation
      · have hg' : slot.generation ≠ h'.generation := by
          intro he
          apply hne
          cases h; cases h'
          simp_all
        simp [hg, hg ▸ hg']
      · simp [hg]
  · rw [if_neg hi]

-- A freed handle stays without an entry.
theorem get?_erase_self (a : Arena k α) (h : Handle k) : (a.erase h).get? h = none := by
  unfold erase
  split
  · simp only [get?, Array.getElem?_modify, if_true]
    cases a.slots[h.index]? <;> simp [vacate]
  · simpa [contains] using ‹¬a.contains h = true›

theorem get?_erase_of_ne (a : Arena k α) {h h' : Handle k} (hne : h' ≠ h) :
    (a.erase h).get? h' = a.get? h' := by
  unfold erase
  split
  · rename_i hc
    simp only [get?, Array.getElem?_modify]
    by_cases hi : h.index = h'.index
    · rw [if_pos hi]
      simp only [contains, get?, hi] at hc
      cases hs : a.slots[h'.index]? with
      | none => rfl
      | some slot =>
        rw [hs] at hc
        have hg : slot.generation = h.generation := by
          by_cases hg : slot.generation = h.generation
          · exact hg
          · simp [hg] at hc
        have hg' : slot.generation ≠ h'.generation := by
          intro he
          apply hne
          cases h; cases h'
          simp_all
        simp [vacate, hg']
    · rw [if_neg hi]
  · rfl

end Arena

end FinLang

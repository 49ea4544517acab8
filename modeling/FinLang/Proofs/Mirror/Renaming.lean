import FinLang.Machine.Basic
import FinLang.Proofs.Arena
import Mathlib.Logic.Function.Basic

namespace FinLang

-- Other numbers for the slots of the arenas. The generations of a slot are
-- counted from elsewhere.
structure Renaming where
  index : HandleKind → Nat → Nat
  shift : HandleKind → Nat → UInt32
  injective : ∀ k, Function.Injective (index k)

variable {k : HandleKind} {α : Type}

namespace Renaming

-- Variables and scopes are renamed in different ways.
def both {index index' : Nat → Nat} (hinj : Function.Injective index)
    (hinj' : Function.Injective index') (shift shift' : Nat → UInt32) : Renaming where
  index
    | .variable => index
    | .scope => index'
  shift
    | .variable => shift
    | .scope => shift'
  injective
    | .variable => hinj
    | .scope => hinj'

def handle (ρ : Renaming) {k : HandleKind} (h : Handle k) : Handle k :=
  ⟨ρ.index k h.index, h.generation + ρ.shift k h.index⟩

instance : CoeFun Renaming fun _ => {k : HandleKind} → Handle k → Handle k :=
  ⟨@handle⟩

variable (ρ : Renaming)

theorem handle_injective : Function.Injective (ρ.handle (k := k)) := by
  rintro ⟨i, g⟩ ⟨j, g'⟩ h
  obtain ⟨hi, hg⟩ := Handle.mk.inj h
  obtain rfl : i = j := ρ.injective k hi
  exact congrArg _ ((UInt32.add_left_inj _).mp hg)

@[simp] theorem handle_inj {x y : Handle k} : ρ x = ρ y ↔ x = y :=
  ρ.handle_injective.eq_iff

@[simp] theorem handle_beq {x y : Handle k} : (ρ x == ρ y) = (x == y) := by
  by_cases h : x = y <;> simp [h]

-- The next use of a slot is the next use of the other one.
theorem handle_next (i : Nat) (g : UInt32) :
    ρ (⟨i, g + 1⟩ : Handle k) = ⟨(ρ (⟨i, g⟩ : Handle k)).index, (ρ (⟨i, g⟩ : Handle k)).generation + 1⟩ := by
  simp only [handle, Handle.mk.injEq, true_and]
  rw [UInt32.add_assoc, UInt32.add_assoc, UInt32.add_comm 1]

end Renaming

def Payload.rename (ρ : Renaming) : Payload → Payload
  | .array items => .array (items.map ρ.handle)
  | .link t => .link (ρ t)
  | p => p

def Owner.rename (ρ : Renaming) : Owner → Owner
  | .detached => .detached
  | .scope s => .scope (ρ s)
  | .array p => .array (ρ p)

def Variable.rename (ρ : Renaming) (v : Variable) : Variable :=
  { v with
    payload := v.payload.rename ρ
    owner := v.owner.rename ρ
    linkedBy := v.linkedBy.map ρ.handle }

def Scope.rename (ρ : Renaming) (s : Scope) : Scope :=
  { s with
    vars := s.vars.map fun b => (b.1, ρ b.2)
    parent := s.parent.map ρ.handle }

def Flow.rename (ρ : Renaming) (f : Flow) : Flow :=
  { f with result := f.result.map ρ.handle }

def Arguments.rename (ρ : Renaming) : Arguments → Arguments
  | .nodes ns => .nodes ns
  | .values ids => .values (ids.map ρ.handle)

section Data

variable (ρ : Renaming)

@[simp] theorem Payload.varType_rename (p : Payload) : (p.rename ρ).varType = p.varType := by
  cases p <;> rfl

@[simp] theorem Payload.elements_rename (p : Payload) :
    (p.rename ρ).elements = p.elements.map ρ.handle := by
  cases p <;> simp [rename, elements]

theorem Payload.rename_eq_self {p : Payload} (hp : p.elements = #[]) (hl : ∀ t, p ≠ .link t) :
    p.rename ρ = p := by
  cases p with
  | array items =>
    obtain rfl : items = #[] := hp
    simp [rename]
  | link t => exact absurd rfl (hl t)
  | _ => rfl

@[simp] theorem Variable.payload_rename (v : Variable) :
    (v.rename ρ).payload = v.payload.rename ρ :=
  rfl

@[simp] theorem Variable.owner_rename (v : Variable) : (v.rename ρ).owner = v.owner.rename ρ :=
  rfl

@[simp] theorem Variable.leftValue_rename (v : Variable) : (v.rename ρ).leftValue = v.leftValue :=
  rfl

@[simp] theorem Variable.writeProtected_rename (v : Variable) :
    (v.rename ρ).writeProtected = v.writeProtected :=
  rfl

@[simp] theorem Variable.linkedBy_rename (v : Variable) :
    (v.rename ρ).linkedBy = v.linkedBy.map ρ.handle :=
  rfl

@[simp] theorem Owner.rename_eq_detached (o : Owner) : o.rename ρ = .detached ↔ o = .detached := by
  cases o <;> simp [rename]

theorem Scope.varNamed?_rename (s : Scope) (name : String) :
    (s.rename ρ).varNamed? name = (s.varNamed? name).map ρ.handle := by
  unfold varNamed? rename
  simp only
  induction s.vars with
  | nil => rfl
  | cons b rest ih =>
    rw [List.map_cons, List.lookup_cons, List.lookup_cons, ih]
    cases name == b.1 <;> rfl

end Data

namespace Arena

variable {a a' : Arena k α} {f : α → α} {ρ : Renaming} {x : Handle k} {e : α}

def generationAt (a : Arena k α) (i : Nat) : UInt32 :=
  (a.slots[i]?).elim 0 Slot.generation

-- The handles that are given out from now on, one after the other.
def coming (a : Arena k α) (n : Nat) : Handle k :=
  match a.free[n]? with
  | some i => ⟨i, a.generationAt i⟩
  | none => ⟨a.slots.size + (n - a.free.length), 0⟩

-- An arena that shows the same behind the new names of the handles, and goes on
-- in the same way.
structure Mirrors (ρ : Renaming) (f : α → α) (a a' : Arena k α) : Prop where
  sound : a.Sound
  sound' : a'.Sound
  get? : ∀ x, a'.get? (ρ x) = (a.get? x).map f
  coming : ∀ n, a'.coming n = ρ (a.coming n)

theorem insert_fst : (a.insert e).1 = a.coming 0 := by
  unfold insert coming
  cases a.free <;> rfl

theorem coming_congr (hfree : a'.free = a.free) (hsize : a'.slots.size = a.slots.size)
    (hgen : ∀ i ∈ a.free, a'.generationAt i = a.generationAt i) (n : Nat) :
    a'.coming n = a.coming n := by
  unfold coming
  rw [hfree, hsize]
  cases hi : a.free[n]? with
  | none => rfl
  | some i => simp only [hgen i (List.mem_of_getElem? hi)]

theorem generationAt_modify {slots : Array (Slot α)} {g : Slot α → Slot α} {i j : Nat}
    (hg : ∀ slot, (g slot).generation = slot.generation) :
    ((slots.modify i g)[j]?).elim 0 Slot.generation = (slots[j]?).elim 0 Slot.generation := by
  rw [Array.getElem?_modify]
  split
  · cases slots[j]? <;> simp [hg]
  · rfl

theorem coming_insert (n : Nat) : (a.insert e).2.coming n = a.coming (n + 1) := by
  unfold insert coming
  cases hfree : a.free with
  | nil => simp [Nat.add_assoc, Nat.add_comm 1]
  | cons i rest =>
    simp only [List.getElem?_cons_succ, List.length_cons, Array.size_modify, Nat.add_sub_add_right]
    cases rest[n]? with
    | none => rfl
    | some j => exact congrArg (Handle.mk j) (generationAt_modify fun _ => rfl)

theorem coming_modify {g : α → α} (n : Nat) : (a.modify x g).coming n = a.coming n := by
  have hgen : ∀ i, (a.modify x g).generationAt i = a.generationAt i := by
    intro i
    refine generationAt_modify fun slot => ?_
    split <;> rfl
  refine coming_congr ?_ (by simp) (fun i _ => hgen i) n
  rfl

theorem coming_erase (hs : a.Sound) (hx : a.get? x = some e) (n : Nat) :
    (a.erase x).coming n =
      match n with
      | 0 => ⟨x.index, x.generation + 1⟩
      | n + 1 => a.coming n := by
  obtain ⟨slot, hslot, hgen, hentry⟩ := get?_eq_some_iff.mp hx
  have hnot : x.index ∉ a.free := by
    rw [hs.mem_free]
    simp [hslot, hentry]
  have herase : a.erase x = ⟨a.slots.modify x.index vacate, x.index :: a.free, a.live - 1⟩ := by
    simp [erase, contains, hx]
  rw [herase]
  cases n with
  | zero => simp [coming, generationAt, Array.getElem?_modify, hslot, vacate, hgen]
  | succ n =>
    unfold coming
    simp only [List.getElem?_cons_succ, List.length_cons, Array.size_modify, Nat.add_sub_add_right]
    cases hi : a.free[n]? with
    | none => rfl
    | some i =>
      have hne : x.index ≠ i := fun he => hnot (he ▸ List.mem_of_getElem? hi)
      simp [generationAt, Array.getElem?_modify, hne]

namespace Mirrors

variable (hm : Mirrors ρ f a a')
include hm

theorem contains : a'.contains (ρ x) = a.contains x := by
  simp [Arena.contains, hm.get?]

theorem insert : (a'.insert (f e)).1 = ρ (a.insert e).1 ∧
    Mirrors ρ f (a.insert e).2 (a'.insert (f e)).2 := by
  have hfst : (a'.insert (f e)).1 = ρ (a.insert e).1 := by
    rw [insert_fst, insert_fst, hm.coming]
  refine ⟨hfst, sound_insert hm.sound e, sound_insert hm.sound' (f e), fun x => ?_, fun n => ?_⟩
  · by_cases hx : x = (a.insert e).1
    · rw [hx, ← hfst, get?_insert_self hm.sound', get?_insert_self hm.sound]
      rfl
    · have hx' : ρ x ≠ (a'.insert (f e)).1 := by
        rw [hfst]
        exact mt ρ.handle_inj.mp hx
      rw [get?_insert_of_ne hm.sound' _ hx', get?_insert_of_ne hm.sound _ hx, hm.get?]
  · rw [coming_insert, coming_insert, hm.coming]

theorem modify {g g' : α → α} (hg : ∀ v, g' (f v) = f (g v)) :
    Mirrors ρ f (a.modify x g) (a'.modify (ρ x) g') where
  sound := sound_modify hm.sound x g
  sound' := sound_modify hm.sound' (ρ x) g'
  get? y := by
    simp only [get?_modify, hm.get?, ρ.handle_inj]
    split
    · simp [Function.comp_def, hg]
    · rfl
  coming n := by rw [coming_modify, coming_modify, hm.coming]

theorem erase : Mirrors ρ f (a.erase x) (a'.erase (ρ x)) := by
  rcases hx : a.get? x with _ | e
  · have hx' : a'.get? (ρ x) = none := by rw [hm.get?, hx]; rfl
    have herase : a.erase x = a := by simp [Arena.erase, Arena.contains, hx]
    have herase' : a'.erase (ρ x) = a' := by simp [Arena.erase, Arena.contains, hx']
    rwa [herase, herase']
  · have hx' : a'.get? (ρ x) = some (f e) := by rw [hm.get?, hx]; rfl
    refine ⟨sound_erase hm.sound x, sound_erase hm.sound' _, fun y => ?_, fun n => ?_⟩
    · simp only [get?_erase, hm.get?, ρ.handle_inj]
      split <;> rfl
    · rw [coming_erase hm.sound hx, coming_erase hm.sound' hx']
      cases n with
      | zero => exact (ρ.handle_next x.index x.generation).symm
      | succ n => exact hm.coming n

end Mirrors

end Arena

end FinLang

import FinLang.Proofs.Heap.Usage

namespace FinLang

namespace Heap

-- An operation that changes the heap, with what it is given.
inductive Op where
  | alloc (p : Payload)
  | allocValue (value : Value)
  | allocLink (target : VarId)
  | setOwner (id : VarId) (owner : Owner)
  | setWriteProtected (id : VarId) (flag : Bool)
  | setLeftValue (id : VarId) (flag : Bool)
  | setType (id : VarId) (tag : VarType)
  | setNumeric (id : VarId) (n : Float)
  | setString (id : VarId) (s : String)
  | setImage (id : VarId) (i : Image)
  | element (id : VarId) (index : Nat)
  | pushElement (array child : VarId)
  | detachElement (array : VarId) (index : Nat)
  | unsetLink (link : VarId)
  | release (id : VarId)
  | free (id : VarId)
  | copy (target source : VarId)
  | moveOrCopy (target source : VarId)
  | duplicate (source : VarId)

namespace Op

def run : Op → HeapM Unit
  | .alloc p => discard (liftM (Heap.alloc p))
  | .allocValue value => discard (liftM (Heap.allocValue value))
  | .allocLink target => discard (Heap.allocLink target)
  | .setOwner id owner => Heap.setOwner id owner
  | .setWriteProtected id flag => Heap.setWriteProtected id flag
  | .setLeftValue id flag => Heap.setLeftValue id flag
  | .setType id tag => Heap.setType id tag
  | .setNumeric id n => Heap.setNumeric id n
  | .setString id s => Heap.setString id s
  | .setImage id i => Heap.setImage id i
  | .element id index => discard (Heap.element id index)
  | .pushElement array child => Heap.pushElement array child
  | .detachElement array index => discard (Heap.detachElement array index)
  | .unsetLink link => Heap.unsetLink link
  | .release id => Heap.release id
  | .free id => Heap.free id
  | .copy target source => Heap.copy target source
  | .moveOrCopy target source => Heap.moveOrCopy target source
  | .duplicate source => discard (Heap.duplicate source)

-- The heap that an operation leaves, also where it fails.
def after (op : Op) (h : Heap) : Heap :=
  (op.run.run.run h).2

-- How the operations are meant to be used. Links are made by one operation
-- only, elements belong to their array, and only a left-value takes over the
-- elements of a temporary.
def Fits (h : Heap) : Op → Prop
  | .alloc p => (∀ t, p ≠ .link t) ∧ p.elements.toList.Nodup ∧ ∀ c ∈ p.elements, h.Fresh c
  | .setOwner id owner => (∀ p, ¬h.Lists p id) ∧ ∀ p, owner ≠ .array p
  | .setLeftValue id _ => ∀ p, ¬h.Lists p id
  | .pushElement array child =>
    (∃ v, h.var? child = some v ∧ v.owner = .detached ∧ ∀ t, v.payload ≠ .link t) ∧
      ∀ t, h.resolve array = .ok t → ¬h.Below child t
  | .detachElement array _ =>
    ∀ t w, h.resolve array = .ok t → h.var? t = some w → w.leftValue = false
  | .free id => ∀ p, ¬h.Lists p id
  | .moveOrCopy target _ =>
    ∀ t w, h.resolve target = .ok t → h.var? t = some w → w.leftValue = true
  | _ => True

end Op

-- What comes of the empty heap by operations that are used as they are meant.
inductive Arises : Heap → Prop
  | empty : Arises Heap.empty
  | step {h : Heap} (op : Op) : Arises h → op.Fits h → Arises (op.after h)

-- What all tables of the heap say of each other.
structure Coherent (h : Heap) : Prop where
  -- The live count and the free list are those of the slots.
  arena : h.arena.Sound
  element : ∀ {p c v}, h.var? p = some v → c ∈ v.payload.elements →
    ∃ w, h.var? c = some w ∧ w.owner = .array p ∧ w.leftValue = v.leftValue ∧
      ∀ t, w.payload ≠ .link t
  -- An element lies in one array, at one position.
  place : ∀ {p q v w c} {i j : Nat}, h.var? p = some v → h.var? q = some w →
    v.payload.elements[i]? = some c → w.payload.elements[j]? = some c → p = q ∧ i = j
  listed : ∀ {c w p}, h.var? c = some w → w.owner = .array p → h.Lists p c
  acyclic : ∀ {p c}, h.Lists p c → ¬h.Below c p
  -- So all walks end.
  owningScope : ∀ {id}, h.Live id → ∃ o, h.owningScope id = .ok o
  toValue : ∀ {id}, h.Live id → ∃ value, h.toValue id = .ok value
  setLeftValue : ∀ {id} flag, h.Live id →
    Ensures (Heap.setLeftValue id flag) h (fun _ _ => True) fun _ _ => False
  free : ∀ {id}, h.Root id → Ensures (Heap.free id) h (fun _ _ => True) fun _ _ => False
  -- A variable knows the links to it, each once. Links do not chain.
  link : ∀ {l v t}, h.var? l = some v → v.payload = .link t →
    ∃ w, h.var? t = some w ∧ l ∈ w.linkedBy ∧ ∀ u, w.payload ≠ .link u
  linked : ∀ {t w l}, h.var? t = some w → l ∈ w.linkedBy →
    ∃ v, h.var? l = some v ∧ v.payload = .link t
  once : ∀ {t w}, h.var? t = some w → w.linkedBy.Nodup

variable {α : Type} {h : Heap} {x : HeapM α}

theorem Robust.discard (hx : Robust x h) : Robust (discard x) h :=
  Ensures.map_iff.mpr hx

theorem Robust.sound (hx : Robust x h) : (x.run.run h).2.Sound [] False := by
  unfold Robust Ensures at hx
  split at hx <;> simp_all

-- One operation, whatever it is.
theorem Op.robust {op : Op} (hs : h.Sound [] False) (hfits : op.Fits h) : Robust op.run h := by
  cases op with
  | alloc p => exact (Robust.alloc hs hfits.1 hfits.2.1 hfits.2.2).discard
  | allocValue value => exact (Robust.allocValue hs value).discard
  | allocLink target => exact (Robust.allocLink hs).discard
  | setOwner id owner => exact .setOwner hs hfits.1 hfits.2
  | setWriteProtected id flag => exact .setWriteProtected hs
  | setLeftValue id flag => exact .setLeftValue hs hfits
  | setType id tag => exact .setType hs
  | setNumeric id n => exact .setScalar hs nofun nofun
  | setString id s => exact .setScalar hs nofun nofun
  | setImage id i => exact .setScalar hs nofun nofun
  | element id index => exact (Robust.element hs).discard
  | pushElement array child => exact .pushElement hs hfits.1 hfits.2
  | detachElement array index => exact (Robust.detachElement hs hfits).discard
  | unsetLink link => exact .unsetLink hs
  | release id => exact .release hs
  | free id => exact .free hs hfits
  | copy target source => exact .copy hs
  | moveOrCopy target source => exact .moveOrCopy hs hfits
  | duplicate source => exact (Robust.duplicate hs).discard

theorem Arises.sound (ha : Arises h) : h.Sound [] False := by
  induction ha with
  | empty => exact sound_empty
  | step op _ hfits ih => exact (Op.robust ih hfits).sound

theorem Coherent.of_sound (hs : h.Sound [] False) : h.Coherent where
  arena := hs.forest.arena
  element {p c v} hv hc := by
    obtain ⟨w, hw, ho, hno⟩ := hs.forest.element ⟨v, hv, hc⟩
    exact ⟨w, hw, ho, hs.flagged.left hv hw hc, hno⟩
  place {p q v w c i j} hv hw hi hj := by
    cases hs.forest.parent_unique ⟨v, hv, Array.mem_of_getElem? hi⟩ ⟨w, hw, Array.mem_of_getElem? hj⟩
    cases hv.symm.trans hw
    refine ⟨rfl, ?_⟩
    have hnd := hs.forest.nodup hv
    obtain ⟨hi', hi⟩ := Array.getElem?_eq_some_iff.mp hi
    obtain ⟨hj', hj⟩ := Array.getElem?_eq_some_iff.mp hj
    exact (@List.Nodup.getElem_inj_iff _ _ hnd i hi' j hj').mp (by simp [hi, hj])
  listed hw ho := (hs.forest.listed hw ho).resolve_left (by simp)
  acyclic hl := hs.forest.not_below_of_lists hl
  owningScope hl := (hs.owningScope_ok hl).imp fun _ ho => ho.1
  toValue hl := hs.toValue_ok hl
  setLeftValue _ hl := (setLeftValue_ensures hs.forest.arena (hs.forest.within hl)).mono
    (fun _ _ _ => trivial) fun _ _ he => he
  free hr := (free_ensures (hs.loosen hr (by simp))).mono (fun _ _ _ => trivial) fun _ _ he => he
  link hv ht := hs.linked.link hv ht
  linked hw hl := hs.linked.linked hw hl
  once hw := hs.linked.once hw

theorem Arises.not_lists {id p : VarId} (ha : Arises h)
    (hd : (h.var? id).map Variable.owner = some .detached) : ¬h.Lists p id := by
  obtain ⟨v, hv, ho⟩ := Option.map_eq_some_iff.mp hd
  exact (ha.sound.forest.root_of_owner hv (by simp [ho])).2 p

end Heap

end FinLang

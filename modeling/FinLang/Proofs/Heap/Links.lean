import FinLang.Proofs.Heap.Coherence
import Mathlib.Data.List.Induction

namespace FinLang

namespace Heap

-- A live link and what it holds.
def Points (h : Heap) (l t : VarId) : Prop :=
  ∃ v, h.var? l = some v ∧ v.payload = .link t

-- No link points at a link.
def Flat (h : Heap) : Prop :=
  ∀ l t u, h.Points l t → ¬h.Points t u

-- What holds of the links however the heap was used: a link has a live target,
-- which knows it. Where the heap is flat as well, the target is no link.
structure Tied (flat : Prop) (h : Heap) : Prop where
  arena : h.arena.Sound
  link : ∀ {l t}, h.Points l t →
    ∃ w, h.var? t = some w ∧ l ∈ w.linkedBy ∧ (flat → ∀ u, w.payload ≠ .link u)

variable {α β : Type} {flat : Prop} {h h' : Heap} {id l t u : VarId} {v w : Variable} {p : Payload}

theorem points_iff (hv : h.var? l = some v) : h.Points l t ↔ v.payload = .link t := by
  simp [Points, hv]

theorem Tied.target_live (ht : h.Tied flat) (hp : h.Points l t) : h.Live t := by
  obtain ⟨w, hw, -⟩ := ht.link hp
  exact ⟨w, hw⟩

theorem tied_empty : Heap.empty.Tied flat where
  arena := Arena.sound_empty
  link := by
    rintro l t ⟨v, hv, -⟩
    cases hv

theorem tied_iff : h.Tied flat ↔ h.Tied False ∧ (flat → h.Flat) := by
  constructor
  · refine fun ht => ⟨⟨ht.arena, fun hp => ?_⟩, fun hflat l t u hp hq => ?_⟩
    · obtain ⟨w, hw, hl, -⟩ := ht.link hp
      exact ⟨w, hw, hl, False.elim⟩
    · obtain ⟨w, hw, -, hno⟩ := ht.link hp
      exact hno hflat u ((points_iff hw).mp hq)
  · refine fun ⟨ht, hf⟩ => ⟨ht.arena, fun hp => ?_⟩
    obtain ⟨w, hw, hl, -⟩ := ht.link hp
    exact ⟨w, hw, hl, fun hflat u hu => hf hflat _ _ u hp ⟨w, hw, hu⟩⟩

-- A change that makes no link and forgets none.
theorem Tied.change {f : Variable → Variable} (ht : h.Tied flat)
    (hlink : ∀ {v u}, h.var? id = some v → (f v).payload = .link u → v.payload = .link u)
    (hby : ∀ {v l}, h.var? id = some v → h.Points l id → l ∈ v.linkedBy → l ∈ (f v).linkedBy) :
    (h.change id f).Tied flat where
  arena := Arena.sound_modify ht.arena id f
  link := by
    rintro l t ⟨v, hv, hp⟩
    have hold : h.Points l t := by
      obtain ⟨v', hv', rfl⟩ := (maps_change f).of_some hv
      refine ⟨v', hv', ?_⟩
      split at hp
      · subst_vars
        exact hlink hv' hp
      · exact hp
    obtain ⟨w, hw, hl, hno⟩ := ht.link hold
    refine ⟨_, (maps_change f).some hw, ?_⟩
    split
    · subst_vars
      exact ⟨hby hw hold hl, fun hflat u hu => hno hflat u (hlink hw hu)⟩
    · exact ⟨hl, hno⟩

theorem Tied.setPayload (ht : h.Tied flat) (hp : ∀ u, p ≠ .link u) :
    (h.change id fun v => { v with payload := p }).Tied flat :=
  ht.change (fun _ hu => absurd hu (hp _)) fun _ _ hl => hl

theorem Tied.insert (ht : h.Tied flat) (hv : ∀ u, v.payload ≠ .link u) : (h.added v).Tied flat where
  arena := Arena.sound_insert ht.arena v
  link := by
    have hother : ∀ {x}, x ≠ h.fresh v → (h.added v).var? x = h.var? x :=
      fun hx => Arena.get?_insert_of_ne ht.arena v hx
    rintro l t ⟨v', hv', hp⟩
    by_cases hl : l = h.fresh v
    · subst hl
      cases (Arena.get?_insert_self ht.arena v).symm.trans hv'
      exact absurd hp (hv t)
    · obtain ⟨w, hw, hrest⟩ := ht.link ⟨v', hother hl ▸ hv', hp⟩
      refine ⟨w, ?_, hrest⟩
      rw [hother, hw]
      rintro rfl
      cases (Arena.get?_insert_fresh ht.arena v).symm.trans hw

-- An operation that keeps a condition, also where it fails.
def Upholds (I : Heap → Prop) (x : HeapM α) : Prop :=
  ∀ h : Heap, I h → Ensures x h (fun _ h' => I h') fun _ h' => I h'

-- A condition that is at risk only where a link is made.
structure Durable (I : Heap → Prop) : Prop where
  insert : ∀ {h : Heap} {v : Variable}, I h → (∀ u, v.payload ≠ .link u) → I (h.added v)
  change : ∀ {h : Heap} {id : VarId} {f : Variable → Variable}, I h →
    (∀ v u, (f v).payload = .link u → v.payload = .link u) → (∀ v, (f v).linkedBy = v.linkedBy) →
    I (h.change id f)
  unsetLink : ∀ {l}, Upholds I (Heap.unsetLink l)
  freeWithin : ∀ n id, Upholds I (Heap.freeWithin n id)

variable {I : Heap → Prop}

namespace Upholds

theorem pure (a : α) : Upholds I (Pure.pure a : HeapM α) :=
  fun _ hi => Ensures.pure_iff.mpr hi

theorem fail (c : Cause) : Upholds I (Heap.fail c : HeapM α) :=
  fun _ hi => fail_iff.mpr hi

theorem bind {x : HeapM α} {k : α → HeapM β} (hx : Upholds I x) (hk : ∀ a, Upholds I (k a)) :
    Upholds I (x >>= k) :=
  fun h hi => (hx h hi).bind fun a h' hi' => hk a h' hi'

theorem discard {x : HeapM α} (hx : Upholds I x) : Upholds I (discard x) :=
  fun h hi => Ensures.map_iff.mpr (hx h hi)

theorem read (f : Heap → Except Failure α) : Upholds I (Heap.read f) := by
  intro h hi
  rcases hf : f h with e | a
  · exact (read_error hf).mpr hi
  · exact (read_ok hf).mpr hi

theorem get : Upholds I (MonadState.get : HeapM Heap) :=
  fun _ hi => Ensures.get_iff.mpr hi

theorem forM {f : α → HeapM Unit} (hf : ∀ a, Upholds I (f a)) (l : Array α) :
    Upholds I (l.forM f) :=
  fun _ hi => Ensures.forM_array (fun _ h => I h) (fun a _ h hi => hf a h hi) l _ hi

end Upholds

namespace Durable

variable (hI : Durable I)

include hI

theorem inserted (hv : ∀ u, v.payload ≠ .link u) :
    Upholds I (liftM (Heap.insert v) : HeapM VarId) :=
  fun _ hi => insert_iff.mpr (hI.insert hi hv)

section

variable {f : Variable → Variable}
  (hlink : ∀ v u, (f v).payload = .link u → v.payload = .link u)
  (hby : ∀ v, (f v).linkedBy = v.linkedBy)

include hlink hby

theorem modifyVariable : Upholds I (liftM (Heap.modifyVariable id f) : HeapM Unit) :=
  fun _ hi => modifyVariable_iff.mpr (hI.change hi hlink hby)

theorem update : Upholds I (Heap.update id f) := by
  refine .bind Upholds.get fun h => ?_
  split
  · exact hI.modifyVariable hlink hby
  · exact .fail _

end

theorem setPayload (hp : ∀ u, p ≠ .link u) : Upholds I (Heap.setPayload id p) :=
  hI.update (f := fun v => { v with payload := p }) (fun _ _ hu => absurd hu (hp _)) fun _ => rfl

theorem setOwner {owner : Owner} : Upholds I (Heap.setOwner id owner) :=
  hI.update (f := fun v => { v with owner := owner }) (fun _ _ hu => hu) fun _ => rfl

theorem setWriteProtected {flag : Bool} : Upholds I (Heap.setWriteProtected id flag) :=
  hI.update (f := fun v => { v with writeProtected := flag }) (fun _ _ hu => hu) fun _ => rfl

theorem setLeftValueWithin (flag : Bool) (n : Nat) (id : VarId) :
    Upholds I (Heap.setLeftValueWithin flag n id) := by
  induction n generalizing id with
  | zero => exact .fail _
  | succ n ih =>
    refine (hI.update (f := fun v => { v with leftValue := flag }) (fun _ _ hu => hu)
      fun _ => rfl).bind fun _ => (Upholds.read _).bind fun _ => .forM ih _

theorem setLeftValue {flag : Bool} : Upholds I (Heap.setLeftValue id flag) :=
  .bind Upholds.get fun _ => hI.setLeftValueWithin flag _ id

theorem alloc (hp : ∀ u, p ≠ .link u) : Upholds I (liftM (Heap.alloc p) : HeapM VarId) := by
  intro h hi
  rw [alloc_elements_iff]
  refine (Ensures.forM (fun _ h => I h) (fun c _ h hi => ?_) _ _ (hI.insert hi hp)).mono
    (fun _ _ hi => hi) fun _ _ he => he
  exact modifyVariable_iff.mpr (hI.change hi (fun _ _ hu => hu) fun _ => rfl)

end Durable

theorem buildPayload_ne_link (parent : VarId) (flag : Bool) (value : Value) (u : VarId) :
    ((buildPayload parent flag value).run h).1 ≠ .link u := by
  cases value <;> (rw [buildPayload]; nofun)

mutual

private theorem upholds_build (hI : Durable I) (owner : Owner) (flag : Bool) : (value : Value) →
    ∀ {h : Heap}, I h → I ((build owner flag value).run h).2
  | value, _, hi => by
    have hins := hI.insert (v := .make .null owner flag) hi nofun
    rw [build]
    exact hI.change (upholds_buildPayload hI _ flag value hins)
      (fun _ _ hu => absurd hu (buildPayload_ne_link _ flag value _)) fun _ => rfl

private theorem upholds_buildPayload (hI : Durable I) (parent : VarId) (flag : Bool) :
    (value : Value) → ∀ {h : Heap}, I h → I ((buildPayload parent flag value).run h).2
  | .null, _, hi | .numeric _, _, hi | .string _, _, hi | .image _, _, hi => by
    rw [buildPayload]
    exact hi
  | .array values, _, hi => by
    rw [buildPayload]
    exact upholds_buildItems hI (.array parent) flag values #[] hi

private theorem upholds_buildItems (hI : Durable I) (owner : Owner) (flag : Bool) :
    (values : List Value) → (built : Array VarId) → ∀ {h : Heap}, I h →
      I ((buildItems owner flag values built).run h).2
  | [], _, _, hi => by
    rw [buildItems]
    exact hi
  | value :: rest, _, _, hi => by
    rw [buildItems]
    exact upholds_buildItems hI owner flag rest _ (upholds_build hI owner flag value hi)

end

namespace Durable

variable (hI : Durable I)

include hI

theorem allocValue (value : Value) : Upholds I (liftM (Heap.allocValue value) : HeapM VarId) :=
  fun _ hi => Ensures.lift_iff.mpr (upholds_build hI .detached false value hi)

theorem growth (array : VarId) (flag : Bool) (n : Nat) (items : Array VarId) :
    Upholds I (liftM (Heap.growth array flag n items) : HeapM (Array VarId)) := by
  intro h hi
  rw [Ensures.lift_iff]
  induction n generalizing h items with
  | zero => exact hi
  | succ n ih => exact ih _ _ (hI.insert hi nofun)

theorem setScalar (hp : ∀ u, p ≠ .link u) : Upholds I (Heap.setScalar id p) := by
  unfold Heap.setScalar
  refine (Upholds.read _).bind ?_
  rintro ⟨t, v⟩
  dsimp only
  split
  · exact (Upholds.fail _).bind fun _ => hI.setPayload hp
  · exact hI.setPayload hp

private theorem give {tag : VarType} :
    Upholds I (match defaultPayload? tag with
      | some p => Heap.setPayload t p
      | none => Heap.fail .linkByType : HeapM Unit) := by
  cases tag with
  | link => exact .fail _
  | _ => exact hI.setPayload nofun

theorem setType {tag : VarType} : Upholds I (Heap.setType id tag) := by
  unfold Heap.setType
  refine (Upholds.read _).bind ?_
  rintro ⟨t, v⟩
  dsimp only
  split
  · exact .pure _
  split
  · exact (Upholds.fail _).bind fun _ => hI.give
  · exact hI.give

omit hI in
private theorem found {i : Nat} :
    Upholds I (do
      match (← Heap.read (·.lookup t)).payload.elements[i]? with
      | some element => return element
      | none => Heap.fail .arrayVanished : HeapM VarId) := by
  refine (Upholds.read _).bind fun w => ?_
  split
  · exact .pure _
  · exact .fail _

theorem element {i : Nat} : Upholds I (Heap.element id i) := by
  unfold Heap.element
  refine (Upholds.read _).bind fun t => (Upholds.read _).bind fun v => (Upholds.read _).bind fun n => ?_
  have hgrow : Upholds I (do
      let extra ← liftM (Heap.growth t v.leftValue (i + 1 - n) #[])
      Heap.update t fun v => { v with payload := appendItems extra v.payload } : HeapM Unit) :=
    (hI.growth t v.leftValue _ _).bind fun extra =>
      hI.update (f := fun v => { v with payload := appendItems extra v.payload })
        (fun v u hu => absurd hu (appendItems_ne_link extra v.payload u)) fun _ => rfl
  split
  · split
    · exact (Upholds.fail _).bind fun _ => hgrow.bind fun _ => found
    · exact hgrow.bind fun _ => found
  · exact found

theorem pushElement {array child : VarId} : Upholds I (Heap.pushElement array child) := by
  unfold Heap.pushElement
  refine (Upholds.read _).bind fun t => (Upholds.read _).bind ?_
  rintro ⟨reached, v⟩
  have hput : Upholds I (do
      Heap.update reached fun v => { v with payload := appendItems #[child] v.payload }
      Heap.setOwner child (.array t)
      Heap.setLeftValue child v.leftValue : HeapM Unit) :=
    (hI.update (f := fun v => { v with payload := appendItems #[child] v.payload })
      (fun v u hu => absurd hu (appendItems_ne_link _ v.payload u)) fun _ => rfl).bind
      fun _ => hI.setOwner.bind fun _ => hI.setLeftValue
  dsimp only
  split
  · exact hput
  · exact hput
  · exact .fail _

theorem detachElement {array : VarId} {i : Nat} : Upholds I (Heap.detachElement array i) := by
  unfold Heap.detachElement
  refine (Upholds.read _).bind fun t => (Upholds.read _).bind fun v => ?_
  split
  · exact .fail _
  · rename_i taken _
    refine (hI.inserted (v := .make .null (.array t) false) nofun).bind fun substitute =>
      Upholds.bind ?_ fun _ => hI.setOwner.bind fun _ => hI.setLeftValue.bind fun _ => .pure taken
    refine hI.update (fun v u hu => ?_) fun _ => rfl
    cases hp : v.payload <;> simp_all [Payload.mapElements]

theorem free : Upholds I (Heap.free id) :=
  .bind Upholds.get fun _ => hI.freeWithin _ id

theorem release : Upholds I (Heap.release id) := by
  refine .bind Upholds.get fun h => ?_
  split
  · split
    · exact hI.free
    · exact .pure _
  · exact .pure _

theorem clear : Upholds I (Heap.clear id) := by
  refine (Upholds.read _).bind ?_
  rintro ⟨t, v⟩
  exact (hI.setPayload (p := .null) nofun).bind fun _ =>
    (Upholds.forM (fun _ => hI.free) _).bind fun _ => .pure _

theorem writeValue {value : Value} : Upholds I (Heap.writeValue id value) := by
  refine hI.clear.bind ?_
  rintro ⟨t, flag⟩ h hi
  rw [Ensures.bind_iff, Ensures.lift_iff]
  exact hI.setPayload (buildPayload_ne_link t flag value) _ (upholds_buildPayload hI t flag value hi)

theorem copy {source : VarId} : Upholds I (Heap.copy id source) := by
  refine (Upholds.read _).bind fun t => (Upholds.read _).bind fun s => ?_
  split
  · exact .pure _
  · exact (Upholds.read _).bind fun _ => (Upholds.read _).bind fun _ => hI.writeValue

theorem moveOrCopy {source : VarId} : Upholds I (Heap.moveOrCopy id source) := by
  refine (Upholds.read _).bind fun given => (Upholds.read _).bind fun v => ?_
  split
  · exact hI.copy
  refine (Upholds.read _).bind fun t => ?_
  split
  · exact hI.copy
  refine (Upholds.read _).bind fun _ => hI.clear.bind ?_
  rintro ⟨target, flag⟩
  exact (Upholds.read _).bind fun w => (hI.setPayload (p := .array #[]) nofun).bind fun _ =>
    (Upholds.forM (fun _ => hI.setOwner.bind fun _ => hI.setLeftValue) _).bind fun _ =>
      hI.setPayload (p := .array w.payload.elements) nofun

theorem releaseAll {ids : List VarId} : Upholds I (Heap.releaseAll ids) :=
  fun _ hi => Ensures.forM (fun _ h => I h) (fun _ _ h hi => hI.release h hi) ids _ hi

theorem duplicate : Upholds I (Heap.duplicate id) :=
  (Upholds.read _).bind fun value => hI.allocValue value

end Durable

-- An operation that leaves the links tied, also where it fails.
def Steady (flat : Prop) (x : HeapM α) : Prop :=
  ∀ h : Heap, h.Tied flat → Ensures x h (fun _ h' => h'.Tied flat) fun _ h' => h'.Tied flat

theorem points_change_payload :
    (h.change id fun v => { v with payload := p }).Points l t ↔
      if l = id then h.Live id ∧ p = .link t else h.Points l t := by
  rcases hv : h.var? l with _ | v <;> by_cases hl : l = id <;> simp_all [Points, Live, var?_change]

theorem points_change_linkedBy {f : Variable → List VarId} :
    (h.change id fun v => { v with linkedBy := f v }).Points l t ↔ h.Points l t := by
  rcases hv : h.var? l with _ | v <;> by_cases hl : l = id <;> simp_all [Points, var?_change]

-- A heap in which a variable has dropped its link.
structure Unlinked (flat : Prop) (l : VarId) (h h' : Heap) : Prop where
  tied : h'.Tied flat
  live : ∀ {x}, h'.Live x ↔ h.Live x
  points : ∀ {x t}, h'.Points x t ↔ x ≠ l ∧ h.Points x t

theorem unsetLink_tied (ht : h.Tied flat) :
    Ensures (unsetLink l) h (fun _ h' => Unlinked flat l h h') fun _ h' => h' = h := by
  rcases hv : h.var? l with _ | v
  · rw [unsetLink, Ensures.bind_iff]
    exact (read_error (f := fun h => h.lookup l)
      (lookup_stale (not_live_of_var? hv))).mpr rfl
  by_cases hlink : ∃ t, v.payload = .link t
  · obtain ⟨t, hlink⟩ := hlink
    rw [unsetLink_iff_of_link hv hlink]
    have hpoints : ∀ {x u}, ((h.change l fun v => { v with payload := .null }).change t fun v =>
        { v with linkedBy := v.linkedBy.filter (· != l) }).Points x u ↔ x ≠ l ∧ h.Points x u := by
      intro x u
      rw [points_change_linkedBy, points_change_payload]
      split <;> simp_all
    refine ⟨(ht.setPayload (p := .null) (by simp)).change (fun _ hu => hu) ?_, ?_, hpoints⟩
    · intro w x _ hx hmem
      have hne : x ≠ l := (hpoints.mp (points_change_linkedBy.2 hx)).1
      exact List.mem_filter.mpr ⟨hmem, by simpa using hne⟩
    · exact (maps_change _).live.trans (maps_change _).live
  · rw [unsetLink_iff_of_no_link hv fun t h => hlink ⟨t, h⟩]
    refine ⟨ht, .rfl, fun {x t} => ⟨fun hp => ⟨?_, hp⟩, And.right⟩⟩
    rintro rfl
    exact hlink ⟨t, (points_iff hv).mp hp⟩

-- What nothing points at may go.
theorem Tied.erase (ht : h.Tied flat) (hid : ∀ {l}, ¬h.Points l id) :
    Tied flat ⟨h.arena.erase id⟩ where
  arena := Arena.sound_erase ht.arena id
  link := by
    rintro l t ⟨v, hv, hp⟩
    have hl : h.Points l t := by
      refine ⟨v, ?_, hp⟩
      rw [Heap.var?, Arena.get?_erase] at hv
      split at hv
      · cases hv
      · exact hv
    obtain ⟨w, hw, hrest⟩ := ht.link hl
    refine ⟨w, (Arena.get?_erase_of_ne _ ?_).trans hw, hrest⟩
    rintro rfl
    exact hid hl

theorem Steady.unsetLink : Steady flat (Heap.unsetLink l) :=
  fun _ ht => (unsetLink_tied ht).mono (fun _ _ hu => hu.tied) fun _ _ he => he ▸ ht

theorem Steady.freeWithin (n : Nat) (id : VarId) : Steady flat (Heap.freeWithin n id) := by
  induction n generalizing id with
  | zero => exact Upholds.fail _
  | succ n ih =>
    intro h ht
    rw [Heap.freeWithin, Ensures.bind_iff]
    refine (Steady.unsetLink h ht).mono ?_ fun _ _ he => he
    intro _ h₁ ht₁
    rcases hv : h₁.var? id with _ | v
    · rw [Ensures.bind_iff]
      exact (read_error (f := fun h => h.lookup id)
        (lookup_stale (not_live_of_var? hv))).mpr ht₁
    rw [Ensures.bind_iff, read_lookup_iff hv, Ensures.bind_iff]
    refine (modify_all (f := fun l => { l with payload := .null }) (fun _ => rfl) v.linkedBy
      ht₁.arena).mono ?_ fun _ _ he => he
    rintro _ h₂ ⟨ha₂, -, hm⟩
    -- Whoever pointed at the variable has been set to null.
    have hpoints : ∀ {x t}, h₂.Points x t → h₁.Points x t ∧ x ∉ v.linkedBy := by
      rintro x t ⟨u, hu, hp⟩
      obtain ⟨u, hu', rfl⟩ := hm.of_some hu
      split at hp
      · cases hp
      · exact ⟨⟨u, hu', hp⟩, ‹_›⟩
    have ht₂ : h₂.Tied flat := by
      refine ⟨ha₂, fun hp => ?_⟩
      obtain ⟨w, hw, hby, hno⟩ := ht₁.link (hpoints hp).1
      refine ⟨_, hm.some hw, ?_⟩
      split
      · exact ⟨hby, by simp⟩
      · exact ⟨hby, hno⟩
    rw [Ensures.bind_iff, Ensures.modify_iff]
    refine Upholds.forM ih _ _ (ht₂.erase fun hp => ?_)
    obtain ⟨hp, hnot⟩ := hpoints hp
    obtain ⟨w, hw, hby, -⟩ := ht₁.link hp
    cases hv.symm.trans hw
    exact hnot hby

theorem durable_tied : Durable (Tied flat) where
  insert := Tied.insert
  change ht hlink hby :=
    ht.change (fun _ hu => hlink _ _ hu) fun {v _} _ _ hl => (hby v).symm ▸ hl
  unsetLink := Steady.unsetLink
  freeWithin := Steady.freeWithin

-- No link that was not there before.
def Unlinking (h h' : Heap) : Prop :=
  ∀ l t, h'.Points l t → h.Points l t

namespace Unlinking

theorem refl : Unlinking h h :=
  fun _ _ hp => hp

theorem trans {h'' : Heap} (h₁ : Unlinking h h') (h₂ : Unlinking h' h'') : Unlinking h h'' :=
  fun l t hp => h₁ l t (h₂ l t hp)

theorem change {f : Variable → Variable} (hf : ∀ v u, (f v).payload = .link u → v.payload = .link u) :
    Unlinking h (h.change id f) := by
  rintro l t ⟨v, hv, hp⟩
  obtain ⟨v', hv', rfl⟩ := (maps_change f).of_some hv
  refine ⟨v', hv', ?_⟩
  split at hp
  · exact hf _ _ hp
  · exact hp

theorem insert (ha : h.arena.Sound) (hv : ∀ u, v.payload ≠ .link u) : Unlinking h (h.added v) := by
  rintro l t ⟨v', hv', hp⟩
  by_cases hl : l = h.fresh v
  · subst hl
    cases (Arena.get?_insert_self ha v).symm.trans hv'
    exact absurd hp (hv t)
  · exact ⟨v', (Arena.get?_insert_of_ne ha v hl).symm.trans hv', hp⟩

theorem erase : Unlinking h ⟨h.arena.erase id⟩ := by
  rintro l t ⟨v, hv, hp⟩
  refine ⟨v, ?_, hp⟩
  rw [Heap.var?, Arena.get?_erase] at hv
  split at hv
  · cases hv
  · exact hv

end Unlinking

-- The links are among those of a heap.
abbrev WithinLinks (h₀ h : Heap) : Prop :=
  h.arena.Sound ∧ Unlinking h₀ h

section

variable {h₀ : Heap}

theorem WithinLinks.change {f : Variable → Variable} (hw : WithinLinks h₀ h)
    (hf : ∀ v u, (f v).payload = .link u → v.payload = .link u) : WithinLinks h₀ (h.change id f) :=
  ⟨Arena.sound_modify hw.1 id f, hw.2.trans (.change hf)⟩

theorem unsetLink_within : Upholds (WithinLinks h₀) (unsetLink l) := by
  intro h hw
  rcases hv : h.var? l with _ | v
  · rw [unsetLink, Ensures.bind_iff]
    exact (read_error (f := fun h => h.lookup l) (lookup_stale (not_live_of_var? hv))).mpr hw
  by_cases hlink : ∃ t, v.payload = .link t
  · obtain ⟨t, hlink⟩ := hlink
    have hnull : WithinLinks h₀ (h.change l fun v => { v with payload := .null }) :=
      hw.change (by simp)
    exact (unsetLink_iff_of_link hv hlink).mpr (hnull.change fun _ _ hu => hu)
  · exact (unsetLink_iff_of_no_link hv fun t h => hlink ⟨t, h⟩).mpr hw

theorem freeWithin_within (n : Nat) (id : VarId) : Upholds (WithinLinks h₀) (freeWithin n id) := by
  induction n generalizing id with
  | zero => exact .fail _
  | succ n ih =>
    refine .bind unsetLink_within fun _ => (Upholds.read _).bind fun v => ?_
    have hnull : ∀ link : VarId, Upholds (WithinLinks h₀)
        (liftM (modifyVariable link fun l => { l with payload := .null }) : HeapM Unit) :=
      fun _ _ hw => modifyVariable_iff.mpr
        (hw.change (f := fun l => { l with payload := .null }) fun _ _ => nofun)
    have herase : Upholds (WithinLinks h₀) (modify fun h => ⟨h.arena.erase id⟩ : HeapM Unit) :=
      fun _ hw => Ensures.modify_iff.mpr ⟨Arena.sound_erase hw.1 id, hw.2.trans .erase⟩
    refine Upholds.bind ?_ fun _ => herase.bind fun _ => .forM ih _
    exact fun h hw => Ensures.forM (fun _ h => WithinLinks h₀ h) (fun link _ h hw => hnull link h hw) _ _ hw

-- Where no link is made there are no new ones.
theorem durable_within : Durable (WithinLinks h₀) where
  insert hw hv := ⟨Arena.sound_insert hw.1 _, hw.2.trans (.insert hw.1 hv)⟩
  change hw hlink _ := hw.change hlink
  unsetLink := unsetLink_within
  freeWithin := freeWithin_within

theorem Upholds.unlinking {x : HeapM α} (hx : Upholds (WithinLinks h) x) (ha : h.arena.Sound) :
    Ensures x h (fun _ h' => Unlinking h h') fun _ h' => Unlinking h h' :=
  (hx h ⟨ha, .refl⟩).mono (fun _ _ hw => hw.2) fun _ _ hw => hw.2

end

-- Where a handle leads, links being tied.
theorem Tied.resolve (ht : h.Tied flat) (hl : h.Live id) :
    ∃ t, h.resolve id = .ok t ∧ h.Live t ∧ (t = id ∧ (∀ u, ¬h.Points id u) ∨ h.Points id t) := by
  obtain ⟨v, hv⟩ := hl
  by_cases hlink : ∃ t, v.payload = .link t
  · obtain ⟨t, hlink⟩ := hlink
    have hp : h.Points id t := ⟨v, hv, hlink⟩
    have hc : h.contains t = true := contains_iff.mpr (ht.target_live hp)
    refine ⟨t, ?_, ht.target_live hp, .inr hp⟩
    simp [Heap.resolve, lookup_eq hv, bind, Except.bind, hlink, hc, pure, Except.pure]
  · refine ⟨id, resolve_eq_self hv fun t h => hlink ⟨t, h⟩, ⟨v, hv⟩, .inl ⟨rfl, fun u hp => ?_⟩⟩
    exact hlink ⟨u, (points_iff hv).mp hp⟩

-- In a flat heap a handle leads to no link.
theorem Tied.resolve_flat (ht : h.Tied flat) (hf : h.Flat) (hr : h.resolve id = .ok t) :
    ¬h.Points t u := by
  have hl : h.Live id := by
    by_contra hl
    cases (resolve_stale hl).symm.trans hr
  obtain ⟨t', hr', -, ⟨rfl, hno⟩ | hp⟩ := ht.resolve hl <;> cases hr.symm.trans hr'
  · exact hno u
  · exact hf _ _ u hp

-- A variable becomes a link to what the target leads to; all other links stay.
theorem setLink_tied {target : VarId} (ht : h.Tied flat) :
    Ensures (setLink l target) h
      (fun _ h' => h'.Tied False ∧ ∃ t, h.resolve target = .ok t ∧ t ≠ l ∧
        ∀ {x u}, h'.Points x u ↔ if x = l then u = t else h.Points x u)
      fun _ h' => h'.Tied flat := by
  rw [setLink, Ensures.bind_iff]
  by_cases hl : h.Live target
  swap
  · exact (read_error (f := fun h => h.resolve target) (resolve_stale hl)).mpr ht
  obtain ⟨t, hr, htl, -⟩ := ht.resolve hl
  refine (read_ok (f := fun h => h.resolve target) hr).mpr ?_
  split
  · exact ht
  rename_i hne
  rw [Ensures.bind_iff]
  refine (unsetLink_tied ht).mono ?_ fun _ _ he => he ▸ ht
  rintro _ h₁ ⟨ht₁, hlive, hpoints⟩
  rcases hv : h₁.var? l with _ | v
  · rw [Ensures.bind_iff]
    exact (read_error (f := fun h => h.lookup l)
      (lookup_stale (not_live_of_var? hv))).mpr ht₁
  rw [Ensures.bind_iff, read_lookup_iff hv]
  dsimp only
  split
  · exact ht₁
  rw [setPayload, Ensures.bind_iff, update_iff hv, modifyVariable_iff]
  obtain ⟨w, hw⟩ := hlive.mpr htl
  have hm := maps_linking (h := h₁) hne
  have hpoints' : ∀ {x u}, ((h₁.change l fun v => { v with payload := .link t }).change t fun w =>
      { w with linkedBy := w.linkedBy ++ [l] }).Points x u ↔ if x = l then u = t else h.Points x u := by
    intro x u
    rw [points_change_linkedBy, points_change_payload]
    split
    · simpa [Live.of_var? hv] using eq_comm
    · rw [hpoints, and_iff_right ‹_›]
  refine ⟨⟨Arena.sound_modify (Arena.sound_modify ht₁.arena _ _) _ _, fun {x u} hp => ?_⟩,
    t, hr, hne, hpoints'⟩
  have hp := hpoints'.mp hp
  split at hp
  · subst_vars
    exact ⟨_, hm.some hw, by simp [linking], False.elim⟩
  · obtain ⟨y, hy, hby, -⟩ := ht₁.link (hpoints.mpr ⟨‹_›, hp⟩)
    refine ⟨_, hm.some hy, ?_, False.elim⟩
    unfold linking
    split
    · exact List.mem_append_left _ hby
    · split <;> exact hby

-- A new link makes a chain exactly where the variable was linked to.
theorem Flat.set_iff (hf : h.Flat) (hno : ∀ {u}, ¬h.Points t u) (hne : t ≠ l)
    (hp : ∀ {x u}, h'.Points x u ↔ if x = l then u = t else h.Points x u) :
    h'.Flat ↔ ∀ {x}, ¬h.Points x l := by
  constructor
  · intro hf' x hx
    have hxl : x ≠ l := by
      rintro rfl
      exact hf _ _ _ hx hx
    exact hf' x l t (hp.mpr (by rwa [if_neg hxl])) (hp.mpr (by rw [if_pos rfl]))
  · intro hl x y z hxy hyz
    have hxy := hp.mp hxy
    have hyz := hp.mp hyz
    split at hxy
    · subst_vars
      rw [if_neg hne] at hyz
      exact hno hyz
    · split at hyz
      · subst_vars
        exact hl hxy
      · exact hf _ _ _ hxy hyz

theorem Steady.allocLink {target : VarId} : Steady flat (Heap.allocLink target) := by
  intro h ht
  rw [Heap.allocLink, Ensures.bind_iff]
  refine (alloc_iff (p := .null) rfl).mpr ?_
  have ht₁ := ht.insert (v := .temporary .null) (by simp [Variable.temporary, Variable.make])
  -- Nothing points at a variable that has just come into being.
  have hnew : ∀ {x}, ¬(h.added (.temporary .null)).Points x (h.fresh (.temporary .null)) := by
    rintro x ⟨v, hv, hp⟩
    by_cases hx : x = h.fresh (.temporary .null)
    · subst hx
      cases (Arena.get?_insert_self ht.arena (.temporary .null)).symm.trans hv
      cases hp
    · have hv : h.var? x = some v := (Arena.get?_insert_of_ne ht.arena _ hx).symm.trans hv
      obtain ⟨w, hw⟩ := ht.target_live ⟨v, hv, hp⟩
      cases (Arena.get?_insert_fresh ht.arena (.temporary .null)).symm.trans hw
  rw [Ensures.bind_iff]
  refine (setLink_tied ht₁).mono ?_ fun _ _ he => he
  rintro _ h' ⟨ht', t, hr, hne, hp⟩
  refine tied_iff.mpr ⟨ht', fun hflat => ?_⟩
  have hf := (tied_iff.mp ht₁).2 hflat
  exact (hf.set_iff (ht₁.resolve_flat hf hr) hne hp).mpr hnew

theorem Sound.tied {loose : List VarId} {strict : Prop} (hs : h.Sound loose strict) : h.Tied True where
  arena := hs.forest.arena
  link := by
    rintro l t ⟨v, hv, hp⟩
    obtain ⟨w, hw, hl, hno⟩ := hs.linked.link hv hp
    exact ⟨w, hw, hl, fun _ => hno⟩

-- Only scopes own links.
theorem Sound.link_owned (hs : h.Sound []) (hp : h.Points l t) : ∃ s, h.OwnedBy l (.scope s) := by
  obtain ⟨v, hv, hlink⟩ := hp
  rcases ho : v.owner with _ | s | p
  · exact absurd hlink (hs.rules.plain hv (by simp) ho t)
  · exact ⟨s, v, hv, ho⟩
  · obtain ⟨w, hw, -, hno⟩ := hs.forest.element ((hs.forest.listed hv ho).resolve_left (by simp))
    cases hv.symm.trans hw
    exact absurd hlink (hno t)

-- A new link leads to what its target stands for.
theorem allocLink_points {strict : Prop} (hs : h.Sound [] strict) (hst : h.Stands id t w) :
    Ensures (Heap.allocLink id) h (fun l h' => ∀ x u, h'.Points x u → h.Points x u ∨ x = l ∧ u = t)
      fun _ _ => True := by
  have hadded := temporary_added (K := fun _ => False) (p := .null) hs (fun _ => False.elim) rfl nofun
  have hst₁ := hst.extends hadded.extends_ hadded.step.sound.linked
  have hnull : ∀ t, (Variable.temporary .null).payload ≠ .link t := by
    simp [Variable.temporary, Variable.make]
  rw [Heap.allocLink, Ensures.bind_iff]
  refine (alloc_iff (p := .null) rfl).mpr (Ensures.bind_iff.mpr ?_)
  refine (setLink_tied (hs.tied.insert hnull)).mono ?_ fun _ _ _ => trivial
  rintro _ h' ⟨-, t', hr, -, hpoints⟩ x u hx
  cases hst₁.resolve.symm.trans hr
  have hx := hpoints.mp hx
  split at hx
  · exact .inr ⟨‹_›, hx⟩
  · exact .inl (Unlinking.insert hs.forest.arena hnull _ _ hx)

-- An operation, with links among those that may be asked for and with whatever
-- handles.
inductive Act where
  | op (op : Op)
  | setLink (link target : VarId)

namespace Act

def run : Act → HeapM Unit
  | .op o => o.run
  | .setLink link target => Heap.setLink link target

-- The heap that an operation leaves, also where it fails.
def after (a : Act) (h : Heap) : Heap :=
  (a.run.run.run h).2

-- No link comes about as a bare content.
def Plain : Act → Prop
  | .op (.alloc p) => ∀ t, p ≠ .link t
  | _ => True

-- A variable that is linked to becomes a link itself.
def Covers (h : Heap) : Act → Prop
  | .setLink link target =>
    (∃ l, h.Points l link) ∧ ∃ h', (Heap.setLink link target).run.run h = (.ok (), h')
  | .op _ => False

end Act

theorem Steady.after {x : HeapM α} (hx : Steady flat x) (ht : h.Tied flat) :
    (x.run.run h).2.Tied flat := by
  have := hx h ht
  unfold Ensures at this
  split at this <;> simp_all

-- Whatever the operation, whatever it is given.
theorem Op.upholds (hI : Durable I) {op : Op} (hp : (Act.op op).Plain)
    (hlink : ∀ target, op ≠ .allocLink target) : Upholds I op.run := by
  cases op with
  | alloc p => exact (hI.alloc hp).discard
  | allocValue value => exact (hI.allocValue value).discard
  | allocLink target => exact absurd rfl (hlink target)
  | setOwner id owner => exact hI.setOwner
  | setWriteProtected id flag => exact hI.setWriteProtected
  | setLeftValue id flag => exact hI.setLeftValue
  | setType id tag => exact hI.setType
  | setNumeric id n => exact hI.setScalar nofun
  | setString id s => exact hI.setScalar nofun
  | setImage id i => exact hI.setScalar nofun
  | element id index => exact hI.element.discard
  | pushElement array child => exact hI.pushElement
  | detachElement array index => exact hI.detachElement.discard
  | unsetLink link => exact hI.unsetLink
  | release id => exact hI.release
  | free id => exact hI.free
  | copy target source => exact hI.copy
  | moveOrCopy target source => exact hI.moveOrCopy
  | duplicate source => exact hI.duplicate.discard

-- Whatever the operation, whatever it is given.
theorem Op.steady {op : Op} (hp : (Act.op op).Plain) : Steady flat op.run := by
  by_cases hlink : ∃ target, op = .allocLink target
  · obtain ⟨target, rfl⟩ := hlink
    exact Upholds.discard Steady.allocLink
  · exact Op.upholds durable_tied hp fun target he => hlink ⟨target, he⟩

namespace Act

variable {a : Act}

theorem tied_after (hp : a.Plain) (ht : h.Tied False) : (a.after h).Tied False := by
  cases a with
  | op o => exact (Op.steady hp).after ht
  | setLink link target =>
    have := @setLink_tied _ _ link target ht
    unfold Ensures at this
    unfold after run
    split at this <;> simp_all

-- What no link is known of may become a link.
theorem not_covers {link target : VarId} (ht : h.Tied False) (hl : h.linksTo link = []) :
    ¬(Act.setLink link target).Covers h := by
  rintro ⟨⟨l, hp⟩, -⟩
  obtain ⟨w, hw, hby, -⟩ := ht.link hp
  simp_all [linksTo]

-- One operation makes a chain exactly where it covers.
theorem flat_after_iff (hp : a.Plain) (ht : h.Tied False) (hf : h.Flat) :
    (a.after h).Flat ↔ ¬a.Covers h := by
  have htrue : h.Tied True := tied_iff.mpr ⟨ht, fun _ => hf⟩
  cases a with
  | op o => exact iff_of_true ((tied_iff.mp ((Op.steady hp).after htrue)).2 trivial) id
  | setLink link target =>
    have hset := @setLink_tied _ _ link target htrue
    unfold Ensures at hset
    unfold after run Covers
    split at hset <;> rename_i hrun
    · obtain ⟨-, t, hr, hne, hpoints⟩ := hset
      have hset := hf.set_iff (fun {u} => ht.resolve_flat hf hr (u := u)) hne hpoints
      simpa [hrun] using hset
    · simp only [hrun]
      refine iff_of_true ((tied_iff.mp hset).2 trivial) ?_
      rintro ⟨-, _, he⟩
      cases he

end Act

-- The heap that comes of the empty one.
def afterAll (acts : List Act) : Heap :=
  acts.foldl (fun h a => a.after h) Heap.empty

variable {acts : List Act}

theorem afterAll_append (a : Act) : afterAll (acts ++ [a]) = a.after (afterAll acts) := by
  simp [afterAll]

theorem tied_afterAll (hp : ∀ a ∈ acts, a.Plain) : (afterAll acts).Tied False := by
  induction acts using List.reverseRecOn with
  | nil => exact tied_empty
  | append_singleton acts a ih =>
    rw [afterAll_append]
    exact Act.tied_after (hp a (by simp)) (ih fun b hb => hp b (by simp [hb]))

-- After any operations, links have live targets, and a handle in use leads to a
-- live variable. The heap is flat all along exactly if no variable that is linked
-- to was made a link.
theorem links_of_acts (hp : ∀ a ∈ acts, a.Plain) :
    (∀ l t, (afterAll acts).Points l t → (afterAll acts).Live t) ∧
    (∀ id, (afterAll acts).Live id →
      ∃ t, (afterAll acts).resolve id = .ok t ∧ (afterAll acts).Live t) ∧
    ((∀ done, done <+: acts →
        (afterAll done).Flat ∧
          ∀ id t, (afterAll done).resolve id = .ok t → ∀ u, ¬(afterAll done).Points t u) ↔
      ∀ done a, done ++ [a] <+: acts → ¬a.Covers (afterAll done)) := by
  have hbefore : ∀ {done}, done <+: acts → (afterAll done).Tied False := fun hd =>
    tied_afterAll fun a ha => hp a (hd.subset ha)
  refine ⟨fun l t h => (tied_afterAll hp).target_live h, fun id hl => ?_, ?_, fun hno => ?_⟩
  · obtain ⟨t, hr, ht, -⟩ := (tied_afterAll hp).resolve hl
    exact ⟨t, hr, ht⟩
  · intro hflat done a hd
    have hd' : done <+: acts := (List.prefix_append done [a]).trans hd
    have ha : a.Plain := hp a (hd.subset (by simp))
    rw [← Act.flat_after_iff ha (hbefore hd') (hflat done hd').1, ← afterAll_append]
    exact (hflat _ hd).1
  · have hflat : ∀ done, done <+: acts → (afterAll done).Flat := by
      intro done hd
      induction done using List.reverseRecOn with
      | nil => exact (tied_iff.mp (@tied_empty True)).2 trivial
      | append_singleton done a ih =>
        have hd' : done <+: acts := (List.prefix_append done [a]).trans hd
        rw [afterAll_append, Act.flat_after_iff (hp a (hd.subset (by simp))) (hbefore hd') (ih hd')]
        exact hno done a hd
    exact fun done hd => ⟨hflat done hd, fun id t hr u => (hbefore hd).resolve_flat (hflat done hd) hr⟩

-- Two links, the second to the first, so to its target: nothing is covered.
theorem links_of_acts_flat :
    let acts : List Act := [.op (.alloc .null), .op (.alloc .null), .op (.alloc (.numeric 1)),
      .setLink ⟨1, 0⟩ ⟨2, 0⟩, .setLink ⟨0, 0⟩ ⟨1, 0⟩]
    (∀ a ∈ acts, a.Plain) ∧ (afterAll acts).resolve ⟨0, 0⟩ = .ok ⟨2, 0⟩ ∧ (afterAll acts).Flat := by
  intro acts
  have hp : ∀ a ∈ acts, a.Plain := by simp [acts, Act.Plain]
  have hno : ∀ done a, done ++ [a] <+: acts → ¬a.Covers (afterAll done) := by
    intro done a hd
    have ht : (afterAll done).Tied False :=
      tied_afterAll fun b hb => hp b (hd.subset (by simp [hb]))
    rcases done with _ | ⟨_, _ | ⟨_, _ | ⟨_, _ | ⟨_, _ | _⟩⟩⟩⟩ <;>
      simp only [acts, List.nil_append, List.cons_append, List.cons_prefix_cons] at hd
    · simp [hd, Act.Covers]
    · simp [hd, Act.Covers]
    · simp [hd, Act.Covers]
    · obtain ⟨rfl, rfl, rfl, rfl, -⟩ := hd
      exact Act.not_covers ht rfl
    · obtain ⟨rfl, rfl, rfl, rfl, rfl, -⟩ := hd
      exact Act.not_covers ht rfl
    · simpa using hd.2.2.2.2.2.length_le
  exact ⟨hp, rfl, ((links_of_acts hp).2.2.mpr hno acts (List.prefix_refl _)).1⟩

-- The same links in the other order: the second one is set at a variable that is
-- linked to, and what the first one leads to is a link.
theorem links_chain :
    let acts : List Act := [.op (.alloc .null), .op (.alloc .null), .op (.alloc (.numeric 1)),
      .setLink ⟨0, 0⟩ ⟨1, 0⟩, .setLink ⟨1, 0⟩ ⟨2, 0⟩]
    (∀ a ∈ acts, a.Plain) ∧ (afterAll acts).resolve ⟨0, 0⟩ = .ok ⟨1, 0⟩ ∧
      (afterAll acts).Points ⟨1, 0⟩ ⟨2, 0⟩ :=
  ⟨by simp [Act.Plain], rfl, _, rfl, rfl⟩

end Heap

end FinLang

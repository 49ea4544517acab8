import FinLang.Proofs.Heap.Links
import FinLang.Proofs.Turnover

namespace FinLang

namespace Heap

open Arena (Permissive Sheds Gains Turns)

variable {α β : Type} {id t : VarId} {p : Payload}

-- Heaps whose arenas are related.
abbrev Lift (R : Arena .variable Variable → Arena .variable Variable → Prop) (h h' : Heap) : Prop :=
  R h.arena h'.arena

abbrev Along (R : Arena .variable Variable → Arena .variable Variable → Prop) (x : HeapM α) : Prop :=
  FinLang.Along (Lift R) x

namespace Along

section

variable {R : Arena .variable Variable → Arena .variable Variable → Prop} (hR : Permissive R)

include hR

theorem pure (a : α) : Along R (Pure.pure a : HeapM α) :=
  FinLang.Along.pure (R := Lift R) (fun _ => hR.refl _) a

theorem fail (c : Cause) : Along R (Heap.fail c : HeapM α) :=
  FinLang.Along.throw (R := Lift R) (fun _ => hR.refl _) _

theorem get : Along R (MonadState.get : HeapM Heap) :=
  FinLang.Along.get (R := Lift R) fun _ => hR.refl _

theorem read (f : Heap → Except Failure α) : Along R (Heap.read f) := by
  intro h
  rcases hf : f h with e | a
  · exact (read_error hf).mpr (hR.refl _)
  · exact (read_ok hf).mpr (hR.refl _)

theorem bind {x : HeapM α} {k : α → HeapM β} (hx : Along R x) (hk : ∀ a, Along R (k a)) :
    Along R (x >>= k) :=
  FinLang.Along.bind (R := Lift R) hR.trans hx hk

theorem forM {f : β → HeapM Unit} (hf : ∀ b, Along R (f b)) (l : Array β) : Along R (l.forM f) := by
  have heq : l.forM f = l.toList.forM f := by
    simpa using List.forM_toArray l.toList f
  rw [heq]
  exact FinLang.Along.forM (R := Lift R) hR.trans (fun _ => hR.refl _) hf l.toList

theorem modifyVariable {f : Variable → Variable} :
    Along R (liftM (Heap.modifyVariable id f) : HeapM Unit) :=
  fun _ => modifyVariable_iff.mpr (hR.modify _ _ _)

theorem update {f : Variable → Variable} : Along R (Heap.update id f) := by
  refine bind hR (get hR) fun h => ?_
  split
  · exact modifyVariable hR
  · exact fail hR _

theorem setLeftValueWithin (flag : Bool) (n : Nat) (id : VarId) :
    Along R (Heap.setLeftValueWithin flag n id) := by
  induction n generalizing id with
  | zero => exact fail hR _
  | succ n ih => exact bind hR (update hR) fun _ => bind hR (read hR _) fun _ => forM hR ih _

theorem setLeftValue {flag : Bool} : Along R (Heap.setLeftValue id flag) :=
  bind hR (get hR) fun _ => setLeftValueWithin hR flag _ id

theorem setScalar : Along R (Heap.setScalar id p) := by
  unfold Heap.setScalar
  refine bind hR (read hR _) ?_
  rintro ⟨t, v⟩
  dsimp only
  split
  · exact bind hR (fail hR _) fun _ => update hR
  · exact update hR

private theorem give {tag : VarType} :
    Along R (match defaultPayload? tag with
      | some p => Heap.setPayload t p
      | none => Heap.fail .linkByType : HeapM Unit) := by
  split
  · exact update hR
  · exact fail hR _

theorem setType {tag : VarType} : Along R (Heap.setType id tag) := by
  unfold Heap.setType
  refine bind hR (read hR _) ?_
  rintro ⟨t, v⟩
  dsimp only
  split
  · exact pure hR _
  split
  · exact bind hR (fail hR _) fun _ => give hR
  · exact give hR

theorem unsetLink : Along R (Heap.unsetLink id) := by
  unfold Heap.unsetLink
  refine bind hR (read hR _) fun v => ?_
  split
  · exact bind hR (update hR) fun _ => modifyVariable hR
  · exact pure hR _

theorem setLink {target : VarId} : Along R (Heap.setLink id target) := by
  unfold Heap.setLink
  refine bind hR (read hR _) fun t => ?_
  have hset : Along R (do
      Heap.unsetLink id
      let found := (← Heap.read (·.lookup id)).payload.varType
      if found != .null then
        Heap.fail (.linkOver found)
      setPayload id (.link t)
      Heap.modifyVariable t fun v => { v with linkedBy := v.linkedBy ++ [id] } : HeapM Unit) := by
    refine bind hR (unsetLink hR) fun _ => bind hR (read hR _) fun v => ?_
    have hput : Along R (do
        setPayload id (.link t)
        Heap.modifyVariable t fun v => { v with linkedBy := v.linkedBy ++ [id] } : HeapM Unit) :=
      bind hR (update hR) fun _ => modifyVariable hR
    dsimp only
    split
    · exact bind hR (fail hR _) fun _ => hput
    · exact hput
  split
  · exact bind hR (fail hR _) fun _ => hset
  · exact hset

theorem pushElement {child : VarId} : Along R (Heap.pushElement id child) := by
  unfold Heap.pushElement
  refine bind hR (read hR _) fun t => bind hR (read hR _) ?_
  rintro ⟨reached, v⟩
  dsimp only
  split
  · exact bind hR (update hR) fun _ => bind hR (update hR) fun _ => setLeftValue hR
  · exact bind hR (update hR) fun _ => bind hR (update hR) fun _ => setLeftValue hR
  · exact fail hR _

end

-- Freeing.

theorem freeWithin (n : Nat) (id : VarId) : Along Sheds (Heap.freeWithin n id) := by
  have hR := @Arena.permissive_sheds .variable Variable
  induction n generalizing id with
  | zero => exact fail hR _
  | succ n ih =>
    refine bind hR (unsetLink hR) fun _ => bind hR (read hR _) fun v => bind hR (fun h => ?_)
      fun _ => bind hR (fun h => ?_) fun _ => forM hR ih _
    · exact FinLang.Along.forM (R := Lift Sheds) hR.trans (fun _ => hR.refl _)
        (fun _ => modifyVariable hR) _ h
    · exact Ensures.modify_iff.mpr Arena.sheds_erase

theorem free : Along Sheds (Heap.free id) :=
  bind Arena.permissive_sheds (get Arena.permissive_sheds) fun _ => freeWithin _ id

-- Freed or not there in the first place.
theorem free_gone (h : Heap) (id : VarId) :
    Ensures (Heap.free id) h (fun _ h' => h'.contains id = false) fun _ h' => h'.contains id = false := by
  have hR := @Arena.permissive_sheds .variable Variable
  have hstale {h : Heap} (hv : h.var? id = none) : h.contains id = false := by
    simp [Heap.contains, Arena.contains, hv]
  have hunset : Ensures (Heap.unsetLink id) h (fun _ _ => True) fun _ h' => h'.contains id = false := by
    rcases hv : h.var? id with _ | v
    · rw [Heap.unsetLink, Ensures.bind_iff]
      exact (read_error (f := fun h => h.lookup id) (lookup_stale (not_live_of_var? hv))).mpr (hstale hv)
    · by_cases hlink : ∃ t, v.payload = .link t
      · obtain ⟨t, hlink⟩ := hlink
        exact (unsetLink_iff_of_link hv hlink).mpr trivial
      · exact (unsetLink_iff_of_no_link hv fun t ht => hlink ⟨t, ht⟩).mpr trivial
  rw [Heap.free, Ensures.bind_iff, Ensures.get_iff, walkBudget, Heap.freeWithin, Ensures.bind_iff]
  refine hunset.mono (fun _ h₁ _ => ?_) fun _ _ he => he
  rw [Ensures.bind_iff]
  rcases hv : h₁.var? id with _ | v
  · exact (read_error (f := fun h => h.lookup id) (lookup_stale (not_live_of_var? hv))).mpr (hstale hv)
  refine (read_lookup_iff hv).mpr (Ensures.bind_iff.mpr ?_)
  refine (Ensures.forM (fun _ _ => True) (fun link _ _ _ => modifyVariable_iff.mpr trivial) v.linkedBy h₁
    trivial).mono (fun _ h₂ _ => Ensures.bind_iff.mpr (Ensures.modify_iff.mpr ?_)) fun _ _ he => he
  have hgone : (h₂.arena.erase id).contains id = false := by
    simp [Arena.contains, Arena.get?_erase_self]
  exact (forM hR (freeWithin _) v.payload.elements ⟨h₂.arena.erase id⟩).mono
    (fun _ _ hs => hs.contains hgone) fun _ _ hs => hs.contains hgone

theorem release : Along Sheds (Heap.release id) := by
  refine bind Arena.permissive_sheds (get Arena.permissive_sheds) fun h => ?_
  split
  · split
    · exact free
    · exact pure Arena.permissive_sheds _
  · exact pure Arena.permissive_sheds _

theorem clear : Along Sheds (Heap.clear id) := by
  have hR := @Arena.permissive_sheds .variable Variable
  refine bind hR (read hR _) ?_
  rintro ⟨t, v⟩
  exact bind hR (update hR) fun _ => bind hR (forM hR (fun _ => free) _) fun _ => pure hR _

-- Making.

theorem insert (v : Variable) : Along Gains (liftM (Heap.insert v) : HeapM VarId) :=
  fun _ => insert_iff.mpr (Arena.gains_insert v)

end Along

mutual

private theorem gains_build (owner : Owner) (flag : Bool) : (value : Value) → (h : Heap) →
    Gains h.arena ((build owner flag value).run h).2.arena
  | value, h => by
    have hins : Gains h.arena (h.added (.make .null owner flag)).arena := Arena.gains_insert _
    rw [build]
    exact (hins.trans (gains_buildPayload (h.fresh (.make .null owner flag)) flag value
      (h.added (.make .null owner flag)))).trans Arena.gains_modify

private theorem gains_buildPayload (parent : VarId) (flag : Bool) : (value : Value) → (h : Heap) →
    Gains h.arena ((buildPayload parent flag value).run h).2.arena
  | .null, _ | .numeric _, _ | .string _, _ | .image _, _ => by
    rw [buildPayload]
    exact .refl _
  | .array values, _ => by
    rw [buildPayload]
    exact gains_buildItems (.array parent) flag values #[] _

private theorem gains_buildItems (owner : Owner) (flag : Bool) : (values : List Value) →
    (built : Array VarId) → (h : Heap) →
      Gains h.arena ((buildItems owner flag values built).run h).2.arena
  | [], _, _ => by
    rw [buildItems]
    exact .refl _
  | value :: rest, _, _ => by
    rw [buildItems]
    exact (gains_build owner flag value _).trans (gains_buildItems owner flag rest _ _)

end

-- An allocation fills a slot first, and frees none.
abbrev Allots (op : HeapM VarId) : Prop :=
  ∀ h, Ensures op h (fun x h' => ∃ v, x = h.fresh v ∧ Gains (h.added v).arena h'.arena)
    fun _ h' => Gains h.arena h'.arena

theorem Allots.along {op : HeapM VarId} (hop : Allots op) : Along Gains op :=
  fun h => (hop h).mono (fun _ _ ⟨v, _, hg⟩ => (Arena.gains_insert v).trans hg) fun _ _ hg => hg

theorem alloc_allots (p : Payload) : Allots (liftM (alloc p)) := by
  intro h
  rw [alloc_elements_iff]
  have hchildren := FinLang.Along.forM (R := Lift Gains) .trans (fun _ => .refl _)
    (fun child => show Along Gains (liftM (Heap.modifyVariable child fun v =>
        { v with owner := .array (h.fresh (.temporary p)) }) : HeapM Unit)
      from Along.modifyVariable Arena.permissive_gains) p.elements.toList
  exact (hchildren (h.added (.temporary p))).mono (fun _ _ hg => ⟨_, rfl, hg⟩)
    fun _ _ => (Arena.gains_insert _).trans

theorem allocValue_allots (value : Value) : Allots (liftM (allocValue value)) := by
  intro h
  rw [allocValue, build]
  refine Ensures.lift_iff.mpr ⟨.make .null .detached false, rfl, ?_⟩
  exact (gains_buildPayload _ false value _).trans Arena.gains_modify

theorem allocLink_allots (target : VarId) : Allots (allocLink target) := by
  intro h
  rw [allocLink, Ensures.bind_iff]
  refine (alloc_iff (p := .null) rfl).mpr ?_
  have hset : Along Gains (Heap.setLink (h.fresh (.temporary .null)) target) :=
    Along.setLink Arena.permissive_gains
  rw [Ensures.bind_iff]
  exact (hset (h.added (.temporary .null))).mono (fun _ _ hg => ⟨_, rfl, hg⟩) fun _ _ => (Arena.gains_insert _).trans

theorem duplicate_allots (source : VarId) : Allots (duplicate source) := by
  intro h
  rw [duplicate, Ensures.bind_iff]
  rcases hv : h.toValue source with e | value
  · exact (read_error (f := fun h => h.toValue source) hv).mpr (.refl _)
  · exact (read_ok (f := fun h => h.toValue source) hv).mpr (allocValue_allots value h)

namespace Along

theorem growth (array : VarId) (flag : Bool) (n : Nat) (items : Array VarId) :
    Along Gains (liftM (Heap.growth array flag n items) : HeapM (Array VarId)) := by
  intro h
  rw [Ensures.lift_iff]
  induction n generalizing h items with
  | zero => exact .refl _
  | succ n ih =>
    exact (Arena.gains_insert (.make .null (.array array) flag)).trans
      (ih _ (h.added (.make .null (.array array) flag)))

private theorem found_along {i : Nat} : Along Gains (do
    match (← Heap.read (·.lookup t)).payload.elements[i]? with
    | some element => return element
    | none => Heap.fail .arrayVanished : HeapM VarId) := by
  have hR := @Arena.permissive_gains .variable Variable
  refine bind hR (read hR _) fun w => ?_
  split
  · exact pure hR _
  · exact fail hR _

theorem element {i : Nat} : Along Gains (Heap.element id i) := by
  have hR := @Arena.permissive_gains .variable Variable
  unfold Heap.element
  refine bind hR (read hR _) fun t => bind hR (read hR _) fun v => bind hR (read hR _) fun n => ?_
  split
  · split
    · exact bind hR (fail hR _) fun _ => bind hR (growth t v.leftValue _ _) fun _ =>
        bind hR (update hR) fun _ => found_along
    · exact bind hR (growth t v.leftValue _ _) fun _ => bind hR (update hR) fun _ => found_along
  · exact found_along

theorem detachElement {i : Nat} : Along Gains (Heap.detachElement id i) := by
  have hR := @Arena.permissive_gains .variable Variable
  unfold Heap.detachElement
  refine bind hR (read hR _) fun t => bind hR (read hR _) fun v => ?_
  split
  · exact fail hR _
  · exact bind hR (insert _) fun _ => bind hR (update hR) fun _ => bind hR (update hR) fun _ =>
      bind hR (setLeftValue hR) fun _ => pure hR _

-- Old elements are freed before new ones are made.
theorem writeValue {value : Value} : Along Turns (Heap.writeValue id value) := by
  refine FinLang.Along.comp (R := Lift Sheds) (S := Lift Gains) (fun _ => .refl _) clear ?_ |>.mono
    fun ⟨m, hs, hg⟩ => ⟨m.arena, hs, hg⟩
  rintro ⟨t, flag⟩
  refine bind Arena.permissive_gains (fun h => ?_) fun _ => update Arena.permissive_gains
  exact Ensures.lift_iff.mpr (gains_buildPayload t flag value h)

-- A computation that reads and then goes on.
theorem read_bind {f : Heap → Except Failure α} {k : α → HeapM β} (hk : ∀ a, Along Turns (k a)) :
    Along Turns (Heap.read f >>= k) := by
  intro h
  rcases hf : f h with e | a
  · rw [Ensures.bind_iff, read_error hf]
    exact .refl _
  · rw [Ensures.bind_iff, read_ok hf]
    exact hk a h

theorem copy {source : VarId} : Along Turns (Heap.copy id source) := by
  refine read_bind fun t => read_bind fun s => ?_
  split
  · exact (pure Arena.permissive_sheds ()).mono Sheds.turns
  · exact read_bind fun _ => read_bind fun _ => writeValue

theorem moveOrCopy {source : VarId} : Along Turns (Heap.moveOrCopy id source) := by
  have hR := @Arena.permissive_sheds .variable Variable
  refine read_bind fun given => read_bind fun v => ?_
  split
  · exact copy
  refine read_bind fun t => ?_
  split
  · exact copy
  -- Nothing is allocated where the array is moved.
  refine read_bind fun _ => FinLang.Along.mono (R := Lift Sheds) ?_ Sheds.turns
  refine bind hR clear ?_
  rintro ⟨target, flag⟩
  exact bind hR (read hR _) fun w => bind hR (update hR) fun _ =>
    bind hR (forM hR (fun _ => bind hR (update hR) fun _ => setLeftValue hR) _) fun _ => update hR

end Along

-- Whatever the operation and whatever it is given, also where it fails.
theorem Act.turning (a : Act) : Along Turns a.run := by
  have hR := @Arena.permissive_sheds .variable Variable
  cases a with
  | setLink link target => exact (Along.setLink hR).mono Sheds.turns
  | op o =>
    cases o with
    | alloc p => exact ((alloc_allots p).along.mono Gains.turns).map
    | allocValue value => exact ((allocValue_allots value).along.mono Gains.turns).map
    | allocLink target => exact ((allocLink_allots target).along.mono Gains.turns).map
    | setOwner id owner => exact (Along.update hR).mono Sheds.turns
    | setWriteProtected id flag => exact (Along.update hR).mono Sheds.turns
    | setLeftValue id flag => exact (Along.setLeftValue hR).mono Sheds.turns
    | setType id tag => exact (Along.setType hR).mono Sheds.turns
    | setNumeric id n => exact (Along.setScalar hR).mono Sheds.turns
    | setString id s => exact (Along.setScalar hR).mono Sheds.turns
    | setImage id i => exact (Along.setScalar hR).mono Sheds.turns
    | element id index => exact (Along.mono Along.element Gains.turns).map
    | pushElement array child => exact (Along.pushElement hR).mono Sheds.turns
    | detachElement array index => exact (Along.mono Along.detachElement Gains.turns).map
    | unsetLink link => exact (Along.unsetLink hR).mono Sheds.turns
    | release id => exact .mono Along.release Sheds.turns
    | free id => exact .mono Along.free Sheds.turns
    | copy target source => exact Along.copy
    | moveOrCopy target source => exact Along.moveOrCopy
    | duplicate source => exact ((duplicate_allots source).along.mono Gains.turns).map

end Heap

end FinLang

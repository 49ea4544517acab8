import FinLang.Proofs.Heap.Contents
import FinLang.Proofs.Heap.Links
import FinLang.Proofs.Heap.Reclaim

namespace FinLang

namespace Heap

-- An operation that leaves the heap as it was where it fails.
def Atomic {α : Type} (x : HeapM α) (h : Heap) : Prop :=
  Ensures x h (fun _ _ => True) fun _ h' => h' = h

variable {α β : Type} {h h' : Heap} {loose : List VarId} {strict : Prop} {id c t : VarId}
  {v w : Variable} {n m i : Nat} {flag : Bool} {x : HeapM α} {Q : α → Heap → Prop} {e : Failure}
  {E : Failure → Heap → Prop}

namespace Atomic

theorem of_refused (hx : Ensures x h Q (Refused h)) : Atomic x h :=
  hx.mono (fun _ _ _ => trivial) fun _ _ he => he.1

-- What cannot fail.
theorem of_total (hx : Ensures x h Q fun _ _ => False) : Atomic x h :=
  hx.mono (fun _ _ _ => trivial) fun _ _ => False.elim

theorem fail {c : Cause} : Atomic (Heap.fail c : HeapM α) h :=
  fail_iff.mpr rfl

theorem pure {a : α} : Atomic (Pure.pure a : HeapM α) h :=
  trivial

theorem lift {m : StateM Heap α} : Atomic (liftM m : HeapM α) h :=
  Ensures.lift_iff.mpr trivial

theorem discard (hx : Atomic x h) : Atomic (discard x) h :=
  Ensures.map_iff.mpr hx

-- Checks come first.
theorem read {f : Heap → Except Failure β} {k : β → HeapM α} (hk : ∀ b, f h = .ok b → Atomic (k b) h) :
    Atomic (Heap.read f >>= k) h := by
  rw [Atomic, Ensures.bind_iff]
  rcases hf : f h with e | b
  · exact (read_error hf).mpr rfl
  · exact (read_ok hf).mpr (hk b hf)

theorem update {f : Variable → Variable} : Atomic (Heap.update id f) h := by
  by_cases hl : h.Live id
  · obtain ⟨v, hv⟩ := hl
    exact (update_iff hv).mpr trivial
  · exact (update_stale hl).mpr rfl

-- A handle in use comes first.
theorem resolve (hs : h.Sound loose strict) {k : VarId → HeapM α}
    (hk : ∀ t w, h.Stands id t w → Atomic (Heap.read (·.resolve id) >>= k) h) :
    Atomic (Heap.read (·.resolve id) >>= k) h := by
  by_cases hl : h.Live id
  · obtain ⟨t, w, hst⟩ := hs.stands hl
    exact hk t w hst
  · rw [Atomic, Ensures.bind_iff]
    exact (read_resolve_stale hl).mpr rfl

end Atomic

theorem Within.mono (hw : h.Within n id) (hnm : n ≤ m) : h.Within m id := by
  induction n generalizing id m with
  | zero => exact hw.elim
  | succ n ih =>
    obtain ⟨m, rfl⟩ := Nat.exists_eq_add_of_le' (Nat.one_le_of_lt hnm)
    obtain ⟨v, hv, hel⟩ := hw
    exact ⟨v, hv, fun c hc => ih (hel c hc) (by omega)⟩

theorem Within.preserve (hw : h.Within n id) (hp : Preserved h h' id) : h'.Within n id := by
  induction n generalizing id with
  | zero => exact hw.elim
  | succ n ih =>
    obtain ⟨v, hv, hel⟩ := hw
    obtain ⟨w, hw, hpay⟩ := hp id v .refl hv
    exact ⟨w, hw, fun c hc => ih (hel c (hpay ▸ hc)) (hp.element ⟨v, hv, hpay ▸ hc⟩)⟩

-- A tree that is still whole can be marked.
theorem Preserved.setLeftValue (hp : Preserved h h' id) (hs : h.Forest loose) (hl : h.Live id)
    (ha : h'.arena.Sound) (hsize : h.arena.slots.size ≤ h'.arena.slots.size) :
    Ensures (setLeftValue id flag) h' (fun _ _ => True) E := by
  have hw : h'.Within h'.walkBudget id :=
    ((hs.within hl).preserve hp).mono (Nat.succ_le_succ hsize)
  exact (setLeftValue_ensures ha hw).mono (fun _ _ _ => trivial) fun _ _ he => he

-- Where all elements are in use the walk fails for one reason only: it goes round in circles.
theorem setLeftValueWithin_cycles (n : Nat) (hl : ∀ p c, h.Lists p c → h.Live c) (hid : h.Live id) :
    Ensures (setLeftValueWithin flag n id) h (fun _ h' => SameContents h h')
      (fun e _ => e = .of .ownershipCycle) := by
  induction n generalizing h id with
  | zero => exact fail_iff.mpr rfl
  | succ n ih =>
    obtain ⟨v, hv⟩ := hid
    have hmark : SameContents h (h.change id fun v => { v with leftValue := flag }) :=
      .of_maps (maps_change _) fun x v => by by_cases hx : x = id <;> simp [hx]
    rw [setLeftValueWithin, Ensures.bind_iff, update_iff hv, Ensures.bind_iff,
      read_lookup_iff ((maps_change _).some hv), if_pos rfl]
    refine Ensures.forM_array (fun rest h' => SameContents h h' ∧ ∀ c ∈ rest, c ∈ v.payload.elements)
      ?_ _ _ ⟨hmark, fun c hc => Array.mem_toList_iff.mp hc⟩ |>.mono (fun _ _ hi => hi.1)
      fun _ _ he => he
    rintro c rest h₁ ⟨hsame, hrest⟩
    have hc : h.Lists id c := ⟨v, hv, hrest c (List.mem_cons_self ..)⟩
    have hl₁ : ∀ p c, h₁.Lists p c → h₁.Live c := fun p c hpc =>
      hsame.live.mpr (hl p c (hsame.lists.mp hpc))
    refine (ih hl₁ (hsame.live.mpr (hl id c hc))).mono ?_ fun _ _ he => he
    exact fun _ h₂ hsame₂ => ⟨hsame.trans hsame₂, fun d hd => hrest d (List.mem_cons_of_mem _ hd)⟩

namespace Atomic

theorem setType {tag : VarType} : Atomic (setType id tag) h := by
  refine read fun _ _ => ?_
  simp only
  split
  · exact pure
  split
  · exact fail
  split
  · exact update
  · exact fail

theorem setScalar {p : Payload} : Atomic (setScalar id p) h := by
  refine read fun _ _ => ?_
  simp only
  split
  · exact fail
  · exact update

theorem unsetLink : Atomic (unsetLink id) h := by
  by_cases hl : h.Live id
  · obtain ⟨v, hv⟩ := hl
    by_cases hlink : ∃ t, v.payload = .link t
    · obtain ⟨t, hlink⟩ := hlink
      exact (unsetLink_iff_of_link hv hlink).mpr trivial
    · exact (unsetLink_iff_of_no_link hv fun t ht => hlink ⟨t, ht⟩).mpr trivial
  · rw [Atomic, Heap.unsetLink, Ensures.bind_iff]
    exact (read_error (f := fun h => h.lookup id) (lookup_stale hl)).mpr rfl

-- A link that has been dropped may be set anew, and what was none is left as it was by the drop.
theorem setLink {link target : VarId} (hs : h.Sound loose strict) : Atomic (setLink link target) h := by
  refine read fun t ht => ?_
  split
  · exact fail
  by_cases hl : h.Live link
  swap
  · rw [Atomic, Ensures.bind_iff, Heap.unsetLink, Ensures.bind_iff]
    exact (read_error (f := fun h => h.lookup link) (lookup_stale hl)).mpr rfl
  obtain ⟨v, hv⟩ := hl
  rw [Atomic, Ensures.bind_iff]
  by_cases hlink : ∃ u, v.payload = .link u
  · obtain ⟨u, hlink⟩ := hlink
    refine (unsetLink_iff_of_link hv hlink).mpr ?_
    have hne : link ≠ u := by
      rintro rfl
      obtain ⟨w, hw, -, hno⟩ := hs.linked.link hv hlink
      cases hv.symm.trans hw
      exact hno _ hlink
    have hv' := (maps_unlinking (h := h) hne).some hv
    rw [Ensures.bind_iff, read_lookup_iff hv']
    have hnull : (unlinking link u link v).payload.varType = .null := by simp [unlinking, hne, Payload.varType]
    simp only [hnull]
    rw [if_neg (by simp), Ensures.bind_iff, setPayload, update_iff hv', modifyVariable_iff]
    trivial
  · refine (unsetLink_iff_of_no_link hv fun t ht => hlink ⟨t, ht⟩).mpr ?_
    refine read fun w hw => ?_
    simp only
    split
    · exact fail
    · rw [Atomic, Ensures.bind_iff, setPayload, update_iff hv, modifyVariable_iff]
      trivial

section

variable (hs : h.Sound [] False)

include hs

theorem setLeftValue : Atomic (setLeftValue id flag) h := by
  by_cases hl : h.Live id
  · exact of_total ((setLeftValue_ensures hs.forest.arena (hs.forest.within hl)).mono
      (fun _ _ hq => hq) fun _ _ he => he)
  · rw [Atomic, Heap.setLeftValue, Ensures.bind_iff, Ensures.get_iff, walkBudget, setLeftValueWithin,
      Ensures.bind_iff, update_stale hl]

theorem element : Atomic (element id i) h :=
  resolve hs fun _ _ hst => of_refused (element_ensures hs closed_nothing hst not_false)

theorem free : Atomic (free id) h := by
  by_cases hl : h.Live id
  · exact of_total (free_takes hs.forest hs.linked hl)
  · rw [Atomic, Heap.free, Ensures.bind_iff, Ensures.get_iff, walkBudget, freeWithin, Ensures.bind_iff,
      Heap.unsetLink, Ensures.bind_iff]
    exact (read_error (f := fun h => h.lookup id) (lookup_stale hl)).mpr rfl

theorem release : Atomic (release id) h := by
  rw [Atomic, Heap.release, Ensures.bind_iff, Ensures.get_iff]
  split
  · split
    · exact free hs
    · trivial
  · trivial

theorem copy {source : VarId} : Atomic (copy id source) h := by
  refine resolve hs fun t w hst => ?_
  by_cases hl : h.Live source
  · obtain ⟨g, u, hst'⟩ := hs.stands hl
    exact of_refused (copy_ensures hs closed_nothing False.elim hst hst')
  · rw [Atomic, Ensures.bind_iff, read_resolve_iff hst, Ensures.bind_iff]
    exact (read_resolve_stale hl).mpr rfl

-- Whatever its flag, an element can be taken out.
theorem detachElement : Atomic (detachElement id i) h := by
  refine resolve hs fun t w hst => ?_
  rw [Atomic, Ensures.bind_iff, read_resolve_iff hst, Ensures.bind_iff, read_lookup_iff hst.var]
  rcases hi : w.payload.elements[i]? with _ | c
  · exact fail
  have hlist : h.Lists t c := ⟨w, hst.var, Array.mem_of_getElem? hi⟩
  obtain ⟨u, hu, -⟩ := hs.forest.element hlist
  have hct : c ≠ t := fun he => hs.forest.not_below_of_lists hlist (he ▸ .refl)
  refine Ensures.bind_iff.mpr (insert_iff.mpr ?_)
  generalize hsub : Variable.make .null (.array t) false = sub
  have hold : ∀ {x v}, h.var? x = some v → (h.added sub).var? x = some v := by
    intro x v hv
    rw [hs.forest.var?_added, if_neg, hv]
    rintro rfl
    cases (hs.forest.var?_fresh sub).symm.trans hv
  have hu₂ : ∀ f, ((h.added sub).change t f).var? c = some u := fun f => by
    rw [var?_change, if_neg hct, hold hu]
  rw [Ensures.bind_iff, update_iff (hold hst.var), Ensures.bind_iff, setOwner, update_iff (hu₂ _),
    Ensures.bind_iff]
  -- Neither the array nor the substitute lies in the element.
  refine Preserved.setLeftValue (h := h) (fun x v hb hv => ?_) hs.forest ⟨u, hu⟩ ?_ ?_
  · have hxt : x ≠ t := by
      rintro rfl
      exact hs.forest.not_below_of_lists hlist hb
    refine ⟨_, (maps_change _).some (by rw [var?_change, if_neg hxt, hold hv]), ?_⟩
    split <;> rfl
  · exact Arena.sound_modify (Arena.sound_modify (Arena.sound_insert hs.forest.arena _) _ _) _ _
  · rw [Arena.size_modify, Arena.size_modify]
    exact Arena.size_le_size_insert _

end

theorem duplicate : Atomic (duplicate id) h :=
  read fun _ _ => lift

end Atomic

-- What an operation that fails leaves behind nonetheless.
inductive Spoiled (h : Heap) : Act → Failure → Heap → Prop
  -- The new variable stays where there is nothing to link to.
  | linking {target : VarId} {e : Failure} : ¬h.Live target →
      Spoiled h (.op (.allocLink target)) e (h.added (.temporary .null))
  -- The array lists what is no variable.
  | appending {array child t : VarId} : h.resolve array = .ok t → ¬h.Live child →
      Spoiled h (.op (.pushElement array child)) (.of (.staleVariable child))
        (h.change t fun v => { v with payload := appendItems #[child] v.payload })
  -- An array that is appended to something in it goes round in circles.
  | nesting {array child t : VarId} {h' : Heap} : h.resolve array = .ok t → h.Below child t →
      Spoiled h (.op (.pushElement array child)) (.of .ownershipCycle) h'

section

variable (hs : h.Sound [] False)

include hs

theorem allocLink_spoils {target : VarId} :
    Ensures (allocLink target) h (fun _ _ => True)
      (fun e h' => Spoiled h (.op (.allocLink target)) e h') := by
  by_cases hl : h.Live target
  · obtain ⟨t, w, hst⟩ := hs.stands hl
    exact (allocLink_ensures hs closed_nothing hst not_false).mono (fun _ _ _ => trivial)
      fun _ _ he => he
  have hspoiled : ∀ e, Spoiled h (.op (.allocLink target)) e (h.added (.temporary .null)) := fun _ =>
    .linking hl
  have hvar := hs.forest.var?_added (.temporary .null) target
  rw [allocLink, Ensures.bind_iff]
  refine (alloc_iff (p := .null) rfl).mpr ?_
  rw [Ensures.bind_iff, setLink, Ensures.bind_iff]
  -- A stale handle may come to life as that of the link itself.
  by_cases he : target = h.fresh (.temporary .null)
  · rw [if_pos he] at hvar
    refine (read_ok (f := fun h => h.resolve target) (resolve_eq_self hvar fun _ hl => by cases hl)).mpr ?_
    rw [if_pos he, Ensures.bind_iff]
    exact fail_iff.mpr (hspoiled _)
  · rw [if_neg he] at hvar
    have hstale : ¬(h.added (.temporary .null)).Live target := by
      rintro ⟨v, hv⟩
      exact hl ⟨v, hvar ▸ hv⟩
    rw [read_resolve_stale hstale]
    exact hspoiled _

theorem append_spoils (hw : h.var? t = some w) (flag : Bool) :
    Ensures (do
      update t fun v => { v with payload := appendItems #[c] v.payload }
      setOwner c (.array t)
      setLeftValue c flag) h (fun _ _ => True)
      (fun e h' => ¬h.Live c ∧ e = .of (.staleVariable c) ∧
          h' = (h.change t fun v => { v with payload := appendItems #[c] v.payload }) ∨
        h.Below c t ∧ e = .of .ownershipCycle) := by
  rw [Ensures.bind_iff, update_iff hw, Ensures.bind_iff]
  by_cases hl : h.Live c
  swap
  · exact (update_stale (mt (maps_change _).live.mp hl)).mpr (.inl ⟨hl, rfl, rfl⟩)
  obtain ⟨u, hu⟩ := hl
  rw [setOwner, update_iff ((maps_change _).some hu)]
  by_cases hb : h.Below c t
  · rw [setLeftValue, Ensures.bind_iff, Ensures.get_iff]
    refine (setLeftValueWithin_cycles _ (fun p d hpd => ?_) ?_).mono (fun _ _ _ => trivial)
      fun _ _ he => .inr ⟨hb, he⟩
    · obtain ⟨_, hv₂, hin⟩ := hpd
      obtain ⟨_, hv₁, rfl⟩ := (maps_change _).of_some hv₂
      obtain ⟨v, hv, rfl⟩ := (maps_change _).of_some hv₁
      have hd : d ∈ v.payload.elements ∨ d = c := by
        have hin : d ∈ (if p = t then { v with payload := appendItems #[c] v.payload }
            else v : Variable).payload.elements := by
          split at hin <;> exact hin
        split at hin
        · simpa [elements_appendItems] using hin
        · exact .inl hin
      refine (maps_change _).live.mpr ((maps_change _).live.mpr ?_)
      rcases hd with hd | rfl
      · obtain ⟨y, hy, -⟩ := hs.forest.element ⟨v, hv, hd⟩
        exact ⟨y, hy⟩
      · exact ⟨u, hu⟩
    · exact (maps_change _).live.mpr ((maps_change _).live.mpr ⟨u, hu⟩)
  · refine Preserved.setLeftValue (h := h) (fun x v hx hv => ?_) hs.forest ⟨u, hu⟩ ?_ ?_
    · have hxt : x ≠ t := by
        rintro rfl
        exact hb hx
      refine ⟨_, (maps_change _).some (by rw [var?_change, if_neg hxt, hv]), ?_⟩
      split <;> rfl
    · exact Arena.sound_modify (Arena.sound_modify hs.forest.arena _ _) _ _
    · exact Nat.le_of_eq ((Arena.size_modify ..).trans (Arena.size_modify ..)).symm

theorem pushElement_spoils {array : VarId} :
    Ensures (pushElement array c) h (fun _ _ => True)
      (fun e h' => h' = h ∨ Spoiled h (.op (.pushElement array c)) e h') := by
  by_cases hl : h.Live array
  swap
  · rw [pushElement, Ensures.bind_iff]
    exact (read_resolve_stale hl).mpr (.inl rfl)
  obtain ⟨t, w, hst⟩ := hs.stands hl
  have hself : h.Stands t t w := .self hst.var hst.no_link
  have happend := (append_spoils (c := c) hs hst.var w.leftValue).mono
    (Q := fun _ _ => True) (E := fun e h' => h' = h ∨ Spoiled h (.op (.pushElement array c)) e h')
    (fun _ _ _ => trivial) (by
      rintro e h' (⟨hc, rfl, rfl⟩ | ⟨hb, rfl⟩)
      · exact .inr (.appending hst.resolve hc)
      · exact .inr (.nesting hst.resolve hb))
  rw [pushElement, Ensures.bind_iff, read_resolve_iff hst, Ensures.bind_iff]
  refine (read_writable (Q := fun x h' => h' = h ∧ x = (t, w)) hself fun _ => ⟨rfl, rfl⟩).mono ?_
    fun _ _ he => .inl he.1
  rintro _ _ ⟨rfl, rfl⟩
  simp only
  split
  · exact happend
  · exact happend
  · exact fail_iff.mpr (.inl rfl)

end

-- An operation that fails has changed nothing, but for these cases. The hand-over is asked for
-- with left-values only.
theorem Act.unchanged_or_spoiled (hs : h.Sound [] False) {a : Act}
    (hmove : ∀ target source, a ≠ .op (.moveOrCopy target source))
    (hrun : a.run.run.run h = (.error e, h')) : h' = h ∨ Spoiled h a e h' := by
  have hunchanged : Atomic a.run h → h' = h ∨ Spoiled h a e h' := fun hx => .inl (hx.of_error hrun)
  cases a with
  | setLink link target => exact hunchanged (.setLink hs)
  | op o =>
    cases o with
    | alloc p => exact hunchanged (Atomic.discard .lift)
    | allocValue value => exact hunchanged (Atomic.discard .lift)
    | allocLink target => exact .inr ((Ensures.map_iff (Q := fun _ _ => True).mpr (allocLink_spoils hs)).of_error hrun)
    | setOwner id owner => exact hunchanged .update
    | setWriteProtected id flag => exact hunchanged .update
    | setLeftValue id flag => exact hunchanged (.setLeftValue hs)
    | setType id tag => exact hunchanged .setType
    | setNumeric id n => exact hunchanged .setScalar
    | setString id s => exact hunchanged .setScalar
    | setImage id i => exact hunchanged .setScalar
    | element id index => exact hunchanged (Atomic.element hs).discard
    | pushElement array child => exact (pushElement_spoils hs).of_error hrun
    | detachElement array index => exact hunchanged (Atomic.detachElement hs).discard
    | unsetLink link => exact hunchanged .unsetLink
    | release id => exact hunchanged (.release hs)
    | free id => exact hunchanged (.free hs)
    | copy target source => exact hunchanged (.copy hs)
    | moveOrCopy target source => exact absurd rfl (hmove target source)
    | duplicate source => exact hunchanged (Atomic.discard .duplicate)

-- An array is no link, and is left an array.
theorem Act.unchanged_or_spoiled_setLink :
    let h := [Op.alloc (.array #[]), .alloc .null].foldl (fun h op => op.after h) Heap.empty
    h.Sound [] False ∧ (∀ target source, Act.setLink ⟨0, 0⟩ ⟨1, 0⟩ ≠ .op (.moveOrCopy target source)) ∧
      (Act.setLink ⟨0, 0⟩ ⟨1, 0⟩).run.run.run h = (.error (.of (.linkOver .array)), h) := by
  intro h
  have harises : Arises h := .step _ (.step _ .empty ⟨nofun, by decide, nofun⟩) ⟨nofun, by decide, nofun⟩
  have hrun : (Act.setLink ⟨0, 0⟩ ⟨1, 0⟩).run.run.run h = (.error (.of (.linkOver .array)), _) := rfl
  have hmove : ∀ target source, Act.setLink ⟨0, 0⟩ ⟨1, 0⟩ ≠ .op (.moveOrCopy target source) := nofun
  refine ⟨harises.sound, hmove, ?_⟩
  rcases Act.unchanged_or_spoiled harises.sound hmove hrun with hsame | hspoiled
  · exact hrun.trans (by rw [hsame])
  · cases hspoiled

-- A link to what has gone leaves a variable behind, and to append what has gone makes an array
-- longer. Both fail.
theorem act_spoils :
    let h := [Op.alloc .null, .free ⟨0, 0⟩].foldl (fun h op => op.after h) Heap.empty
    let k := (Op.alloc (.array #[])).after h
    (h.Sound [] False ∧ h.liveCount = 0 ∧ ∃ h',
      (Act.op (.allocLink ⟨0, 0⟩)).run.run.run h = (.error (.of (.staleVariable ⟨0, 0⟩)), h') ∧
        h'.liveCount = 1) ∧
      k.Sound [] False ∧ k.arrayLength ⟨0, 1⟩ = .ok 0 ∧ ∃ k',
        (Act.op (.pushElement ⟨0, 1⟩ ⟨0, 0⟩)).run.run.run k = (.error (.of (.staleVariable ⟨0, 0⟩)), k') ∧
          k'.arrayLength ⟨0, 1⟩ = .ok 1 := by
  intro h k
  have h₁ : Arises (Op.after (.alloc .null) .empty) := .step _ .empty ⟨nofun, by decide, nofun⟩
  have h₂ : Arises h := h₁.step (.free ⟨0, 0⟩) fun p => h₁.not_lists (by decide)
  have h₃ : Arises k := h₂.step (.alloc (.array #[])) ⟨nofun, by decide, nofun⟩
  exact ⟨⟨h₂.sound, rfl, _, rfl, rfl⟩, h₃.sound, rfl, _, rfl, rfl⟩

end Heap

end FinLang

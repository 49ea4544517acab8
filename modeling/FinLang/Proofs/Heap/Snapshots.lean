import FinLang.Proofs.Heap.Confined

namespace FinLang

namespace Heap

-- A value has been stored in a tree of its own, a temporary of as many variables as the value has.
-- Nothing else has changed.
structure Stowed (h : Heap) (value : Value) (id : VarId) (h' : Heap) : Prop where
  sound : h'.Sound [] False
  record : ∃ v, h'.var? id = some v ∧ v.owner = .detached ∧ v.leftValue = false ∧
    v.writeProtected = false ∧ ∀ t, v.payload ≠ .link t
  reads : h'.toValue id = .ok value
  live : h'.liveCount = h.liveCount + value.nodes
  same : Extends h h'
  tree : ∀ x, h'.Below id x ↔ h.var? x = none ∧ h'.Live x

-- A variable has got the value of another one. Outside of it, links to what has gone are all that
-- has changed.
structure Copied (h : Heap) (target source : VarId) (h' : Heap) : Prop where
  sound : h'.Sound [] False
  reads : ∃ value, h.toValue source = .ok value ∧ h'.toValue target = .ok value
  written : ∃ t, h.resolve target = .ok t ∧ Stays h h' t ∧ Confined (h.Below t) h h'

variable {h h' : Heap} {id source target : VarId} {value : Value} {E : Failure → Heap → Prop}

theorem allocValue_stows (hs : h.Sound [] False) (value : Value) :
    Stowed h value ((allocValue value).run h).1 ((allocValue value).run h).2 := by
  have hbuilt := build_built (buildPayload_built false value) (.refl (o := .detached) hs)
  have hholds := build_holds false value .detached hs
  have hlive := build_live false value .detached hs
  unfold allocValue
  generalize (build .detached false value).run h = r at hbuilt hholds hlive
  have ht := hbuilt.temporary (K := fun _ => False) nofun
  have hs' := ht.step.sound
  obtain ⟨v, hv, ho, hleft, hp, -, hno⟩ := ht.record
  refine ⟨hs', ⟨v, hv, ho, hleft, hp, hno⟩, hs'.toValue_of_holds hholds, hlive, ht.extends_,
    fun x => ⟨fun hb => ?_, ?_⟩⟩
  · refine ⟨?_, hb.live hs'.forest ⟨v, hv⟩⟩
    rcases hx : h.var? x with _ | v
    · rfl
    · exact absurd hb (hbuilt.not_below (by simp) ⟨v, hx⟩)
  · rintro ⟨hx, hl⟩
    obtain ⟨c, hc, hb⟩ := hbuilt.exists_below hx hl
    simp only [List.nil_append, List.mem_singleton] at hc
    exact hc ▸ hb

theorem duplicate_stows (hs : h.Sound [] False) (hvalue : h.toValue source = .ok value) :
    Ensures (duplicate source) h (fun id h' => Stowed h value id h') E := by
  rw [duplicate, Ensures.bind_iff, read_ok (f := fun h => h.toValue source) hvalue]
  exact Ensures.lift_iff.mpr (allocValue_stows hs value)

-- It shares no variable with what was there before.
theorem Stowed.apart {top x : VarId} (hst : Stowed h value id h') (hs : h.Sound [] False)
    (htop : h.Live top) (hx : h'.Below id x) : ¬h'.Below top x := by
  intro hb
  have hold : h.Live x := by
    clear hx
    induction hb with
    | refl => exact htop
    | step _ hl ih =>
      obtain ⟨v, hv⟩ := ih
      obtain ⟨w, hw, hin⟩ := hl
      cases (hst.same _ v hv).symm.trans hw
      obtain ⟨u, hu, -⟩ := hs.forest.element ⟨v, hv, hin⟩
      exact ⟨u, hu⟩
  obtain ⟨v, hv⟩ := hold
  cases ((hst.tree x).mp hx).1.symm.trans hv

-- With the tree all that has come with it goes.
theorem Stowed.free (hst : Stowed h value id h') (hs : h.Sound [] False) :
    Ensures (free id) h' (fun _ h'' => h''.liveCount = h.liveCount ∧ ∀ x, h''.var? x = h.var? x) E := by
  have hs' := hst.sound
  obtain ⟨v, hv, ho, -, -, hno⟩ := hst.record
  have hroot := hs'.forest.root_of_detached ⟨v, hv, ho⟩
  have hself : h'.Stands id id v := .self hv hno
  have hshow := (hs'.toValue_iff hself).mp hst.reads
  have hlive := free_live (E := E) (hs'.loosen hroot (by simp)) hv hshow
  have htakes := free_takes (E := E) hs'.forest hs'.linked hroot.1
  refine (hlive.and htakes).mono ?_ fun _ _ he => he.1
  rintro _ h'' ⟨hcount, -, hf, -⟩
  have hout : ∀ {x}, h.Live x → ¬h'.Below id x := by
    rintro x ⟨u, hu⟩ hb
    cases ((hst.tree x).mp hb).1.symm.trans hu
  refine ⟨?_, fun x => ?_⟩
  · have := hst.live
    unfold liveCount at *
    omega
  · rcases hx : h.var? x with _ | u
    · rcases hx'' : h''.var? x with _ | u
      · rfl
      · obtain ⟨hno, u, hu, -⟩ := hf.of_some hx''
        exact absurd ((hst.tree x).mpr ⟨hx, u, hu⟩) hno
    · -- What was there before knows nothing of the tree.
      rw [hf.some (hout ⟨u, hx⟩) (hst.same x u hx)]
      have hpay : u.payload.without (h'.Below id) = u.payload := by
        refine Payload.without_eq_self fun t ht hb => ?_
        obtain ⟨w, hw, -⟩ := hs.linked.link hx ht
        exact hout ⟨w, hw⟩ hb
      have hby : (u.without (h'.Below id)).linkedBy = u.linkedBy := by
        refine Variable.linkedBy_without_eq_self fun l hl hb => ?_
        obtain ⟨w, hw, -⟩ := hs.linked.linked hx hl
        exact hout ⟨w, hw⟩ hb
      rw [Variable.without_eq hpay hby]

theorem copy_copies (hs : h.Sound [] False) :
    Ensures (copy target source) h (fun _ h' => Copied h target source h') fun _ _ => True := by
  by_cases hl : h.Live target
  swap
  · rw [copy, Ensures.bind_iff, read_resolve_stale hl]
    trivial
  obtain ⟨t, w, hst⟩ := hs.stands hl
  by_cases hl' : h.Live source
  swap
  · rw [copy, Ensures.bind_iff, read_resolve_iff hst, Ensures.bind_iff, read_resolve_stale hl']
    trivial
  obtain ⟨g, u, hst'⟩ := hs.stands hl'
  obtain ⟨value, hvalue⟩ := hs.toValue_ok hl'
  refine ((copy_replaced hs hst hst' hvalue).and (copy_confined hs hst hst')).mono ?_
    fun _ _ _ => trivial
  rintro _ h' ⟨hr, hc⟩
  exact ⟨hr.sound, ⟨value, hvalue, hr.toValue hst⟩, t, hst.resolve, hr.target, hc⟩

-- What is stored can be read, what is copied reads the same and is nobody else's, and what has
-- been stored can be taken away again without a trace.
theorem snapshots_round_trip (hs : h.Sound [] False) :
    (∀ value, Stowed h value ((allocValue value).run h).1 ((allocValue value).run h).2) ∧
      (∀ source, h.Live source → ∃ value id h', h.toValue source = .ok value ∧
        (duplicate source).run.run h = (.ok id, h') ∧ Stowed h value id h' ∧
        ∀ top x, h.Live top → h'.Below id x → ¬h'.Below top x) ∧
      (∀ target source h', (copy target source).run.run h = (.ok (), h') → Copied h target source h') ∧
      ∀ value id h', Stowed h value id h' → ∃ h'', (free id).run.run h' = (.ok (), h'') ∧
        h''.liveCount = h.liveCount ∧ ∀ x, h''.var? x = h.var? x := by
  refine ⟨allocValue_stows hs, fun source hl => ?_, fun target source h' => (copy_copies hs).of_ok,
    fun value id h' hst => ?_⟩
  · obtain ⟨value, hvalue⟩ := hs.toValue_ok hl
    obtain ⟨id, h', hrun, hst⟩ := (duplicate_stows hs hvalue).exists_run
    exact ⟨value, id, h', hvalue, hrun, hst, fun top x => hst.apart hs⟩
  · obtain ⟨_, h'', hrun, hfree⟩ := (hst.free hs).exists_run
    exact ⟨h'', hrun, hfree⟩

-- An array is read through a link to it.
theorem snapshots_round_trip_linked :
    linkedTemporary.Sound [] False ∧
      (∃ id h', (duplicate ⟨3, 0⟩).run.run linkedTemporary = (.ok id, h') ∧
        Stowed linkedTemporary (.array [.null]) id h') ∧
      ∃ h', (copy ⟨0, 0⟩ ⟨3, 0⟩).run.run linkedTemporary = (.ok (), h') ∧
        Copied linkedTemporary ⟨0, 0⟩ ⟨3, 0⟩ h' := by
  have hs := linkedTemporary_arises.sound
  obtain ⟨-, hduplicate, hcopy, -⟩ := snapshots_round_trip hs
  obtain ⟨value, id, h', hvalue, hrun, hst, -⟩ := hduplicate ⟨3, 0⟩ ⟨_, rfl⟩
  have hread : linkedTemporary.toValue ⟨3, 0⟩ = .ok (.array [.null]) := rfl
  cases hread.symm.trans hvalue
  have hok : ((copy ⟨0, 0⟩ ⟨3, 0⟩).run.run linkedTemporary).1 = .ok () := by
    rw [copy_linkedTemporary]
    rfl
  have hcopied : (copy ⟨0, 0⟩ ⟨3, 0⟩).run.run linkedTemporary =
      (.ok (), ((copy ⟨0, 0⟩ ⟨3, 0⟩).run.run linkedTemporary).2) := Prod.ext hok rfl
  exact ⟨hs, ⟨id, h', hrun, hst⟩, _, hcopied, hcopy _ _ _ hcopied⟩

end Heap

end FinLang

import FinLang.Proofs.Ensures
import FinLang.Proofs.Heap.Change

namespace FinLang

namespace Heap

variable {α : Type} {h : Heap} {loose : List VarId} {id t : VarId} {v w : Variable}
  {Q : α → Heap → Prop} {E : Failure → Heap → Prop}

theorem lookup_eq (hv : h.var? id = some v) : h.lookup id = .ok v := by
  simp [lookup, hv]

theorem lookup_eq_ok_iff : h.lookup id = .ok v ↔ h.var? id = some v := by
  unfold lookup
  split <;> simp_all

theorem lookup_stale (hl : ¬h.Live id) : h.lookup id = .error (.of (.staleVariable id)) := by
  rcases hv : h.arena.get? id with _ | v
  · simp [lookup, hv]
  · exact absurd ⟨v, hv⟩ hl

theorem resolve_stale (hl : ¬h.Live id) : h.resolve id = .error (.of (.staleVariable id)) := by
  simp [resolve, lookup_stale hl, bind, Except.bind]

theorem payload_stale (hl : ¬h.Live id) : h.payload id = .error (.of (.staleVariable id)) := by
  simp [payload, resolve_stale hl, bind, Except.bind]

theorem numeric_stale (hl : ¬h.Live id) : h.numeric id = .error (.of (.staleVariable id)) := by
  simp [Heap.numeric, payload_stale hl, bind, Except.bind]

theorem toBool_stale (hl : ¬h.Live id) : h.toBool id = .error (.of (.staleVariable id)) := by
  simp [Heap.toBool, payload_stale hl, bind, Except.bind]

theorem toValue_stale (hl : ¬h.Live id) : h.toValue id = .error (.of (.staleVariable id)) := by
  simp [toValue, walkBudget, toValueWithin, payload_stale hl, bind, Except.bind]

theorem resolve_eq_self (hv : h.var? id = some v) (hl : ∀ t, v.payload ≠ .link t) :
    h.resolve id = .ok id := by
  rcases hp : v.payload with _ | _ | _ | _ | _ | t
  case link => exact absurd hp (hl t)
  all_goals simp [resolve, lookup_eq hv, bind, Except.bind, hp, pure, Except.pure]

theorem resolve_eq_target (hs : h.Linked) (hv : h.var? id = some v) (hl : v.payload = .link t) :
    h.resolve id = .ok t := by
  obtain ⟨w, hw, -⟩ := hs.link hv hl
  have hc : h.contains t = true := contains_iff.mpr ⟨w, hw⟩
  simp [resolve, lookup_eq hv, bind, Except.bind, hl, hc, pure, Except.pure]

-- What a variable stands for is live and no link.
theorem Linked.resolve (hs : h.Linked) (hv : h.var? id = some v) :
    ∃ t w, h.resolve id = .ok t ∧ h.var? t = some w ∧ (∀ u, w.payload ≠ .link u) ∧
      (t = id ∨ v.payload = .link t) := by
  by_cases hl : ∃ t, v.payload = .link t
  · obtain ⟨t, hl⟩ := hl
    obtain ⟨w, hw, -, hno⟩ := hs.link hv hl
    exact ⟨t, w, resolve_eq_target hs hv hl, hw, hno, .inr hl⟩
  · have hl : ∀ t, v.payload ≠ .link t := fun t ht => hl ⟨t, ht⟩
    exact ⟨id, v, resolve_eq_self hv hl, hv, hl, .inl rfl⟩

theorem run_read {f : Heap → Except Failure α} {a : α} (hf : f h = .ok a) :
    (read f).run.run h = (.ok a, h) := by
  simp [read, ExceptT.mk, ExceptT.run, StateT.run, hf]

theorem read_ok {f : Heap → Except Failure α} {a : α} (hf : f h = .ok a) :
    Ensures (read f) h Q E ↔ Q a h := by
  simp [Ensures, read, ExceptT.mk, ExceptT.run, StateT.run, hf]

theorem read_error {f : Heap → Except Failure α} {e : Failure} (hf : f h = .error e) :
    Ensures (read f) h Q E ↔ E e h := by
  simp [Ensures, read, ExceptT.mk, ExceptT.run, StateT.run, hf]

theorem read_lookup_iff {Q : Variable → Heap → Prop} (hv : h.var? id = some v) :
    Ensures (read (·.lookup id)) h Q E ↔ Q v h :=
  read_ok (f := fun h => h.lookup id) (lookup_eq hv)

theorem fail_iff {c : Cause} : Ensures (fail c : HeapM α) h Q E ↔ E (.of c) h :=
  Iff.rfl

theorem insert_iff {Q : VarId → Heap → Prop} :
    Ensures (liftM (insert v) : HeapM VarId) h Q E ↔ Q (h.fresh v) (h.added v) :=
  Iff.rfl

theorem modifyVariable_iff {f : Variable → Variable} {Q : Unit → Heap → Prop} :
    Ensures (liftM (modifyVariable id f) : HeapM Unit) h Q E ↔ Q () (h.change id f) :=
  Iff.rfl

theorem update_iff {f : Variable → Variable} {Q : Unit → Heap → Prop} (hv : h.var? id = some v) :
    Ensures (update id f) h Q E ↔ Q () (h.change id f) := by
  have hc : h.contains id = true := contains_iff.mpr ⟨v, hv⟩
  simp only [update, Ensures.bind_iff, Ensures.get_iff, hc, if_true]
  exact modifyVariable_iff

-- The same change of several variables, in whatever order.
theorem modify_all {f : Variable → Variable} (hf : ∀ v, f (f v) = f v) (ids : List VarId)
    (ha : h.arena.Sound) :
    Ensures (ids.forM fun id => (liftM (modifyVariable id f) : HeapM Unit)) h
      (fun _ h' => h'.arena.Sound ∧ h'.arena.live = h.arena.live ∧
        Maps (fun x v => if x ∈ ids then f v else v) h h') E := by
  induction ids generalizing h with
  | nil => exact ⟨ha, rfl, fun x => by simp⟩
  | cons id rest ih =>
    simp only [List.forM_eq_forM, List.forM_cons] at ih ⊢
    rw [Ensures.bind_iff]
    have hrest := ih (h := h.change id f) (Arena.sound_modify ha id f)
    refine modifyVariable_iff.2 (hrest.mono ?_ fun _ _ he => he)
    rintro _ h' ⟨ha', hlive, hm⟩
    refine ⟨ha', hlive, fun x => ?_⟩
    rw [hm, var?_change]
    by_cases hx : x = id
    · subst hx
      by_cases hr : x ∈ rest <;> simp [hr, Function.comp_def, hf]
    · simp [hx]

end Heap

end FinLang

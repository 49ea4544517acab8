import FinLang.Machine.Basic

namespace FinLang

variable {ε σ α β : Type}

-- What a computation comes to from a given state: the first condition holds
-- behind a value, the second behind a failure.
def Ensures (x : ExceptT ε (StateM σ) α) (s : σ) (Q : α → σ → Prop) (E : ε → σ → Prop) : Prop :=
  match x.run.run s with
  | (.ok a, s') => Q a s'
  | (.error e, s') => E e s'

theorem run_bind_of_ok {x : ExceptT ε (StateM σ) α} {f : α → ExceptT ε (StateM σ) β} {s s' : σ} {a : α}
    (h : x.run.run s = (.ok a, s')) : (x >>= f).run.run s = (f a).run.run s' := by
  simp only [Bind.bind, ExceptT.bind, ExceptT.mk, ExceptT.run, StateT.bind, StateT.run] at *
  rw [h]
  rfl

theorem run_bind_of_error {x : ExceptT ε (StateM σ) α} {f : α → ExceptT ε (StateM σ) β} {s s' : σ}
    {e : ε} (h : x.run.run s = (.error e, s')) : (x >>= f).run.run s = (.error e, s') := by
  simp only [Bind.bind, ExceptT.bind, ExceptT.mk, ExceptT.run, StateT.bind, StateT.run] at *
  rw [h]
  rfl

namespace Ensures

variable {x : ExceptT ε (StateM σ) α} {s : σ} {Q R : α → σ → Prop} {E F : ε → σ → Prop}

theorem mono (h : Ensures x s R F) (hq : ∀ a s', R a s' → Q a s')
    (he : ∀ e s', F e s' → E e s') : Ensures x s Q E := by
  unfold Ensures at *
  split at h
  · exact hq _ _ h
  · exact he _ _ h

theorem and (h : Ensures x s Q E) (h' : Ensures x s R F) :
    Ensures x s (fun a s' => Q a s' ∧ R a s') (fun e s' => E e s' ∧ F e s') := by
  unfold Ensures at *
  rcases hx : x.run.run s with ⟨a | e, s'⟩ <;> simp_all

theorem trivially : Ensures x s (fun _ _ => True) fun _ _ => True := by
  unfold Ensures
  split <;> trivial

-- Sequencing: the conditions of the rest are asked for behind the first part.
theorem bind {f : α → ExceptT ε (StateM σ) β} {Q : β → σ → Prop} (h : Ensures x s R E)
    (hf : ∀ a s', R a s' → Ensures (f a) s' Q E) : Ensures (x >>= f) s Q E := by
  unfold Ensures at *
  simp only [Bind.bind, ExceptT.bind, ExceptT.mk, ExceptT.run, StateT.bind, StateT.run] at *
  rcases hx : x s with ⟨e | a, s'⟩
  · simp only [hx, ExceptT.bindCont] at h ⊢
    exact h
  · simp only [hx, ExceptT.bindCont] at h ⊢
    exact hf a s' h

theorem bind_iff {f : α → ExceptT ε (StateM σ) β} {Q : β → σ → Prop} :
    Ensures (x >>= f) s Q E ↔ Ensures x s (fun a s' => Ensures (f a) s' Q E) E := by
  unfold Ensures
  simp only [Bind.bind, ExceptT.bind, ExceptT.mk, ExceptT.run, StateT.bind, StateT.run]
  rcases x s with ⟨_ | _, _⟩ <;> rfl

theorem pure_iff {a : α} : Ensures (pure a : ExceptT ε (StateM σ) α) s Q E ↔ Q a s :=
  Iff.rfl

theorem throw_iff {e : ε} : Ensures (throw e : ExceptT ε (StateM σ) α) s Q E ↔ E e s :=
  Iff.rfl

theorem map_iff {f : α → β} {Q : β → σ → Prop} :
    Ensures (f <$> x) s Q E ↔ Ensures x s (fun a s' => Q (f a) s') E := by
  unfold Ensures
  simp only [Functor.map, ExceptT.map, ExceptT.mk, ExceptT.run, StateT.run, Bind.bind, StateT.bind]
  rcases x s with ⟨_ | _, _⟩ <;> rfl

theorem tryCatch_iff {f : ε → ExceptT ε (StateM σ) α} :
    Ensures (tryCatch x f) s Q E ↔ Ensures x s Q (fun e s' => Ensures (f e) s' Q E) := by
  unfold Ensures
  simp only [tryCatch, tryCatchThe, MonadExceptOf.tryCatch, ExceptT.tryCatch, ExceptT.mk,
    ExceptT.run, StateT.run, Bind.bind, StateT.bind]
  rcases x s with ⟨_ | _, _⟩ <;> rfl

theorem get_iff {Q : σ → σ → Prop} : Ensures (get : ExceptT ε (StateM σ) σ) s Q E ↔ Q s s :=
  Iff.rfl

theorem modify_iff {f : σ → σ} {Q : Unit → σ → Prop} :
    Ensures (modify f : ExceptT ε (StateM σ) Unit) s Q E ↔ Q () (f s) :=
  Iff.rfl

-- A computation on the state that cannot fail.
theorem lift_iff {m : StateM σ α} :
    Ensures (liftM m : ExceptT ε (StateM σ) α) s Q E ↔ Q (m.run s).1 (m.run s).2 :=
  Iff.rfl

theorem of_ok {a : α} {s' : σ} (h : Ensures x s Q E) (hx : x.run.run s = (.ok a, s')) : Q a s' := by
  unfold Ensures at h
  rwa [hx] at h

theorem of_error {e : ε} {s' : σ} (h : Ensures x s Q E) (hx : x.run.run s = (.error e, s')) :
    E e s' := by
  unfold Ensures at h
  rwa [hx] at h

theorem exists_run (h : Ensures x s Q fun _ _ => False) :
    ∃ a s', x.run.run s = (.ok a, s') ∧ Q a s' := by
  rcases hx : x.run.run s with ⟨e | a, s'⟩
  · exact (h.of_error hx).elim
  · exact ⟨a, s', rfl, h.of_ok hx⟩

-- What cannot fail has a result.
theorem exists_ok (h : Ensures x s Q fun _ _ => False) : ∃ a s', Q a s' := by
  unfold Ensures at h
  rcases hx : x.run.run s with ⟨a | e, s'⟩
  · rw [hx] at h
    exact h.elim
  · rw [hx] at h
    exact ⟨_, s', h⟩

-- A walk along a list keeps a condition on what is left of it.
theorem forM {f : α → ExceptT ε (StateM σ) Unit} (I : List α → σ → Prop)
    (step : ∀ a rest s, I (a :: rest) s → Ensures (f a) s (fun _ s' => I rest s') E)
    (l : List α) (s : σ) (h : I l s) : Ensures (l.forM f) s (fun _ s' => I [] s') E := by
  induction l generalizing s with
  | nil => exact h
  | cons a rest ih =>
    simp only [List.forM_eq_forM, List.forM_cons] at ih ⊢
    exact (step a rest s h).bind fun _ s' h' => ih s' h'

-- A walk that cannot fail, taken step by step.
theorem lift_forM_iff {f : α → StateM σ Unit} {Q : Unit → σ → Prop} (l : List α) :
    Ensures (liftM (l.forM f) : ExceptT ε (StateM σ) Unit) s Q E ↔
      Ensures (l.forM fun a => (liftM (f a) : ExceptT ε (StateM σ) Unit)) s Q E := by
  induction l generalizing s with
  | nil => rfl
  | cons a rest ih =>
    simp only [List.forM_eq_forM, List.forM_cons, bind_iff] at ih ⊢
    exact ih (s := ((f a).run s).2)

theorem forM_array {f : α → ExceptT ε (StateM σ) Unit} (I : List α → σ → Prop)
    (step : ∀ a rest s, I (a :: rest) s → Ensures (f a) s (fun _ s' => I rest s') E)
    (l : Array α) (s : σ) (h : I l.toList s) : Ensures (l.forM f) s (fun _ s' => I [] s') E := by
  have heq : l.forM f = l.toList.forM f := by
    simpa using List.forM_toArray l.toList f
  rw [heq]
  exact forM I step l.toList s h

end Ensures

end FinLang

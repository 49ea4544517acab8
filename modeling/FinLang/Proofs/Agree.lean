import FinLang.Proofs.Ensures

namespace FinLang

variable {ε σ α β γ δ : Type}

theorem forM_toList {m : Type → Type} [Monad m] [LawfulMonad m] (l : Array α) (f : α → m PUnit) :
    l.forM f = l.toList.forM f := by
  simpa using List.forM_toArray l.toList f

-- Two computations from two states that both succeed or both fail. The first condition
-- holds behind the values, the second behind the failures.
def Agree (x : ExceptT ε (StateM σ) α) (y : ExceptT ε (StateM σ) β) (s t : σ)
    (Q : α → β → σ → σ → Prop) (E : ε → ε → σ → σ → Prop) : Prop :=
  match x.run.run s, y.run.run t with
  | (.ok a, s'), (.ok b, t') => Q a b s' t'
  | (.error e, s'), (.error e', t') => E e e' s' t'
  | _, _ => False

namespace Agree

variable {x : ExceptT ε (StateM σ) α} {y : ExceptT ε (StateM σ) β} {s t : σ}
  {Q R : α → β → σ → σ → Prop} {E F : ε → ε → σ → σ → Prop}

theorem mono (h : Agree x y s t R F) (hq : ∀ a b s' t', R a b s' t' → Q a b s' t')
    (he : ∀ e e' s' t', F e e' s' t' → E e e' s' t') : Agree x y s t Q E := by
  unfold Agree at *
  split at h
  · exact hq _ _ _ _ h
  · exact he _ _ _ _ h
  · exact h

-- What is known of each of the two on its own may be used.
theorem and {P : α → σ → Prop} {P' : β → σ → Prop} {G G' : ε → σ → Prop} (h : Agree x y s t Q E)
    (hx : Ensures x s P G) (hy : Ensures y t P' G') :
    Agree x y s t (fun a b s' t' => Q a b s' t' ∧ P a s' ∧ P' b t')
      (fun e e' s' t' => E e e' s' t' ∧ G e s' ∧ G' e' t') := by
  unfold Agree Ensures at *
  rcases hrx : x.run.run s with ⟨_ | _, _⟩ <;> rcases hry : y.run.run t with ⟨_ | _, _⟩ <;>
    simp_all

theorem given {P : α → σ → Prop} {P' : β → σ → Prop} {G G' : ε → σ → Prop} (h : Agree x y s t Q E)
    (hx : Ensures x s P G) (hy : Ensures y t P' G') :
    Agree x y s t (fun a b s' t' => Q a b s' t' ∧ P a s' ∧ P' b t') E :=
  (h.and hx hy).mono (fun _ _ _ _ hq => hq) fun _ _ _ _ he => he.1

-- The same of the first one only.
theorem left {P : α → σ → Prop} {G : ε → σ → Prop} (h : Agree x y s t Q E) (hx : Ensures x s P G) :
    Agree x y s t (fun a b s' t' => Q a b s' t' ∧ P a s') (fun e e' s' t' => E e e' s' t' ∧ G e s') :=
  (h.and hx .trivially).mono (fun _ _ _ _ hq => ⟨hq.1, hq.2.1⟩) fun _ _ _ _ he =>
    ⟨he.1, he.2.1⟩

-- What is known of two computations that cannot fail.
theorem of_ensures {P : α → σ → Prop} {P' : β → σ → Prop} (hx : Ensures x s P fun _ _ => False)
    (hy : Ensures y t P' fun _ _ => False) : Agree x y s t (fun a b s' t' => P a s' ∧ P' b t') E := by
  unfold Agree Ensures at *
  rcases hrx : x.run.run s with ⟨_ | _, _⟩ <;> rcases hry : y.run.run t with ⟨_ | _, _⟩ <;>
    simp_all

-- A computation agrees with itself.
theorem of_run_eq {y : ExceptT ε (StateM σ) α} {Q : α → α → σ → σ → Prop}
    (hxy : y.run.run s = x.run.run s)
    (h : Ensures x s (fun a s' => Q a a s' s') fun e s' => E e e s' s') : Agree x y s s Q E := by
  unfold Agree Ensures at *
  rw [hxy]
  rcases hrx : x.run.run s with ⟨_ | _, _⟩ <;> simp_all

-- One of the two takes a step on its own.
theorem bind_left_iff {f : α → ExceptT ε (StateM σ) γ} {Q : γ → β → σ → σ → Prop} {a : α} {s' : σ}
    (h : x.run.run s = (.ok a, s')) : Agree (x >>= f) y s t Q E ↔ Agree (f a) y s' t Q E := by
  rw [Agree, run_bind_of_ok h, Agree]

theorem bind_right_iff {f : β → ExceptT ε (StateM σ) γ} {Q : α → γ → σ → σ → Prop} {b : β} {t' : σ}
    (h : y.run.run t = (.ok b, t')) : Agree x (y >>= f) s t Q E ↔ Agree x (f b) s t' Q E := by
  rw [Agree, run_bind_of_ok h, Agree]

theorem bind {f : α → ExceptT ε (StateM σ) γ} {g : β → ExceptT ε (StateM σ) δ}
    {Q : γ → δ → σ → σ → Prop} (h : Agree x y s t R E)
    (hf : ∀ a b s' t', R a b s' t' → Agree (f a) (g b) s' t' Q E) :
    Agree (x >>= f) (y >>= g) s t Q E := by
  unfold Agree at *
  simp only [Bind.bind, ExceptT.bind, ExceptT.mk, ExceptT.run, StateT.bind, StateT.run] at *
  rcases hx : x s with ⟨_ | _, _⟩ <;> rcases hy : y t with ⟨_ | _, _⟩ <;> rw [hx, hy] at h
  · exact h
  · exact h.elim
  · exact h.elim
  · exact hf _ _ _ _ h

theorem pure_iff {a : α} {b : β} :
    Agree (pure a : ExceptT ε (StateM σ) α) (pure b : ExceptT ε (StateM σ) β) s t Q E ↔ Q a b s t :=
  Iff.rfl

theorem throw_iff {e e' : ε} :
    Agree (throw e : ExceptT ε (StateM σ) α) (throw e' : ExceptT ε (StateM σ) β) s t Q E ↔ E e e' s t :=
  Iff.rfl

theorem get_bind_iff {f : σ → ExceptT ε (StateM σ) α} {g : σ → ExceptT ε (StateM σ) β} :
    Agree (get >>= f) (get >>= g) s t Q E ↔ Agree (f s) (g t) s t Q E :=
  Iff.rfl

theorem modify_iff {f g : σ → σ} {Q : Unit → Unit → σ → σ → Prop} :
    Agree (modify f : ExceptT ε (StateM σ) Unit) (modify g : ExceptT ε (StateM σ) Unit) s t Q E ↔
      Q () () (f s) (g t) :=
  Iff.rfl

theorem lift_iff {m : StateM σ α} {n : StateM σ β} :
    Agree (liftM m : ExceptT ε (StateM σ) α) (liftM n : ExceptT ε (StateM σ) β) s t Q E ↔
      Q (m.run s).1 (n.run t).1 (m.run s).2 (n.run t).2 :=
  Iff.rfl

theorem ite {c d : Prop} [Decidable c] [Decidable d] {x' : ExceptT ε (StateM σ) α}
    {y' : ExceptT ε (StateM σ) β} (hd : d ↔ c) (h : c → Agree x y s t Q E)
    (h' : ¬c → Agree x' y' s t Q E) :
    Agree (if c then x else x') (if d then y else y') s t Q E := by
  by_cases hc : c
  · rw [if_pos hc, if_pos (hd.mpr hc)]
    exact h hc
  · rw [if_neg hc, if_neg (mt hd.mp hc)]
    exact h' hc

theorem tryCatch {f : ε → ExceptT ε (StateM σ) α} {g : ε → ExceptT ε (StateM σ) β}
    (h : Agree x y s t Q F) (hf : ∀ e e' s' t', F e e' s' t' → Agree (f e) (g e') s' t' Q E) :
    Agree (tryCatch x f) (tryCatch y g) s t Q E := by
  unfold Agree at *
  simp only [MonadExcept.tryCatch, tryCatchThe, MonadExceptOf.tryCatch, ExceptT.tryCatch, ExceptT.mk,
    ExceptT.run, StateT.run, Bind.bind, StateT.bind] at *
  rcases hx : x s with ⟨_ | _, _⟩ <;> rcases hy : y t with ⟨_ | _, _⟩ <;> rw [hx, hy] at h
  · exact hf _ _ _ _ h
  · exact h.elim
  · exact h.elim
  · exact h

-- A walk along two lists of the same length.
theorem forM {f : α → ExceptT ε (StateM σ) Unit} {g : β → ExceptT ε (StateM σ) Unit} {i : α → β}
    (I : List α → σ → σ → Prop)
    (step : ∀ a rest s t, I (a :: rest) s t → Agree (f a) (g (i a)) s t (fun _ _ => I rest) E)
    (l : List α) (s t : σ) (h : I l s t) :
    Agree (l.forM f) ((l.map i).forM g) s t (fun _ _ => I []) E := by
  induction l generalizing s t with
  | nil => exact h
  | cons a rest ih =>
    simp only [List.forM_eq_forM, List.map_cons, List.forM_cons] at ih ⊢
    exact (step a rest s t h).bind fun _ _ s' t' h' => ih s' t' h'

theorem forM_array {f : α → ExceptT ε (StateM σ) Unit} {g : β → ExceptT ε (StateM σ) Unit}
    {i : α → β} (I : List α → σ → σ → Prop)
    (step : ∀ a rest s t, I (a :: rest) s t → Agree (f a) (g (i a)) s t (fun _ _ => I rest) E)
    (l : Array α) (s t : σ) (h : I l.toList s t) :
    Agree (l.forM f) ((l.map i).forM g) s t (fun _ _ => I []) E := by
  rw [forM_toList, forM_toList, Array.toList_map]
  exact forM I step l.toList s t h

end Agree

-- Two computations that agree from all states in some relation, and stay in it. The
-- second one has the result of the first one under a map.
def Follows (S : σ → σ → Prop) (F : ε → ε → σ → σ → Prop) (g : α → β)
    (x : ExceptT ε (StateM σ) α) (y : ExceptT ε (StateM σ) β) : Prop :=
  ∀ s t, S s t → Agree x y s t (fun a b s' t' => b = g a ∧ S s' t') F

variable {S : σ → σ → Prop} {F : ε → ε → σ → σ → Prop} {g : α → β} {i : γ → δ} {s t : σ}
  {x : ExceptT ε (StateM σ) α} {y : ExceptT ε (StateM σ) β}

theorem Agree.next {f : α → ExceptT ε (StateM σ) γ} {f' : β → ExceptT ε (StateM σ) δ}
    (h : Agree x y s t (fun a b s' t' => b = g a ∧ S s' t') F)
    (hf : ∀ a, Follows S F i (f a) (f' (g a))) :
    Agree (x >>= f) (y >>= f') s t (fun c d s' t' => d = i c ∧ S s' t') F := by
  refine Agree.bind h ?_
  rintro a _ s' t' ⟨rfl, hst⟩
  exact hf a s' t' hst

namespace Follows

theorem bind {f : α → ExceptT ε (StateM σ) γ} {f' : β → ExceptT ε (StateM σ) δ}
    (h : Follows S F g x y) (hf : ∀ a, Follows S F i (f a) (f' (g a))) :
    Follows S F i (x >>= f) (y >>= f') :=
  fun s t hst => (h s t hst).next hf

theorem pure {a : α} {b : β} (hb : b = g a) : Follows S F g (Pure.pure a) (Pure.pure b) :=
  fun _ _ hst => ⟨hb, hst⟩

theorem ite {c d : Prop} [Decidable c] [Decidable d] {x' : ExceptT ε (StateM σ) α}
    {y' : ExceptT ε (StateM σ) β} (hd : d ↔ c) (h : c → Follows S F g x y)
    (h' : ¬c → Follows S F g x' y') : Follows S F g (if c then x else x') (if d then y else y') :=
  fun s t hst => Agree.ite hd (fun hc => h hc s t hst) fun hc => h' hc s t hst

theorem forM {f : α → ExceptT ε (StateM σ) Unit} {f' : β → ExceptT ε (StateM σ) Unit} {j : α → β}
    (hf : ∀ a, Follows S F id (f a) (f' (j a))) (l : List α) :
    Follows S F id (l.forM f) ((l.map j).forM f') := by
  intro s t hst
  refine (Agree.forM (fun _ => S) (fun a _ s t h => ?_) l s t hst).mono
    (fun _ _ _ _ h => ⟨rfl, h⟩) fun _ _ _ _ he => he
  exact (hf a s t h).mono (fun _ _ _ _ hq => hq.2) fun _ _ _ _ he => he

theorem forM_array {f : α → ExceptT ε (StateM σ) Unit} {f' : β → ExceptT ε (StateM σ) Unit}
    {j : α → β} (hf : ∀ a, Follows S F id (f a) (f' (j a))) (l : Array α) :
    Follows S F id (l.forM f) ((l.map j).forM f') := by
  rw [forM_toList, forM_toList, Array.toList_map]
  exact forM hf l.toList

theorem mapM {f : α → ExceptT ε (StateM σ) γ} {f' : β → ExceptT ε (StateM σ) δ} {j : α → β}
    (hf : ∀ a, Follows S F i (f a) (f' (j a))) (l : List α) :
    Follows S F (List.map i) (l.mapM f) ((l.map j).mapM f') := by
  induction l with
  | nil => exact pure rfl
  | cons a rest ih =>
    rw [List.map_cons, List.mapM_cons, List.mapM_cons]
    exact (hf a).bind fun _ => ih.bind fun _ => pure rfl

end Follows

end FinLang

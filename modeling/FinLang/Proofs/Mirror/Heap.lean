import FinLang.Proofs.Agree
import FinLang.Proofs.Heap.Read
import FinLang.Proofs.Mirror.Renaming

namespace FinLang

variable {α β γ δ : Type}

-- Failures of one kind at one place. Their texts may name handles.
def Failure.Alike (e e' : Failure) : Prop :=
  e'.kind = e.kind ∧ e'.span = e.span

@[simp] theorem Failure.alike_refl (e : Failure) : e.Alike e :=
  ⟨rfl, rfl⟩

-- Two readings that end alike, the second one with what the first has read under
-- other names.
def Alike (g : α → β) : Except Failure α → Except Failure β → Prop
  | .ok a, .ok b => b = g a
  | .error e, .error e' => e.Alike e'
  | _, _ => False

namespace Alike

variable {g : α → β} {i : γ → δ} {x : Except Failure α} {y : Except Failure β}

theorem refl (x : Except Failure α) : Alike id x x := by
  cases x with
  | error e => exact e.alike_refl
  | ok a => rfl

theorem bind {f : α → Except Failure γ} {f' : β → Except Failure δ} (h : Alike g x y)
    (hf : ∀ a, Alike i (f a) (f' (g a))) : Alike i (x >>= f) (y >>= f') := by
  rcases x with e | a <;> rcases y with e' | b
  · exact h
  · exact h.elim
  · exact h.elim
  · obtain rfl : b = g a := h
    exact hf a

theorem ite {c d : Prop} [Decidable c] [Decidable d] {x' : Except Failure α}
    {y' : Except Failure β} (hd : d ↔ c) (h : Alike g x y) (h' : Alike g x' y') :
    Alike g (if c then x else x') (if d then y else y') := by
  by_cases hc : c
  · rwa [if_pos hc, if_pos (hd.mpr hc)]
  · rwa [if_neg hc, if_neg (mt hd.mp hc)]

theorem mapM {l : List α} {j : α → β} {f : α → Except Failure γ} {f' : β → Except Failure δ}
    (hf : ∀ a, Alike i (f a) (f' (j a))) : Alike (List.map i) (l.mapM f) ((l.map j).mapM f') := by
  induction l with
  | nil => rfl
  | cons a rest ih =>
    rw [List.map_cons, List.mapM_cons, List.mapM_cons]
    exact (hf a).bind fun c => ih.bind fun cs => rfl

end Alike

namespace Heap

variable {ρ : Renaming} {h h' : Heap} {x y : VarId}

abbrev Mirrors (ρ : Renaming) (h h' : Heap) : Prop :=
  Arena.Mirrors ρ (Variable.rename ρ) h.arena h'.arena

-- A longer walk finds what a shorter one has found.
theorem toValueWithin_le {n m : Nat} {v : Value} (hv : h.toValueWithin n x = .ok v) (hle : n ≤ m) :
    h.toValueWithin m x = .ok v := by
  induction n generalizing m x v with
  | zero => cases hv
  | succ n ih =>
    obtain ⟨m, rfl⟩ := Nat.exists_eq_add_of_le hle
    have hmap : ∀ {l : List VarId} {vs}, l.mapM (h.toValueWithin n) = .ok vs →
        l.mapM (h.toValueWithin (n + m)) = .ok vs := by
      intro l
      induction l with
      | nil => exact fun hvs => hvs
      | cons c rest ihl =>
        intro vs hvs
        rw [List.mapM_cons] at hvs ⊢
        rcases hc : h.toValueWithin n c with e | w
        · rw [hc] at hvs
          cases hvs
        rcases hrest : rest.mapM (h.toValueWithin n) with e | ws
        · rw [hc, hrest] at hvs
          cases hvs
        rw [hc, hrest] at hvs
        rw [ih hc (Nat.le_add_right n m), ihl hrest]
        exact hvs
    rw [Nat.add_right_comm]
    unfold toValueWithin at hv ⊢
    rcases hp : h.payload x with e | p
    · rw [hp] at hv
      cases hv
    rw [hp] at hv
    cases p with
    | array items =>
      simp only [bind, Except.bind] at hv ⊢
      rcases hitems : items.toList.mapM (h.toValueWithin n) with e | vs
      · rw [hitems] at hv
        cases hv
      · rw [hitems] at hv
        rw [hmap hitems]
        exact hv
    | _ => exact hv

theorem owningScopeWithin_le {n m : Nat} {o : Option ScopeId}
    (ho : h.owningScopeWithin n x = .ok o) (hle : n ≤ m) : h.owningScopeWithin m x = .ok o := by
  induction n generalizing m x with
  | zero => cases ho
  | succ n ih =>
    obtain ⟨m, rfl⟩ := Nat.exists_eq_add_of_le hle
    rw [Nat.add_right_comm]
    unfold owningScopeWithin at ho ⊢
    rcases hown : h.owner x with e | w
    · rw [hown] at ho
      cases ho
    rw [hown] at ho
    cases w with
    | array p => exact ih ho (Nat.le_add_right n m)
    | _ => exact ho

theorem owningScope_stale (hl : ¬h.Live x) : h.owningScope x = .error (.of (.staleVariable x)) := by
  simp [owningScope, walkBudget, owningScopeWithin, owner, lookup_stale hl, bind, Except.bind]

namespace Mirrors

variable (hm : Mirrors ρ h h')
include hm

theorem some {v : Variable} (hv : h.var? x = .some v) : h'.var? (ρ x) = .some (v.rename ρ) := by
  rw [var?, hm.get?, show h.arena.get? x = .some v from hv]
  rfl

theorem live_iff : h'.Live (ρ x) ↔ h.Live x := by
  simp [Live, hm.get?]

theorem contains : h'.contains (ρ x) = h.contains x :=
  Arena.Mirrors.contains hm

theorem lookup : Alike (Variable.rename ρ) (h.lookup x) (h'.lookup (ρ x)) := by
  unfold Heap.lookup
  rw [hm.get?]
  cases h.arena.get? x with
  | none => exact ⟨rfl, rfl⟩
  | some v => rfl

theorem resolve : Alike ρ.handle (h.resolve x) (h'.resolve (ρ x)) := by
  refine hm.lookup.bind fun v => ?_
  simp only [Variable.payload_rename]
  cases v.payload with
  | link t =>
    simp only [Payload.rename, hm.contains]
    split
    · rfl
    · exact ⟨rfl, rfl⟩
  | _ => rfl

theorem payload : Alike (Payload.rename ρ) (h.payload x) (h'.payload (ρ x)) :=
  hm.resolve.bind fun _ => hm.lookup.bind fun _ => rfl

theorem varType : Alike id (h.varType x) (h'.varType (ρ x)) :=
  hm.payload.bind fun p => p.varType_rename ρ

theorem isLeftValue : Alike id (h.isLeftValue x) (h'.isLeftValue (ρ x)) :=
  hm.lookup.bind fun _ => rfl

theorem isWriteProtected : Alike id (h.isWriteProtected x) (h'.isWriteProtected (ρ x)) :=
  hm.resolve.bind fun _ => hm.lookup.bind fun _ => hm.lookup.bind fun _ => rfl

theorem owner : Alike (Owner.rename ρ) (h.owner x) (h'.owner (ρ x)) :=
  hm.lookup.bind fun _ => rfl

theorem numeric : Alike id (h.numeric x) (h'.numeric (ρ x)) := by
  refine hm.payload.bind fun p => ?_
  cases p <;> first | rfl | exact ⟨rfl, rfl⟩

theorem string : Alike id (h.string x) (h'.string (ρ x)) := by
  refine hm.payload.bind fun p => ?_
  cases p <;> first | rfl | exact ⟨rfl, rfl⟩

theorem toBool : Alike id (h.toBool x) (h'.toBool (ρ x)) := by
  refine hm.payload.bind fun p => ?_
  cases p with
  | array items => simp [Payload.rename, Alike, pure, Except.pure, Array.isEmpty]
  | _ => rfl

theorem writable : Alike (fun p => (ρ p.1, p.2.rename ρ)) (h.writable x) (h'.writable (ρ x)) := by
  refine hm.resolve.bind fun t => hm.lookup.bind fun v => ?_
  refine .ite .rfl ⟨rfl, rfl⟩ (hm.lookup.bind fun w => ?_)
  exact .ite .rfl ⟨rfl, rfl⟩ rfl

theorem toValueWithin (n : Nat) : Alike id (h.toValueWithin n x) (h'.toValueWithin n (ρ x)) := by
  induction n generalizing x with
  | zero => exact ⟨rfl, rfl⟩
  | succ n ih =>
    refine hm.payload.bind fun p => ?_
    cases p with
    | array items =>
      simp only [Payload.rename, Array.toList_map]
      refine (Alike.mapM fun c => ih (x := c)).bind fun vs => ?_
      rw [List.map_id]
      rfl
    | _ => rfl

theorem owningScopeWithin (n : Nat) :
    Alike (Option.map ρ.handle) (h.owningScopeWithin n x) (h'.owningScopeWithin n (ρ x)) := by
  induction n generalizing x with
  | zero => exact ⟨rfl, rfl⟩
  | succ n ih =>
    refine hm.owner.bind fun o => ?_
    cases o with
    | array p => exact ih
    | _ => rfl

-- The walks come to their ends, whatever the sizes of the arenas.
theorem toValue {loose loose' : List VarId} (hs : h.Sound loose) (hs' : h'.Sound loose') :
    Alike id (h.toValue x) (h'.toValue (ρ x)) := by
  by_cases hx : h.Live x
  · obtain ⟨v, hv⟩ := hs.toValue_ok hx
    obtain ⟨v', hv'⟩ := hs'.toValue_ok (hm.live_iff.mpr hx)
    have hsame := hm.toValueWithin (x := x) (h.walkBudget + h'.walkBudget)
    rw [toValueWithin_le hv (Nat.le_add_right ..), toValueWithin_le hv' (Nat.le_add_left ..)] at hsame
    rw [hv, hv']
    exact hsame
  · rw [toValue_stale hx, toValue_stale (mt hm.live_iff.mp hx)]
    exact ⟨rfl, rfl⟩

theorem owningScope (hs : h.Sound []) (hs' : h'.Sound []) :
    Alike (Option.map ρ.handle) (h.owningScope x) (h'.owningScope (ρ x)) := by
  by_cases hx : h.Live x
  · obtain ⟨o, ho, -⟩ := hs.owningScope_ok hx
    obtain ⟨o', ho', -⟩ := hs'.owningScope_ok (hm.live_iff.mpr hx)
    have hsame := hm.owningScopeWithin (x := x) (h.walkBudget + h'.walkBudget)
    rw [owningScopeWithin_le ho (Nat.le_add_right ..),
      owningScopeWithin_le ho' (Nat.le_add_left ..)] at hsame
    rw [ho, ho']
    exact hsame
  · rw [owningScope_stale hx, owningScope_stale (mt hm.live_iff.mp hx)]
    exact ⟨rfl, rfl⟩

theorem equals {loose loose' : List VarId} (hs : h.Sound loose) (hs' : h'.Sound loose') :
    Alike id (h.equals x y) (h'.equals (ρ x) (ρ y)) :=
  (hm.toValue hs hs').bind fun _ => (hm.toValue hs hs').bind fun _ => rfl

end Mirrors

end Heap

end FinLang

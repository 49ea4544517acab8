import FinLang.Proofs.Heap.Frame
import FinLang.Store.Heap.Copy

namespace FinLang

theorem exists_mapM_ok {ε α β : Type} {f : α → Except ε β} {l : List α}
    (hf : ∀ a ∈ l, ∃ b, f a = .ok b) : ∃ bs, l.mapM f = .ok bs := by
  induction l with
  | nil => exact ⟨[], rfl⟩
  | cons a rest ih =>
    obtain ⟨b, hb⟩ := hf a (List.mem_cons_self ..)
    obtain ⟨bs, hbs⟩ := ih fun a ha => hf a (List.mem_cons_of_mem _ ha)
    exact ⟨b :: bs, by simp [hb, hbs, bind, Except.bind, pure, Except.pure]⟩

namespace Heap

-- The variable that a handle stands for: its own, or the one that it links to.
structure Stands (h : Heap) (id t : VarId) (w : Variable) : Prop where
  resolve : h.resolve id = .ok t
  var : h.var? t = some w
  no_link : ∀ u, w.payload ≠ .link u
  self_or_link : t = id ∨ ∃ v, h.var? id = some v ∧ v.payload = .link t

-- What is left alone and still in reach is a constant.
def Safe (K : VarId → Prop) (h : Heap) (id : VarId) : Prop :=
  K id → h.Frozen id

variable {α : Type} {h : Heap} {loose : List VarId} {strict : Prop} {K : VarId → Prop} {id id' t : VarId}
  {v w : Variable} {Q : α → Heap → Prop} {E : Failure → Heap → Prop}

theorem Sound.stands (hs : h.Sound loose strict) (hl : h.Live id) : ∃ t w, h.Stands id t w := by
  obtain ⟨v, hv⟩ := hl
  obtain ⟨t, w, hr, hw, hno, hor⟩ := hs.linked.resolve hv
  exact ⟨t, w, hr, hw, hno, hor.imp_right fun ht => ⟨v, hv, ht⟩⟩

theorem Sound.stands_of_resolve (hs : h.Sound loose strict) (hr : h.resolve id = .ok t)
    (hw : h.var? t = some w) : h.Stands id t w := by
  have hlive : h.Live id := by
    by_contra hl
    cases hr.symm.trans (resolve_stale hl)
  obtain ⟨t', w', hst⟩ := hs.stands hlive
  obtain rfl : t' = t := Except.ok.inj (hst.resolve.symm.trans hr)
  cases hst.var.symm.trans hw
  exact hst

namespace Stands

-- What is no link stands for itself.
theorem self (hv : h.var? id = some v) (hno : ∀ t, v.payload ≠ .link t) : h.Stands id id v :=
  ⟨resolve_eq_self hv hno, hv, hno, .inl rfl⟩

-- A link that is not loose stands for a left-value.
theorem left (hst : h.Stands id t w) (hs : h.Ruled loose) (hid : id ∉ loose) (hne : t ≠ id) :
    w.leftValue = true := by
  obtain ⟨v, hv, ht⟩ := hst.self_or_link.resolve_left hne
  exact hs.target hv hid ht hst.var

theorem left_of_left (hst : h.Stands id t w) (hs : h.Ruled loose) (hid : id ∉ loose)
    (hv : h.var? id = some v) (hl : v.leftValue = true) : w.leftValue = true := by
  by_cases hne : t = id
  · subst hne
    cases hv.symm.trans hst.var
    exact hl
  · exact hst.left hs hid hne

theorem live (hst : h.Stands id t w) : h.Live id := by
  rcases hst.self_or_link with rfl | ⟨v, hv, -⟩
  · exact ⟨w, hst.var⟩
  · exact ⟨v, hv⟩

theorem closed (hst : h.Stands id t w) (hc : h.Closed K) : K id ↔ K t := by
  rcases hst.self_or_link with rfl | ⟨v, hv, ht⟩
  · rfl
  · exact hc.link hv ht

theorem payload (hst : h.Stands id t w) : h.payload id = .ok w.payload := by
  simp [Heap.payload, hst.resolve, lookup_eq hst.var, bind, Except.bind, pure, Except.pure]

theorem varType (hst : h.Stands id t w) : h.varType id = .ok w.payload.varType := by
  simp [Heap.varType, hst.payload, bind, Except.bind, pure, Except.pure]

-- A constant stands for itself.
theorem frozen (hst : h.Stands id t w) (hf : h.Frozen id) :
    t = id ∧ w.writeProtected = true ∧ ∃ n, w.payload = .numeric n := by
  obtain ⟨v, hv, hp, -, n, hn⟩ := hf
  rcases hst.self_or_link with rfl | ⟨u, hu, ht⟩
  · have := hst.var
    rw [hv] at this
    cases this
    exact ⟨rfl, hp, n, hn⟩
  · rw [hv] at hu
    cases hu
    rw [hn] at ht
    cases ht

-- What may be written to is not left alone.
theorem not_mem_of_writable (hst : h.Stands id t w) (hc : h.Closed K) (hsafe : Safe K h id)
    (hp : w.writeProtected = false) : ¬K t := by
  intro hk
  obtain ⟨-, hp', -⟩ := hst.frozen (hsafe ((hst.closed hc).mpr hk))
  rw [hp] at hp'
  cases hp'

theorem not_mem_of_payload (hst : h.Stands id t w) (hc : h.Closed K) (hsafe : Safe K h id)
    (hp : ∀ n, w.payload ≠ .numeric n) : ¬K t := by
  intro hk
  obtain ⟨-, -, n, hn⟩ := hst.frozen (hsafe ((hst.closed hc).mpr hk))
  exact hp n hn

theorem unique {w' : Variable} {t' : VarId} (hst : h.Stands id t w) (hst' : h.Stands id t' w') :
    t = t' ∧ w = w' := by
  have ht := hst.resolve.symm.trans hst'.resolve
  cases ht
  have hw := hst.var.symm.trans hst'.var
  cases hw
  exact ⟨rfl, rfl⟩

theorem writable (hst : h.Stands id t w) :
    h.writable id = .ok (t, w) ∧ w.writeProtected = false ∨
      h.writable id = .error (.of .writeProtected) := by
  obtain ⟨v, hv⟩ := hst.live
  by_cases hp : v.writeProtected = true
  · right
    simp [Heap.writable, hst.resolve, lookup_eq hv, hp, bind, Except.bind, throw, throwThe,
      MonadExceptOf.throw]
  · by_cases hp' : w.writeProtected = true
    · right
      simp [Heap.writable, hst.resolve, lookup_eq hv, lookup_eq hst.var, hp, hp', bind, Except.bind,
        throw, throwThe, MonadExceptOf.throw]
    · left
      simp [Heap.writable, hst.resolve, lookup_eq hv, lookup_eq hst.var, hp, hp', bind, Except.bind,
        pure, Except.pure]

end Stands

theorem isLeftValue_eq (hv : h.var? id = some v) : h.isLeftValue id = .ok v.leftValue := by
  simp [isLeftValue, lookup_eq hv, bind, Except.bind, pure, Except.pure]

-- The flag of the handle and the flag of what it stands for both protect.
theorem Stands.isWriteProtected (hst : h.Stands id t w) (hv : h.var? id = some v) :
    h.isWriteProtected id = .ok (v.writeProtected || w.writeProtected) := by
  simp [Heap.isWriteProtected, hst.resolve, lookup_eq hv, lookup_eq hst.var, bind, Except.bind, pure,
    Except.pure]

theorem read_resolve_iff {Q : VarId → Heap → Prop} (hst : h.Stands id t w) :
    Ensures (read (·.resolve id)) h Q E ↔ Q t h :=
  read_ok (f := fun h => h.resolve id) hst.resolve

-- Writing through a handle is refused, or reaches what it stands for.
theorem read_writable {Q : VarId × Variable → Heap → Prop} (hst : h.Stands id t w)
    (hq : w.writeProtected = false → Q (t, w) h) :
    Ensures (read (·.writable id)) h Q (Refused h) := by
  rcases hst.writable with ⟨hok, hp⟩ | herr
  · exact (read_ok (f := fun h => h.writable id) hok).mpr (hq hp)
  · refine (read_error (f := fun h => h.writable id) herr).mpr ⟨rfl, ?_⟩
    simp [Cause.Ordinary, Failure.of, Cause.kind]

theorem toValueWithin_ok (hs : h.Forest loose) {n : Nat} (hw : h.Within n id)
    (hv : h.var? id = some v) (hl : ∀ t, v.payload ≠ .link t) :
    ∃ value, h.toValueWithin n id = .ok value := by
  induction n generalizing id v with
  | zero => exact hw.elim
  | succ n ih =>
    obtain ⟨u, hu, hel⟩ := hw
    rw [hv] at hu
    cases hu
    have hpay : h.payload id = .ok v.payload := by
      simp [payload, resolve_eq_self hv hl, lookup_eq hv, bind, Except.bind, pure, Except.pure]
    unfold toValueWithin
    simp only [hpay, bind, Except.bind]
    rcases hp : v.payload with _ | _ | _ | _ | items | t
    case link => exact absurd hp (hl t)
    case array =>
      have hin : ∀ c ∈ items.toList, c ∈ v.payload.elements := fun c hc => by
        rw [hp]
        exact Array.mem_toList_iff.mp hc
      obtain ⟨values, hvalues⟩ := exists_mapM_ok fun c hc => by
        obtain ⟨w, hw, -, hno⟩ := hs.element ⟨v, hv, hin c hc⟩
        exact ih (hel c (hin c hc)) hw hno
      exact ⟨.array values, by simp [hvalues, pure, Except.pure]⟩
    all_goals exact ⟨_, rfl⟩

-- Every variable has a value.
theorem Sound.toValue_ok (hs : h.Sound loose strict) (hl : h.Live id) :
    ∃ value, h.toValue id = .ok value := by
  obtain ⟨t, w, hst⟩ := hs.stands hl
  have hw := hs.forest.within ⟨w, hst.var⟩
  obtain ⟨value, hvalue⟩ := toValueWithin_ok hs.forest hw hst.var hst.no_link
  refine ⟨value, ?_⟩
  have htarget : h.payload t = .ok w.payload := by
    simp [payload, resolve_eq_self hst.var hst.no_link, lookup_eq hst.var, bind, Except.bind, pure,
      Except.pure]
  rw [toValue, walkBudget]
  rw [walkBudget] at hvalue
  unfold toValueWithin at hvalue ⊢
  rw [hst.payload]
  rw [htarget] at hvalue
  exact hvalue

theorem Sound.toBool_ok (hs : h.Sound loose strict) (hl : h.Live id) : ∃ b, h.toBool id = .ok b := by
  obtain ⟨t, w, hst⟩ := hs.stands hl
  unfold toBool
  simp only [hst.payload, bind, Except.bind]
  split <;> exact ⟨_, rfl⟩

theorem read_toValue (hs : h.Sound loose strict) (hl : h.Live id) {Q : Value → Heap → Prop}
    (hq : ∀ value, Q value h) : Ensures (read (·.toValue id)) h Q E := by
  obtain ⟨value, hvalue⟩ := hs.toValue_ok hl
  exact (read_ok (f := fun h => h.toValue id) hvalue).mpr (hq value)

-- The walk along owners ends, at the scope that owns the variable in depth.
private theorem owningScopeWithin_ok (hs : h.Forest []) {m n : Nat} (hd : h.Depth id m)
    (hn : m < n) :
    ∃ o, h.owningScopeWithin n id = .ok o ∧
      ∀ s r, h.OwnedBy r (.scope s) → h.Below r id → o = some s := by
  induction hd generalizing n with
  | @root c hr =>
    obtain ⟨n, rfl⟩ := Nat.exists_eq_succ_of_ne_zero (Nat.ne_zero_of_lt hn)
    obtain ⟨v, hv⟩ := hr.1
    have howner : h.owner c = .ok v.owner := by
      simp [owner, lookup_eq hv, bind, Except.bind, pure, Except.pure]
    have hself : ∀ s r, h.OwnedBy r (.scope s) → h.Below r c → v.owner = .scope s := by
      intro s r hown hb
      cases hb.eq_of_root hr.2
      exact (ownedBy_iff hv).mp hown
    simp only [owningScopeWithin, howner, bind, Except.bind, pure, Except.pure]
    rcases ho : v.owner with _ | s | p
    · exact ⟨none, rfl, fun s r hown hb => by simpa [ho] using hself s r hown hb⟩
    · exact ⟨some s, rfl, fun s' r hown hb => by simpa [ho] using hself s' r hown hb⟩
    · exact absurd ((hs.listed hv ho).resolve_left (by simp)) (hr.2 p)
  | @element p c m hd hl ih =>
    obtain ⟨n, rfl⟩ := Nat.exists_eq_succ_of_ne_zero (Nat.ne_zero_of_lt hn)
    obtain ⟨w, hw, ho, -⟩ := hs.element hl
    have howner : h.owner c = .ok (.array p) := by
      simp [owner, lookup_eq hw, ho, bind, Except.bind, pure, Except.pure]
    obtain ⟨o, heq, hall⟩ := ih (n := n) (by omega)
    refine ⟨o, by simp [owningScopeWithin, howner, heq, bind, Except.bind], fun s r hown hb => ?_⟩
    cases hb with
    | refl =>
      rw [ownedBy_iff hw, ho] at hown
      cases hown
    | step hb hl' =>
      cases hs.parent_unique hl hl'
      exact hall s r hown hb

theorem Sound.owningScope_ok (hs : h.Sound [] strict) (hl : h.Live id) :
    ∃ o, h.owningScope id = .ok o ∧ ∀ s r, h.OwnedBy r (.scope s) → h.Below r id → o = some s := by
  obtain ⟨m, hd⟩ := hs.forest.depth hl
  have hm := hs.forest.depth_lt_live hd
  have hsize := hs.forest.arena.live_le_size
  exact owningScopeWithin_ok hs.forest hd (by unfold walkBudget; omega)

theorem owningScope_of_owner {v : Variable} (hv : h.var? id = some v) :
    (v.owner = .detached → h.owningScope id = .ok none) ∧
      ∀ s, v.owner = .scope s → h.owningScope id = .ok (some s) := by
  constructor
  · intro ho
    simp [owningScope, walkBudget, owningScopeWithin, owner, lookup_eq hv, ho, bind, Except.bind,
      pure, Except.pure]
  · intro s ho
    simp [owningScope, walkBudget, owningScopeWithin, owner, lookup_eq hv, ho, bind, Except.bind,
      pure, Except.pure]

-- Reading never changes anything.
theorem read_ensures {f : Heap → Except Failure α}
    (hf : ∀ e, f h = .error e → e.cause.Ordinary) (hq : ∀ a, f h = .ok a → Q a h) :
    Ensures (read f) h Q (Refused h) := by
  rcases hx : f h with e | a
  · exact (read_error hx).mpr ⟨rfl, hf e hx⟩
  · exact (read_ok hx).mpr (hq a hx)

end Heap

end FinLang

import FinLang.Proofs.Heap.Confined
import FinLang.Proofs.Operation

namespace FinLang

namespace Heap

variable {h h' h₁ : Heap} {strict : Prop} {T tops : VarId → Prop} {id r t c x : VarId} {v w : Variable}

-- A link has the flag of what it points to.
def LinksFlagged (h : Heap) : Prop :=
  ∀ l v t w, h.var? l = some v → v.payload = .link t → h.var? t = some w → v.leftValue = w.leftValue

-- So a handle has the flag of what it stands for.
theorem LinksFlagged.stands (hl : h.LinksFlagged) (hst : h.Stands id t w) (hv : h.var? id = some v) :
    v.leftValue = w.leftValue := by
  rcases hst.self_or_link with rfl | ⟨u, hu, hlink⟩
  · cases hv.symm.trans hst.var
    rfl
  · cases hv.symm.trans hu
    exact hl id v t w hv hlink hst.var

theorem linkedTemporary_linksFlagged : linkedTemporary.LinksFlagged := by
  intro l v t w hv hlink hw
  have hl : l ∈ linkedTemporary.arena.handles := Arena.mem_handles.mpr ⟨v, hv⟩
  have hall : linkedTemporary.arena.handles = [⟨0, 0⟩, ⟨1, 0⟩, ⟨2, 0⟩, ⟨3, 0⟩] := rfl
  simp only [hall, List.mem_cons, List.not_mem_nil, or_false] at hl
  rcases hl with rfl | rfl | rfl | rfl
  · cases hv
    cases hlink
  · cases hv
    cases hlink
  · cases hv
    cases hlink
  · cases hv
    cases hlink
    cases hw
    rfl

-- What is in no tree that is written to keeps its value and its flags.
theorem Confined.kept (hc : Confined (fun y => ∃ top, tops top ∧ h.Below top y) h h')
    (hs : h.Sound [] strict) (hs' : h'.Sound [] strict) (hv : h.var? x = some v)
    (hno : ∀ t, v.payload ≠ .link t)
    (hroot : ∀ root top, h.Root root → h.Below root x → tops top → ¬h.Below root top) :
    h'.toValue x = h.toValue x ∧ Stays h h' x := by
  obtain ⟨root, hr, hrx⟩ := hs.forest.exists_root ⟨v, hv⟩
  have hout : ∀ y, h.Below x y → ¬∃ top, tops top ∧ h.Below top y := by
    rintro y hxy ⟨top, htop, hty⟩
    apply hroot root top hr hrx htop
    rcases hs.forest.comparable (hrx.trans hxy) hty with hb | hb
    · exact hb
    · rw [hb.eq_of_root hr.2]
      exact .refl
  exact ⟨hc.toValue hs hs' hv hno hout, hc.stays (hout x .refl)⟩

-- A new temporary, and nothing else has changed.
structure Made (h : Heap) (r : VarId) (h' : Heap) : Prop where
  fresh : h.var? r = none
  record : ∃ p, h'.var? r = some (.temporary p)
  others : ∀ x, x ≠ r → h'.var? x = h.var? x

theorem Made.same (hm : Made h r h') (hv : h.var? x = some v) : h'.var? x = some v := by
  rw [hm.others x, hv]
  rintro rfl
  cases hm.fresh.symm.trans hv

theorem Made.detached (hm : Made h r h') : h'.Detached r := by
  obtain ⟨p, hp⟩ := hm.record
  exact ⟨_, hp, rfl⟩

theorem Made.live (hm : Made h r h') : h'.Live r := by
  obtain ⟨p, hp⟩ := hm.record
  exact ⟨_, hp⟩

-- An element has been looked up in an array. It may have grown for it, by null elements, and the
-- element may have been taken out.
structure Accessed (h : Heap) (t r : VarId) (h' : Heap) : Prop where
  array : ∀ w, h.var? t = some w → ∃ p, h'.var? t = some { w with payload := p }
  others : ∀ x v, x ≠ t → h.var? x = some v →
    h'.var? x = some v ∨ x = r ∧ h.Lists t r ∧ h'.var? x = some { v with owner := .detached }
  added : ∀ x u, h.var? x = none → h'.var? x = some u →
    u.payload = .null ∧ (h'.Lists t x ∨ x = r ∧ u.owner = .detached)
  item : h'.Lists t r ∨ (h.Lists t r ∨ h.var? r = none) ∧ h'.Detached r

theorem Accessed.confined (ha : Accessed h t r h') (hl : h.Linked) : Confined (h.Below t) h h' := by
  have hlive : ∀ {x}, h.Live x → h'.Live x := by
    rintro x ⟨v, hv⟩
    by_cases hx : x = t
    · subst hx
      obtain ⟨p, hp⟩ := ha.array v hv
      exact ⟨_, hp⟩
    · rcases ha.others x v hx hv with hv' | ⟨-, -, hv'⟩
      · exact ⟨_, hv'⟩
      · exact ⟨_, hv'⟩
  refine .of_same hl (fun x v hx hv => ?_) hlive
  have hne : x ≠ t := fun he => hx (he ▸ .refl)
  rcases ha.others x v hne hv with hv' | ⟨rfl, hlist, -⟩
  · exact hv'
  · exact absurd (Below.refl.step hlist) hx

section

variable {K : VarId → Prop} {i : Nat}

-- An element that stays in its array.
theorem Reached.accessed (hr : Reached K h t w i c h' strict) (hw : h.var? t = some w) :
    Accessed h t c h' := by
  obtain ⟨p, hp, -, hget⟩ := hr.record
  refine ⟨fun u hu => ?_, fun x v hx hv => .inl (hr.others x v hx hv), fun x u hx hu => ?_,
    .inl ⟨_, hp, Array.mem_of_getElem? hget⟩⟩
  · cases hw.symm.trans hu
    exact ⟨p, hp⟩
  · obtain ⟨rfl, hlist⟩ := hr.added x u hx hu
    exact ⟨rfl, .inl hlist⟩

-- An element that has been taken out.
theorem Reached.taken {p : Payload} (hr : Reached K h t w i c h₁ strict) (hs : h.Sound [] strict)
    (hw : h.var? t = some w) (hlist : h₁.Lists t c) (hs' : h'.Sound [] strict)
    (ht : Taken h₁ t { w with payload := p } c h') (hd : h'.Detached c) : Accessed h t c h' := by
  obtain ⟨u, hu, ho, -⟩ := hr.step.sound.forest.element hlist
  have hct : c ≠ t := fun he => hr.step.sound.forest.not_below_of_lists hlist (he ▸ .refl)
  -- An element that has not been made now was one before.
  have hold : ∀ v, h.var? c = some v → h.Lists t c := by
    intro v hv
    cases (hr.others c v hct hv).symm.trans hu
    exact (hs.forest.listed hv ho).resolve_left (by simp)
  refine ⟨fun u' hu' => ?_, fun x v hx hv => ?_, fun x u' hx hu' => ?_, .inr ⟨?_, hd⟩⟩
  · cases hw.symm.trans hu'
    obtain ⟨q, hq⟩ := ht.array
    exact ⟨q, hq⟩
  · have hv₁ := hr.others x v hx hv
    by_cases hxc : x = c
    · subst hxc
      exact .inr ⟨rfl, hold v hv, ht.element v hv₁⟩
    · exact .inl (ht.others x v hx hxc hv₁)
  · have hxt : x ≠ t := by
      rintro rfl
      cases hx.symm.trans hw
    rcases hx₁ : h₁.var? x with _ | u₁
    · obtain ⟨rfl, hl⟩ := ht.added x u' hx₁ hu'
      exact ⟨rfl, .inl hl⟩
    · obtain ⟨rfl, -⟩ := hr.added x u₁ hx hx₁
      by_cases hxc : x = c
      · subst hxc
        cases (ht.element _ hx₁).symm.trans hu'
        exact ⟨rfl, .inr ⟨rfl, rfl⟩⟩
      · cases (ht.others x _ hxt hxc hx₁).symm.trans hu'
        exact ⟨rfl, .inl ((hs'.forest.listed hu' rfl).resolve_left (by simp))⟩
  · rcases hv : h.var? c with _ | v
    · exact .inr rfl
    · exact .inl (hold v hv)

end

end Heap

namespace Operation

open Heap

-- The tops of the trees that an operator may write in: what its first operand stands for, and for
-- an assignment the temporary array that is to lose its elements.
inductive Touched (h : Heap) (op : Operator) (operands : List VarId) : VarId → Prop
  | target {a t : VarId} : op.computes = false → op ≠ .comma → operands.head? = some a →
      h.resolve a = .ok t → Touched h op operands t
  | source {a b g : VarId} {u : Variable} : op = .assign → operands = [a, b] → h.resolve b = .ok g →
      h.var? g = some u → isSpare u = true → Touched h op operands g

-- What an operator that has succeeded has changed, and what it gives back.
structure Framed (h : Heap) (op : Operator) (operands : List VarId) (r : VarId) (h' : Heap) : Prop where
  sound : h'.Sound [] False
  made : op.computes = true → Made h r h'
  comma : op = .comma → h' = h
  accessed : op = .access → ∃ a t, operands.head? = some a ∧ h.resolve a = .ok t ∧ Accessed h t r h'
  confined : Confined (fun x => ∃ top, Touched h op operands top ∧ h.Below top x) h h'
  live : h'.Live r
  result : h.var? r = none ∧ h'.Detached r ∨ r ∈ operands ∨
    ∃ a t, operands.head? = some a ∧ h.resolve a = .ok t ∧ (h'.Lists t r ∨ h.Lists t r ∧ h'.Detached r)

variable {h h' h₁ : Heap} {op : Operator} {a b r t : VarId} {w : Variable} {operands : List VarId}
  {symbol : String} {delta : Float}

theorem Computed.made (hcomp : Computed h r h') (hs : h.Sound [] False) : Made h r h' := by
  obtain ⟨p, -, -, rfl, rfl⟩ := hcomp.added
  refine ⟨hs.forest.var?_fresh _, ⟨p, by rw [hs.forest.var?_added, if_pos rfl]⟩, fun x hx => ?_⟩
  rw [hs.forest.var?_added, if_neg hx]

theorem Computed.framed (hcomp : Computed h r h') (hs : h.Sound [] False) (hop : op.computes = true) :
    Framed h op operands r h' := by
  have hm := hcomp.made hs
  refine ⟨(hcomp.temporary hs closed_nothing).step.sound, fun _ => hm, ?_, ?_,
    .of_same hs.linked (fun _ _ _ hv => hm.same hv) ?_, ?_, .inl ⟨hm.fresh, hm.detached⟩⟩
  · rintro rfl
    cases hop
  · rintro rfl
    cases hop
  · rintro x ⟨v, hv⟩
    exact ⟨v, hm.same hv⟩
  · exact hm.live

section

variable (hs : h.Sound [] False)

include hs

-- A step changes one variable.
theorem step_changes {Q : Float → Heap → Prop} (ha : h.Live a)
    (hq : ∀ n t h₁, h.resolve a = .ok t → h₁.Sound [] False →
      (∃ p, h₁ = h.change t fun v => { v with payload := p }) → Q n h₁) :
    Ensures (step symbol delta a) h Q (Refused h) := by
  obtain ⟨t, w, hst⟩ := hs.stands ha
  obtain ⟨v, hv⟩ := ha
  refine step_checked hst hv fun n _ => ?_
  have hwritten := setScalar_ensures (p := .numeric (n + delta)) hs closed_nothing False.elim hst
    (by simp [Payload.varType]) (by simp)
  refine (hwritten.and (setScalar_changes hst)).mono ?_ fun _ _ he => he.1
  rintro _ h' ⟨hw, -, -, he⟩
  exact hq n t h' hst.resolve hw.step.sound ⟨_, he⟩

theorem stepBefore_framed (hop : op = .preIncrement ∨ op = .preDecrement) (ha : h.Live a) :
    Ensures (stepBefore symbol delta a) h (Framed h op [a]) (Refused h) := by
  rw [stepBefore, Ensures.bind_iff]
  refine step_changes hs ha fun n t h₁ hr hs₁ hwritten => ?_
  obtain ⟨p, rfl⟩ := hwritten
  have htop : Touched h op [a] t := by
    rcases hop with rfl | rfl <;> exact .target rfl (by simp) rfl hr
  refine ⟨hs₁, ?_, ?_, ?_, .change hs.linked ⟨t, htop, .refl⟩, (maps_change _).live.mpr ha,
    .inr (.inl (by simp))⟩
  all_goals rcases hop with rfl | rfl <;> intro hother <;> cases hother

theorem stepAfter_framed (hop : op = .postIncrement ∨ op = .postDecrement) (ha : h.Live a) :
    Ensures (stepAfter symbol delta a) h (Framed h op [a]) (Refused h) := by
  rw [stepAfter, Ensures.bind_iff]
  refine step_changes hs ha fun n t h₁ hr hs₁ hwritten => ?_
  obtain ⟨p, he⟩ := hwritten
  have hm₁ : Maps _ h h₁ := he ▸ maps_change _
  have htop : Touched h op [a] t := by
    rcases hop with rfl | rfl <;> exact .target rfl (by simp) rfl hr
  refine (allocNumeric_computes n).mono ?_ fun _ _ he => he
  intro r h' hcomp
  have hm := hcomp.made hs₁
  have hlive : ∀ {x}, h.Live x → h'.Live x := by
    intro x hx
    obtain ⟨v, hv⟩ := hm₁.live.mpr hx
    exact ⟨v, hm.same hv⟩
  have hfresh : h.var? r = none := by
    rcases hv : h.var? r with _ | v
    · rfl
    · obtain ⟨u, hu⟩ := hm₁.live.mpr ⟨v, hv⟩
      cases hm.fresh.symm.trans hu
  refine ⟨(hcomp.temporary hs₁ closed_nothing).step.sound, ?_, ?_, ?_,
    .of_same hs.linked (fun x v hx hv => hm.same ?_) hlive, hm.live,
    .inl ⟨hfresh, hm.detached⟩⟩
  case refine_4 =>
    rw [he, var?_change, if_neg, hv]
    rintro rfl
    exact hx ⟨_, htop, .refl⟩
  all_goals rcases hop with rfl | rfl <;> intro hother <;> cases hother

theorem assign_framed (hlinks : h.LinksFlagged) (ha : h.Live a) (hb : h.Live b) :
    Ensures (assign a b) h (Framed h .assign [a, b]) (Refused h) := by
  obtain ⟨t, w, hst⟩ := hs.stands ha
  obtain ⟨g, u, hst'⟩ := hs.stands hb
  obtain ⟨v, hv⟩ := ha
  refine assign_checked hst hv fun hl => ?_
  have hleft : w.leftValue = true := (hlinks.stands hst hv).symm.trans hl
  have hwritten := moveOrCopy_ensures hs closed_nothing False.elim False.elim hst hst' hleft
  refine (hwritten.and (moveOrCopy_confined hs hst hst' hleft)).mono ?_ fun _ _ he => he.1
  rintro _ h' ⟨hw, hc⟩
  obtain ⟨v', hv', -⟩ := hw.stays v hv
  refine ⟨hw.step.sound, nofun, nofun, nofun, hc.mono ?_, ⟨v', hv'⟩, .inr (.inl (by simp))⟩
  rintro x (hx | ⟨hspare, hx⟩)
  · exact ⟨t, .target rfl nofun rfl hst.resolve, hx⟩
  · exact ⟨g, .source rfl rfl hst'.resolve hst'.var hspare, hx⟩

theorem access_framed (ha : h.Live a) (hb : h.Live b) :
    Ensures (access a b) h (Framed h .access [a, b]) (Refused h) := by
  obtain ⟨t, w, hst⟩ := hs.stands ha
  refine access_checked hs hst hb fun i _ => ?_
  refine (item_ensures hs closed_nothing hst not_false).mono ?_ fun _ _ he => he
  rintro r h' ⟨h₁, hr, -, hlist, hcase⟩
  -- In both cases the array is all that is touched.
  suffices hacc : Accessed h t r h' ∧ h'.Sound [] False ∧ h'.Live r by
    obtain ⟨hacc, hs', hlive⟩ := hacc
    refine ⟨hs', nofun, nofun, fun _ => ⟨a, t, rfl, hst.resolve, hacc⟩,
      (hacc.confined hs.linked).mono fun x hx => ⟨t, .target rfl nofun rfl hst.resolve, hx⟩, hlive, ?_⟩
    rcases hacc.item with hl | ⟨hl | hl, hd⟩
    · exact .inr (.inr ⟨a, t, rfl, hst.resolve, .inl hl⟩)
    · exact .inr (.inr ⟨a, t, rfl, hst.resolve, .inr ⟨hl, hd⟩⟩)
    · exact .inl ⟨hl, hd⟩
  rcases hcase with ⟨rfl, u, hu, -⟩ | ⟨hstep, hheld, p, htaken⟩
  · exact ⟨hr.accessed hst.var, hr.step.sound, u, hu⟩
  · obtain ⟨u, hu, -⟩ := hr.step.sound.forest.element hlist
    exact ⟨hr.taken hs hst.var hlist hstep.sound htaken ⟨_, htaken.element u hu, rfl⟩, hstep.sound,
      hheld.live⟩

theorem unary_framed (ha : h.Live a) :
    Ensures (unary op a) h (Framed h op [a]) (Refused h) := by
  by_cases hop : op.computes = true
  · exact (unary_computes hs hop ha).mono (fun _ _ hcomp => hcomp.framed hs hop) fun _ _ he => he
  · cases op with
    | preIncrement => exact stepBefore_framed hs (.inl rfl) ha
    | preDecrement => exact stepBefore_framed hs (.inr rfl) ha
    | postIncrement => exact stepAfter_framed hs (.inl rfl) ha
    | postDecrement => exact stepAfter_framed hs (.inr rfl) ha
    | assign | comma | access => exact fail_iff.mpr ⟨rfl, nofun, nofun⟩
    | _ => exact absurd rfl hop

theorem binary_framed (hlinks : h.LinksFlagged) (ha : h.Live a) (hb : h.Live b) :
    Ensures (binary op a b) h (Framed h op [a, b]) (Refused h) := by
  by_cases hop : op.computes = true
  · exact (binary_computes hs hop ha hb).mono (fun _ _ hcomp => hcomp.framed hs hop) fun _ _ he => he
  · cases op with
    | assign => exact assign_framed hs hlinks ha hb
    | comma =>
      exact ⟨hs, nofun, fun _ => rfl, nofun, .refl hs.linked, hb, .inr (.inl (by simp))⟩
    | access => exact access_framed hs ha hb
    | preIncrement | preDecrement | postIncrement | postDecrement =>
      exact fail_iff.mpr ⟨rfl, nofun, nofun⟩
    | _ => exact absurd rfl hop

-- An operator on operands in use.
theorem calculate_outcome (hlinks : h.LinksFlagged) (hlive : ∀ x ∈ operands, h.Live x) :
    Ensures (calculate op operands) h (Framed h op operands) (fun _ h' => h' = h) := by
  unfold calculate
  split
  · exact fail_iff.mpr rfl
  · split
    · exact (unary_framed hs (hlive _ (by simp))).mono (fun _ _ hf => hf) fun _ _ he => he.1
    · exact (binary_framed hs hlinks (hlive _ (by simp)) (hlive _ (by simp))).mono
        (fun _ _ hf => hf) fun _ _ he => he.1
    · exact fail_iff.mpr rfl

-- On whatever operands, an operator that fails has changed nothing.
theorem calculate_atomic (hlinks : h.LinksFlagged) (operands : List VarId) :
    Ensures (calculate op operands) h (fun _ _ => True) (fun _ h' => h' = h) := by
  by_cases hlive : ∀ x ∈ operands, h.Live x
  · exact (calculate_outcome hs hlinks hlive).mono (fun _ _ _ => trivial) fun _ _ he => he
  unfold calculate
  split
  · exact fail_iff.mpr rfl
  rename_i harity
  split
  · exact (unary_stale (by simpa using hlive)).mono (fun _ _ => False.elim) fun _ _ he => he
  · rename_i a b
    by_cases hop : op = .comma
    · subst hop
      trivial
    by_cases ha : h.Live a
    · have hb : ¬h.Live b := fun hb => hlive (by simp [ha, hb])
      exact (binary_stale_second hb hop).mono (fun _ _ => False.elim) fun _ _ he => he
    · exact (binary_stale ha harity hop).mono (fun _ _ => False.elim) fun _ _ he => he.2
  · exact fail_iff.mpr rfl

end

-- An operator that succeeds changes no more than it has to. What lies in other trees than those it
-- writes in keeps its value and its flags.
theorem calculate_framed (hs : h.Sound [] False) (hlinks : h.LinksFlagged)
    (hlive : ∀ x ∈ operands, h.Live x) (hrun : (calculate op operands).run.run h = (.ok r, h')) :
    Framed h op operands r h' ∧
      ∀ x v, h.var? x = some v → (∀ t, v.payload ≠ .link t) →
        (∀ root top, h.Root root → h.Below root x → Touched h op operands top → ¬h.Below root top) →
        h'.toValue x = h.toValue x ∧ Stays h h' x := by
  have hf := (calculate_outcome hs hlinks hlive).of_ok hrun
  exact ⟨hf, fun x v hv hno hroot => hf.confined.kept hs hf.sound hv hno hroot⟩

-- A left-value gets the elements of a temporary array through a link to it.
theorem calculate_framed_assign :
    linkedTemporary.Sound [] False ∧ linkedTemporary.LinksFlagged ∧
      (∀ x ∈ [⟨0, 0⟩, ⟨3, 0⟩], linkedTemporary.Live x) ∧
      ∃ h', (calculate .assign [⟨0, 0⟩, ⟨3, 0⟩]).run.run linkedTemporary = (.ok ⟨0, 0⟩, h') ∧
        Framed linkedTemporary .assign [⟨0, 0⟩, ⟨3, 0⟩] ⟨0, 0⟩ h' := by
  have hs := linkedTemporary_arises.sound
  have hlive : ∀ x ∈ [⟨0, 0⟩, ⟨3, 0⟩], linkedTemporary.Live x := by
    simp only [List.mem_cons, List.not_mem_nil, or_false]
    rintro x (rfl | rfl)
    · exact ⟨_, rfl⟩
    · exact ⟨_, rfl⟩
  have hrun : (calculate .assign [⟨0, 0⟩, ⟨3, 0⟩]).run.run linkedTemporary = (.ok ⟨0, 0⟩, _) := rfl
  exact ⟨hs, linkedTemporary_linksFlagged, hlive, _, hrun,
    (calculate_framed hs linkedTemporary_linksFlagged hlive hrun).1⟩

-- An operator that fails has changed nothing at all, whatever it has been given.
theorem calculate_refused {e : Failure} (hs : h.Sound [] False) (hlinks : h.LinksFlagged)
    (hrun : (calculate op operands).run.run h = (.error e, h')) : h' = h :=
  (calculate_atomic hs hlinks operands).of_error hrun

-- The array is as long as before where the index is no number any more.
theorem calculate_refused_access :
    linkedTemporary.Sound [] False ∧ linkedTemporary.LinksFlagged ∧
      (calculate .access [⟨2, 0⟩, ⟨9, 0⟩]).run.run linkedTemporary =
        (.error (.of (.staleVariable ⟨9, 0⟩)), linkedTemporary) := by
  have hs := linkedTemporary_arises.sound
  have hrun : (calculate .access [⟨2, 0⟩, ⟨9, 0⟩]).run.run linkedTemporary =
      (.error (.of (.staleVariable ⟨9, 0⟩)), _) := rfl
  have hsame := calculate_refused hs linkedTemporary_linksFlagged hrun
  exact ⟨hs, linkedTemporary_linksFlagged, hrun.trans (by rw [hsame])⟩

end Operation

end FinLang

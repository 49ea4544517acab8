import FinLang.Proofs.Heap.Felled
import FinLang.Proofs.Machine.Standing

namespace FinLang

open Heap (Felled)

-- What has become of a variable on its way: nothing where there was none, or one that is there and
-- reads the same.
def Heap.Hands (h h' : Heap) : Option VarId → Option VarId → Prop :=
  Option.Rel fun x y => h'.Held y ∧ h'.toValue y = h.toValue x

namespace Run

-- Nothing has been printed or bound, and what is bound reads as before.
structure Recedes (r r' : Run) : Prop where
  output : r'.machine.output = r.machine.output
  console : r'.machine.console = r.machine.console
  scopes : ∀ {s sc}, r'.scope? s = some sc → r.scope? s = some sc
  values : ∀ {s sc name x}, r'.scope? s = some sc → (name, x) ∈ sc.vars →
    r'.heap.toValue x = r.heap.toValue x

-- A run on its way out with what it takes along.
structure Unwinds (r r' : Run) : Prop where
  fine : r'.Fine
  recedes : r.Recedes r'
  hands : r.heap.Hands r'.heap r.flow.result r'.flow.result

-- What was to be taken along is no more.
def Lost (r : Run) : Prop :=
  ∃ x ∈ r.flow.result, ¬r.heap.Held x

-- A run on its way out that may have lost what it took along.
structure Drifts (r r' : Run) : Prop where
  fine : r'.Fine
  recedes : r.Recedes r'
  hands : r.heap.Hands r'.heap r.flow.result r'.flow.result ∨ r.flow.result ≠ none ∧ r'.Lost

end Run

variable {n : ScopeId} {r r₀ r₁ r' r'' : Run} {x y : VarId} {h h' h'' : Heap}
  {E : Halt → Run → Prop} {o o' o'' : Option VarId} {R : VarId → Prop}

-- A scope whose time has come. All other scopes are as they were before it, and new links are its
-- own.
structure Closing (n : ScopeId) (r r' : Run) : Prop where
  fine : r'.Fine
  fresh : r.scope? n = none
  live : ∃ sc, r'.scope? n = some sc
  others : ∀ s, s ≠ n → r'.scope? s = r.scope? s
  links : Linking n r r'

theorem Opened.closing (ho : Opened n r r') : Closing n r r' :=
  ⟨ho.fine, ho.fresh, ho.live, ho.others, ho.links⟩

namespace Closing

variable (hc : Closing n r₀ r)
include hc

theorem congr {flow : Flow} {last : Option VarId} : Closing n r₀ ⟨r.machine, flow, last⟩ :=
  ⟨⟨hc.fine.sound, hc.fine.depth⟩, hc.fresh, hc.live, hc.others, hc.links⟩

theorem moves {P : Permit} (hm : Moves P r r') (hP : P.scope = n) : Closing n r₀ r' where
  fine := hm.fine
  fresh := hc.fresh
  live := hm.live hc.live
  others s hs := (hm.others s (hP ▸ hs)).trans (hc.others s hs)
  links := hP ▸ hm.linking hc.fine (hP.symm ▸ hc.links)

-- Where no link is made and the scopes stay, each variable still has its owner.
theorem unlinking (hf : r'.Fine) (hs : ∀ s, r'.scope? s = r.scope? s)
    (hl : r.heap.Unlinking r'.heap) : Closing n r₀ r' where
  fine := hf
  fresh := hc.fresh
  live := hs n ▸ hc.live
  others s hne := (hs s).trans (hc.others s hne)
  links l t hp := by
    have howned : ∀ {x s}, r.heap.OwnedBy x (.scope s) → r'.heap.OwnedBy x (.scope s) := fun hx =>
      have ⟨sc, name, hsc, hin⟩ := hc.fine.sound.owned hx
      hf.sound.bound ((hs _).trans hsc) hin
    exact (hc.links l t (hl l t hp)).imp_right fun ⟨hk, ht⟩ =>
      ⟨howned hk, ht.imp_left fun ⟨s, h⟩ => ⟨s, howned h⟩⟩

theorem calm (h : Calm r r') : Closing n r₀ r' :=
  hc.unlinking h.fine h.scopes h.links

theorem still {J : (VarId → Prop) → Prop} (h : Still J r r') : Closing n r₀ r' :=
  hc.unlinking h.fine h.scopes h.links

-- What another scope owns is not touched.
theorem owned {s : ScopeId} (hf : r₀.Fine) (hx : r₀.heap.OwnedBy x (.scope s)) :
    s ≠ n ∧ r.heap.OwnedBy x (.scope s) := by
  obtain ⟨sc, name, hsc, hin⟩ := hf.sound.owned hx
  have hne : s ≠ n := by
    rintro rfl
    cases hc.fresh.symm.trans hsc
  exact ⟨hne, hc.fine.sound.bound ((hc.others s hne).trans hsc) hin⟩

end Closing

namespace Heap.Hands

theorem refl (ho : ∀ x ∈ o, h.Held x) : h.Hands h o o := by
  cases o with
  | none => exact .none
  | some x => exact .some ⟨ho x rfl, rfl⟩

theorem trans (h₁ : h.Hands h' o o') (h₂ : h'.Hands h'' o' o'') : h.Hands h'' o o'' := by
  cases h₁ with
  | none => cases h₂; exact .none
  | some hx =>
    cases h₂ with
    | some hy => exact .some ⟨hy.1, hy.2.trans hx.2⟩

theorem held (hh : h.Hands h' o o') : ∀ y ∈ o', h'.Held y := by
  rintro y hy
  cases hh with
  | none => cases hy
  | some hx => exact Option.some.inj hy ▸ hx.1

theorem eq_none_iff (hh : h.Hands h' o o') : o' = none ↔ o = none := by
  cases hh <;> simp

end Heap.Hands

namespace Run

theorem Recedes.refl : r.Recedes r :=
  ⟨rfl, rfl, id, fun _ _ => rfl⟩

theorem Recedes.trans (h₁ : r.Recedes r') (h₂ : r'.Recedes r'') : r.Recedes r'' where
  output := h₂.output.trans h₁.output
  console := h₂.console.trans h₁.console
  scopes hsc := h₁.scopes (h₂.scopes hsc)
  values hsc hin := (h₂.values hsc hin).trans (h₁.values (h₂.scopes hsc) hin)

-- Only the machine matters.
theorem Recedes.congr {flow : Flow} {last : Option VarId} (h : r.Recedes r') :
    r.Recedes ⟨r'.machine, flow, last⟩ :=
  ⟨h.output, h.console, h.scopes, h.values⟩

theorem Unwinds.refl (hf : r.Fine) (hheld : ∀ x ∈ r.flow.result, r.heap.Held x) : r.Unwinds r :=
  ⟨hf, .refl, .refl hheld⟩

theorem Unwinds.trans (h₁ : r.Unwinds r') (h₂ : r'.Unwinds r'') : r.Unwinds r'' :=
  ⟨h₂.fine, h₁.recedes.trans h₂.recedes, h₁.hands.trans h₂.hands⟩

-- How deep the run is does not matter.
theorem Unwinds.of_higher (hu : r.higher.Unwinds r') : r.Unwinds r' :=
  ⟨hu.fine, ⟨hu.recedes.output, hu.recedes.console, hu.recedes.scopes, hu.recedes.values⟩, hu.hands⟩

theorem Unwinds.drifts (hu : r.Unwinds r') : r.Drifts r' :=
  ⟨hu.fine, hu.recedes, .inl hu.hands⟩

-- Whoever has not lost anything still has it.
theorem Drifts.unwinds (hd : r.Drifts r') (hkept : r.flow.result ≠ none → ¬r'.Lost) : r.Unwinds r' :=
  ⟨hd.fine, hd.recedes, hd.hands.resolve_right fun h => hkept h.1 h.2⟩

end Run

section Releasing

variable (hf : r.Fine) (hR : ∀ x, R x → r.heap.Detached x) (hfell : Felled R r.heap h)
  (hs : h.Sound [])
include hf hR hfell hs

-- What is bound is no temporary, and leads to none.
theorem Heap.Felled.recedes : r.Recedes (r.withHeap h) where
  output := rfl
  console := rfl
  scopes hsc := hsc
  values {s sc name x} hsc hin := by
    obtain ⟨v, hv, ho⟩ := hf.sound.bound hsc hin
    obtain ⟨t, w, hst⟩ := hf.sound.heap.stands ⟨v, hv⟩
    have hx := hf.sound.heap.spared_of_left hR hv (hf.sound.heap.rules.bound hv (by simp) ho)
    exact hfell.toValue hf.sound.heap hs hst hx (hf.sound.heap.spared_target hR hst hx)

-- Of what waits, it may be the very variable on its way that is let go of.
theorem Heap.Felled.drifts (hu : r₁.Unwinds r) (hfine : (r.withHeap h).Fine)
    (hgone : ∀ x, R x → ¬h.Live x) : r₁.Drifts (r.withHeap h) := by
  refine ⟨hfine, hu.recedes.trans (hfell.recedes hf hR hs), ?_⟩
  have hflow : (r.withHeap h).flow = r.flow := rfl
  obtain ⟨-, -, hhands⟩ := hu
  rw [hflow]
  have hlost : ∀ {y}, r.flow.result = some y → R y → (r.withHeap h).Lost := fun {y} hres hy =>
    ⟨y, hres, fun hheld => hgone y hy hheld.live⟩
  generalize r₁.flow.result = o, r.flow.result = o' at hhands hlost
  cases hhands with
  | none => exact .inl .none
  | @some _ y hxy =>
    obtain ⟨hheld, hvalue⟩ := hxy
    by_cases hy : R y
    · exact .inr ⟨nofun, hlost rfl hy⟩
    · have hspared := hf.sound.heap.spared_of_held hR hheld hy
      obtain ⟨t, w, hst⟩ := hf.sound.heap.stands hheld.live
      have hsame := hfell.toValue hf.sound.heap hs hst hspared
        (hf.sound.heap.spared_target hR hst hspared)
      exact .inl (.some ⟨(hfell.stays hspared).held hheld, hsame.trans hvalue⟩)

end Releasing

namespace Exec

theorem release_recedes (hf : r.Fine) :
    Ensures (release x) r (fun _ r' => r.Recedes r' ∧ r'.Fine ∧ r'.flow = r.flow) E := by
  rw [release, onHeap_iff]
  refine ((Heap.release_felled (E := fun _ _ => False) hf.sound.heap).and (onHeap_iff.mp
    (release_still (x := x) (E := fun _ _ => False) hf))).mono ?_ fun _ _ he => he.1.elim
  rintro _ h ⟨⟨hs, hfell, -⟩, hstill, -⟩
  exact ⟨hfell.recedes hf (fun _ hx => hx.2) hs, hstill.fine, rfl⟩

theorem releaseOption_recedes (hf : r.Fine) :
    Ensures (o.forM release) r (fun _ r' => r.Recedes r' ∧ r'.Fine ∧ r'.flow = r.flow) E := by
  cases o with
  | none => exact ⟨.refl, hf, rfl⟩
  | some x => exact release_recedes hf

theorem releaseAll_drifts {ids : List VarId} (hu : r₁.Unwinds r) :
    Ensures (onHeap (Heap.releaseAll ids)) r (fun _ r' => r₁.Drifts r' ∧ r'.flow = r.flow) E := by
  have hf := hu.fine
  rw [onHeap_iff]
  refine ((Heap.releaseAll_felled (E := fun _ _ => False) ids hf.sound.heap).and (onHeap_iff.mp
    (releaseAll_still (E := fun _ _ => False) hf))).mono ?_ fun _ _ he => he.1.elim
  rintro _ h ⟨⟨hs, hfell, hgone⟩, hstill⟩
  exact ⟨hfell.drifts hf (fun _ hx => hx.2) hs hu hstill.fine fun x hx => hgone x hx.1 hx.2, rfl⟩

theorem release_drifts (hu : r₁.Unwinds r) :
    Ensures (release x) r (fun _ r' => r₁.Drifts r' ∧ r'.flow = r.flow) E := by
  have hone : release x = onHeap (Heap.releaseAll [x]) := by simp [release, Heap.releaseAll]
  exact hone ▸ releaseAll_drifts hu

theorem releaseOption_drifts (hu : r₁.Unwinds r) :
    Ensures (o.forM release) r (fun _ r' => r₁.Drifts r' ∧ r'.flow = r.flow) E := by
  cases o with
  | none => exact ⟨hu.drifts, rfl⟩
  | some x => exact release_drifts hu

end Exec

-- A variable on its way that is no link and does not go with a scope.
def Run.Rescued (r : Run) (n : ScopeId) : Prop :=
  ∀ y ∈ r.flow.result, r.heap.Outlives n y ∧ ∃ w, r.heap.Stands y y w

theorem Heap.Stands.toValue_target {t : VarId} {w : Variable} {loose : List VarId}
    (hst : h.Stands x t w) (hs : h.Sound loose) : h.toValue x = h.toValue t := by
  obtain ⟨value, hvalue, hshow⟩ := hs.exists_shows hst
  rw [hvalue, (hs.toValue_iff (.self hst.var hst.no_link)).mpr hshow]

namespace Exec

-- A copy that cannot be written to reads like the original.
private theorem protectedCopy_unwinds {t : VarId} {w : Variable} (hf : r.Fine)
    (hst : r.heap.Stands t t w) :
    Ensures (do
      let copy ← onHeap (Heap.duplicate t)
      onHeap (Heap.setWriteProtected copy true)
      return copy) r
      (fun y r' => r'.Fine ∧ r.Recedes r' ∧ r'.flow = r.flow ∧ r'.heap.Detached y ∧
        r'.heap.toValue y = r.heap.toValue t ∧ ∀ z v, r.heap.var? z = some v →
          r'.heap.var? z = some v) E := by
  obtain ⟨value, hvalue, -⟩ := hf.sound.heap.exists_shows hst
  rw [Ensures.bind_iff, onHeap_iff]
  refine ((Heap.duplicate_ensures (E := fun _ _ => False) (K := fun _ => False) hf.sound.heap
    (fun _ => False.elim) ⟨w, hst.var⟩).and
      (Heap.duplicate_holds (E := fun _ _ => False) hf.sound.heap hvalue)).mono ?_
    fun _ _ he => he.1.elim
  rintro y h ⟨htemp, hholds⟩
  have hs : h.Sound [] := htemp.step.sound
  have hstore : (r.withHeap h).store.Sound [] := hf.sound.step htemp.step
  obtain ⟨v, hv, ho, -, -, -, hno⟩ := htemp.record
  rw [Ensures.bind_iff, onHeap_iff, Heap.setWriteProtected]
  refine (Heap.update_iff (h := (r.withHeap h).heap) hv).mpr ?_
  have hs' : (h.change y fun v => { v with writeProtected := true }).Sound [] := hs.change_protected
  have hsame : ∀ {z}, h.Live z →
      (h.change y fun v => { v with writeProtected := true }).toValue z = h.toValue z :=
    fun hz => Heap.toValue_change_protected hs hs' hz
  refine ⟨⟨hstore.step (.change (K := fun _ => False) (T := fun _ => False) hs' False.elim fun _ => rfl), hf.depth⟩,
    ⟨rfl, rfl, id, fun {s sc name z} hsc hin => ?_⟩, rfl, ?_, ?_, fun z u hu => ?_⟩
  · obtain ⟨u, hu, -⟩ := hf.sound.bound hsc hin
    exact (hsame ⟨u, htemp.extends_ z u hu⟩).trans
      (htemp.extends_.toValue hf.sound.heap hs ⟨u, hu⟩)
  · exact ⟨{ v with writeProtected := true },
      (Heap.var?_change _ _).trans (by rw [if_pos rfl]; exact congrArg _ hv), ho⟩
  · exact ((hsame ⟨v, hv⟩).trans (hs.toValue_of_holds hholds)).trans hvalue.symm
  · have hne : z ≠ y := by
      rintro rfl
      cases htemp.fresh.symm.trans hu
    exact (Heap.var?_change _ _).trans (by rw [if_neg hne]; exact htemp.extends_ z u hu)

-- What goes with the scope is copied, and for a link goes what it leads to.
theorem rescueResult_unwinds (hf : r.Fine) (hheld : ∀ x ∈ r.flow.result, r.heap.Held x) :
    Ensures (rescueResult n) r
      (fun _ r' => r.Unwinds r' ∧ r'.Rescued n ∧ r'.flow.kind = r.flow.kind) E := by
  rw [rescueResult, Ensures.bind_iff, flow_iff]
  rcases hres : r.flow.result with _ | x
  · exact ⟨.refl hf hheld, by simp [Run.Rescued, hres], rfl⟩
  obtain ⟨v, hv, hkeeps⟩ := hheld x hres
  obtain ⟨t, w, hstands⟩ := hf.sound.heap.stands ⟨v, hv⟩
  obtain ⟨owner, ho, hown⟩ := hf.sound.heap.owningScope_ok ⟨w, hstands.var⟩
  have hself : r.heap.Stands t t w := .self hstands.var hstands.no_link
  have htarget := hstands.toValue_target hf.sound.heap
  rw [Ensures.bind_iff, readHeap_ok hstands.resolve, Ensures.bind_iff, readHeap_ok ho]
  -- A temporary that travels stands for itself.
  have hlink : t ≠ x → ¬r.heap.Detached x := by
    rintro hne ⟨u, hu, hu'⟩
    obtain ⟨v, hv, hlink⟩ := hstands.self_or_link.resolve_left hne
    cases hv.symm.trans hu
    exact hf.sound.heap.rules.plain hv (by simp) hu' t hlink
  split
  · rename_i hdoomed
    have hnd : ¬r.heap.Detached x := by
      intro hd
      have ht : t = x := by
        by_contra hne
        exact hlink hne hd
      subst ht
      obtain ⟨u, hu, hu'⟩ := hd
      cases ((Heap.owningScope_of_owner hu).1 hu').symm.trans (hdoomed ▸ ho)
    have hcopy := protectedCopy_unwinds (E := fun _ _ => False) hf hself
    rw [Ensures.bind_iff] at hcopy ⊢
    refine hcopy.mono ?_ fun _ _ => False.elim
    intro y r₁ hq
    rw [Ensures.bind_iff] at hq ⊢
    refine hq.mono ?_ fun _ _ => False.elim
    rintro _ r₂ ⟨hf₂, hrec, hflow, hd, hvalue, hsame⟩
    have hnd₂ : ¬r₂.heap.Detached x := by
      rintro ⟨u, hu, hu'⟩
      exact hnd ⟨v, hv, (Option.some.inj ((hsame x v hv).symm.trans hu)) ▸ hu'⟩
    refine (setResult_iff (hflow ▸ hres) hnd₂).mpr ⟨⟨⟨hf₂.sound, hf₂.depth⟩, ?_, ?_⟩, ?_, ?_⟩
    · exact ⟨hrec.output, hrec.console, hrec.scopes, hrec.values⟩
    · rw [hres]
      exact .some ⟨hd.held, hvalue.trans htarget.symm⟩
    · rintro z hz
      cases hz
      obtain ⟨u, hu, hu'⟩ := hd
      exact ⟨Heap.Detached.outlives ⟨u, hu, hu'⟩ hf₂.sound.heap, u,
        .self hu (hf₂.sound.heap.rules.plain hu (by simp) hu')⟩
    · rw [hflow]
  · rename_i hother
    have hout : r.heap.Outlives n t := fun root hown' hb => hother (hown n root hown' hb)
    split
    · rename_i hne
      have hleft := hstands.left hf.sound.heap.rules (by simp) hne
      refine (setResult_iff hres (hlink hne)).mpr ⟨⟨⟨hf.sound, hf.depth⟩, ⟨rfl, rfl, id, fun _ _ =>
        rfl⟩, ?_⟩, ?_, rfl⟩
      · rw [hres]
        exact .some ⟨⟨w, hstands.var, .inr hleft⟩, htarget.symm⟩
      · rintro z hz
        cases hz
        exact ⟨hout, w, hself⟩
    · rename_i heq
      have heq : t = x := by simpa using heq
      subst heq
      refine ⟨.refl hf hheld, fun y hy => ?_, rfl⟩
      cases hres.symm.trans hy
      exact ⟨hout, w, hself⟩

-- What else is bound does not lead into the scope that goes.
theorem destroy_unwinds (ho : Closing n r₀ r) (hf₀ : r₀.Fine) (ha : r₀.Anchored)
    (hu : r₁.Unwinds r) (hout : r.Rescued n) :
    Ensures (onStore (Store.destroy n)) r
      (fun _ r' => r₁.Unwinds r' ∧ r'.flow.kind = r.flow.kind) E := by
  have hf := ho.fine
  obtain ⟨sc, hsc⟩ := ho.live
  rw [onStore_iff]
  refine (Store.destroy_ensures hf.sound hsc).mono ?_ fun _ _ he => he
  rintro _ st ⟨hs, hscope, hfreed⟩
  have hroot : ∀ {x o}, r.heap.OwnedBy x (.scope o) → r.heap.Root x := fun ⟨v, hv, how⟩ =>
    hf.sound.heap.forest.root_of_owner hv (by simp [how])
  have hfell : Felled (fun x => r.heap.OwnedBy x (.scope n)) r.heap st.heap := ⟨hroot, hfreed⟩
  -- What belongs to another scope stands next to all that goes.
  have hspared : ∀ {x s}, s ≠ n → r.heap.OwnedBy x (.scope s) →
      r.heap.Spared (fun x => r.heap.OwnedBy x (.scope n)) x := by
    rintro x s hne ⟨v, hv, how⟩ top ⟨u, hu, hu'⟩ hb
    cases hb.eq_of_root (hroot ⟨v, hv, how⟩).2
    cases hv.symm.trans hu
    cases how.symm.trans hu'
    exact hne rfl
  have hrec : r.Recedes (r.withStore st) := by
    refine ⟨rfl, rfl, fun {s sc'} hsc' => ?_, fun {s sc' name x} hsc' hin => ?_⟩
    · have hsc' : st.scope? s = some sc' := hsc'
      rw [hscope] at hsc'
      split at hsc'
      · cases hsc'
      · exact hsc'
    · have hsc' : st.scope? s = some sc' := hsc'
      rw [hscope] at hsc'
      split at hsc'
      · cases hsc'
      rename_i hne
      obtain ⟨v, hv, how⟩ := hf.sound.bound hsc' hin
      obtain ⟨t, w, hst⟩ := hf.sound.heap.stands ⟨v, hv⟩
      have hx := hspared hne ⟨v, hv, how⟩
      refine hfell.toValue hf.sound.heap hs.heap hst hx ?_
      rcases hst.self_or_link with rfl | ⟨u, hu, hlink⟩
      · exact hx
      -- A link that does not go is an old one.
      have hold := (ho.links x t ⟨u, hu, hlink⟩).resolve_right fun ⟨⟨u', hu', how'⟩, _⟩ => by
        cases hv.symm.trans hu'
        cases how.symm.trans how'
        exact hne rfl
      obtain ⟨s', ht⟩ := ha x t hold
      obtain ⟨hne', ht'⟩ := ho.owned hf₀ ht
      exact hspared hne' ht'
  refine ⟨hu.trans ⟨⟨hs, hf.depth⟩, hrec, ?_⟩, rfl⟩
  have hflow : (r.withStore st).flow = r.flow := rfl
  have hheld := hu.hands.held
  unfold Run.Rescued at hout
  rw [hflow]
  generalize r.flow.result = o at hheld hout
  cases o with
  | none => exact .none
  | some y =>
    obtain ⟨hout, w, hst⟩ := hout y rfl
    exact .some ⟨(hfell.stays hout).held (hheld y rfl),
      hfell.toValue hf.sound.heap hs.heap hst hout hout⟩

-- A run on its way out leaves a scope without a failure.
theorem leaveScope_unwinds (ho : Opened n r₀ r) (hf₀ : r₀.Fine) (ha : r₀.Anchored)
    (hheld : ∀ x ∈ r.flow.result, r.heap.Held x) :
    Ensures (leaveScope n (.ok ())) r
      (fun _ r' => r.Unwinds r' ∧ r'.flow.kind = r.flow.kind) E := by
  rw [leaveScope_of_ok, Ensures.bind_iff, attempt_iff]
  refine ((rescueResult_unwinds (n := n) (E := fun _ _ => False) ho.fine hheld).and
    (rescueResult_calm ho.fine)).mono ?_ fun _ _ he => he.1.elim
  rintro _ r' ⟨⟨hu, hout, hkind⟩, hc⟩
  show Ensures (attempt (onStore (Store.destroy n)) >>= ofExcept) r' _ _
  rw [Ensures.bind_iff, attempt_iff]
  refine (destroy_unwinds (E := fun _ _ => False) (ho.closing.calm hc) hf₀ ha hu hout).mono ?_
    fun _ _ => False.elim
  rintro _ r'' ⟨hu', hkind'⟩
  exact ⟨hu', hkind'.trans hkind⟩

end Exec

end FinLang

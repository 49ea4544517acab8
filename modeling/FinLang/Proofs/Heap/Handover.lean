import FinLang.Proofs.Agree
import FinLang.Proofs.Heap.Coherence
import FinLang.Proofs.Heap.Contents

namespace FinLang

namespace Heap

-- An emptied variable has got a value. All other variables are as they were.
structure Filled (h : Heap) (t : VarId) (value : Value) (h' : Heap) (strict : Prop := True) :
    Prop where
  sound : h'.Sound [] strict
  taken : h'.Holds t value
  others : ∀ x v, x ≠ t → h.var? x = some v → h'.var? x = some v
  stays : ∀ x, Stays h h' x
  live : h'.arena.live + 1 = h.arena.live + value.nodes
  passed : ∀ {x}, h.arena.Passed x → h'.arena.Passed x

-- A variable has got the value of another one. What has neither of the two in it keeps its
-- content.
structure Replaced (h : Heap) (id t g : VarId) (value : Value) (h' : Heap)
    (strict : Prop := True) : Prop where
  sound : h'.Sound [] strict
  taken : h'.Holds t value
  handle : Stays h h' id
  target : Stays h h' t
  link : ∀ v, id ≠ t → h.var? id = some v → ∃ v', h'.var? id = some v' ∧ v'.payload = v.payload
  others : ∀ x v, x ≠ t → (h.Below t x → x = t) → ¬h.Below x g → (∀ u, v.payload ≠ .link u) →
    h.var? x = some v → ∃ v', h'.var? x = some v' ∧ v'.payload = v.payload

-- What can be seen of the variable that has been written to.
structure Stored (h : Heap) (id t : VarId) (value : Value) (h' : Heap) : Prop where
  value : h'.toValue id = .ok value
  handle : Stays h h' id
  target : Stays h h' t
  elements : ∀ x v, h'.Below t x → h'.var? x = some v → v.leftValue = true

-- What a copy and a hand-over of the same source have in common. They can be told apart by
-- the variables that have the source in them. Once the source has gone as many are left,
-- unless it was a link that has left its temporary array behind.
structure Matched (h : Heap) (target t source g : VarId) (u : Variable) (h₁ h₂ : Heap) : Prop where
  stored : ∃ value, h.toValue source = .ok value ∧ Stored h target t value h₁ ∧
    Stored h target t value h₂
  others : ∀ {x v}, h.var? x = some v → (∀ y, v.payload ≠ .link y) → (h.Below t x → x = t) →
    ¬h.Below x g → ∃ value, h₁.toValue x = .ok value ∧ h₂.toValue x = .ok value
  live : h.Detached source → (isSpare u = true → g = source) →
    ((release source).run.run h₁).2.liveCount = ((release source).run.run h₂).2.liveCount

variable {h h' h₁ h₂ : Heap} {strict : Prop} {id source t g x : VarId} {u v w : Variable}
  {value : Value} {items : Array VarId} {flag : Bool} {E : Failure → Heap → Prop}

theorem fill_ensures (value : Value) (hs : h.Sound [] strict) (hw : h.var? t = some w)
    (hnull : w.payload = .null) (hflag : w.leftValue = flag) :
    Ensures (do
      let p ← liftM (buildPayload t flag value)
      setPayload t p : HeapM Unit) h (fun _ h' => Filled h t value h' strict) E := by
  rw [Ensures.bind_iff, Ensures.lift_iff]
  obtain ⟨hq, hb⟩ := buildPayload_built flag value t hs
  obtain ⟨hshow, hlive⟩ := buildPayload_shows flag value t hs
  have hpassed {x : VarId} := @passed_buildPayload x t flag value h
  generalize (buildPayload t flag value).run h = r at hq hb hshow hlive hpassed
  have hw' := hb.extends_ t w hw
  rw [setPayload, update_iff hw']
  refine ⟨hb.adopt hw (by simp [hnull]) hq (by simp [hnull, Payload.elements]) hflag, ?_,
    fun x v hne hv => ?_, fun x => hb.extends_.stays.trans stays_change_payload, hlive,
    fun hp => (hpassed hp).modify⟩
  · refine ⟨{ w with payload := r.1 }, by rw [var?_change, if_pos rfl, hw']; rfl, ?_⟩
    refine hshow.preserve value fun c hc x v hbelow hv => ⟨v, ?_, rfl⟩
    rw [var?_change, if_neg, hv]
    rintro rfl
    exact hb.not_below (Array.mem_toList_iff.mpr hc) ⟨w, hw⟩ hbelow
  · rw [var?_change, if_neg hne]
    exact hb.extends_ x v hv

namespace Replaced

-- The handle stands for the same variable as before.
theorem toValue (hr : Replaced h id t g value h' strict) (hst : h.Stands id t w) :
    h'.toValue id = .ok value := by
  obtain ⟨v, hv, hshow⟩ := hr.taken
  refine (hr.sound.toValue_iff (t := t) (w := v) ?_).mpr hshow
  by_cases hne : id = t
  · subst hne
    exact .self hv hshow.no_link
  · obtain ⟨u, hu, hlink⟩ := hst.self_or_link.resolve_left (Ne.symm hne)
    obtain ⟨u', hu', hpay⟩ := hr.link u hne hu
    have hlink' := hpay.trans hlink
    exact ⟨resolve_eq_target hr.sound.linked hu' hlink', hv, hshow.no_link, .inr ⟨u', hu', hlink'⟩⟩

theorem stored (hr : Replaced h id t g value h' strict) (hst : h.Stands id t w)
    (hleft : w.leftValue = true) : Stored h id t value h' where
  value := hr.toValue hst
  handle := hr.handle
  target := hr.target
  elements x v hb hv := by
    obtain ⟨w', hw', -, hl, -⟩ := hr.target w hst.var
    exact (hr.sound.flagged.below hb hw' hv).trans (hl.trans hleft)

-- Two ways to get the value show the same in all variables that have kept their contents,
-- also where the one that got it lies in them.
theorem exists_holds {n : Nat} (hs : h.Forest []) (hr₁ : Replaced h id t g value h₁ strict)
    (hr₂ : Replaced h id t g value h₂ strict) (hw : h.Within n x) (hv : h.var? x = some v)
    (hl : ∀ u, v.payload ≠ .link u) (hxt : h.Below t x → x = t) (hxg : ¬h.Below x g) :
    ∃ value, h₁.Holds x value ∧ h₂.Holds x value := by
  induction n generalizing x v with
  | zero => exact hw.elim
  | succ n ih =>
    by_cases hne : x = t
    · subst hne
      exact ⟨value, hr₁.taken, hr₂.taken⟩
    obtain ⟨u, hu, hel⟩ := hw
    cases hv.symm.trans hu
    obtain ⟨v₁, hv₁, hp₁⟩ := hr₁.others x v hne hxt hxg hl hv
    obtain ⟨v₂, hv₂, hp₂⟩ := hr₂.others x v hne hxt hxg hl hv
    suffices hshow : ∃ value, h₁.Shows v.payload value ∧ h₂.Shows v.payload value by
      obtain ⟨value, hshow₁, hshow₂⟩ := hshow
      exact ⟨value, ⟨v₁, hv₁, hp₁ ▸ hshow₁⟩, v₂, hv₂, hp₂ ▸ hshow₂⟩
    rcases hp : v.payload with _ | r | s | i | items | y
    case link => exact absurd hp (hl y)
    case null => exact ⟨.null, by simp [Shows]⟩
    case numeric => exact ⟨.numeric r, by simp [Shows]⟩
    case string => exact ⟨.string s, by simp [Shows]⟩
    case image => exact ⟨.image i, by simp [Shows]⟩
    case array =>
      have hall : ∀ c ∈ items.toList, ∃ value, h₁.Holds c value ∧ h₂.Holds c value := by
        intro c hc
        have hin : c ∈ v.payload.elements := hp ▸ Array.mem_toList_iff.mp hc
        have hlist : h.Lists x c := ⟨v, hv, hin⟩
        obtain ⟨w, hw, -, hno⟩ := hs.element hlist
        refine ih (hel c hin) hw hno (fun hb => ?_) fun hb => hxg ((Below.refl.step hlist).trans hb)
        -- What lies in the target in depth brings its array in with it.
        cases hb with
        | refl => rfl
        | step hb hl' =>
          cases hs.parent_unique hlist hl'
          exact absurd (hxt hb) hne
      suffices hshow : ∃ values, h₁.ShowsAll items.toList values ∧ h₂.ShowsAll items.toList values by
        obtain ⟨values, hshow⟩ := hshow
        refine ⟨.array values, ?_, ?_⟩ <;> rw [Shows]
        · exact ⟨items, rfl, hshow.1⟩
        · exact ⟨items, rfl, hshow.2⟩
      generalize items.toList = ids at hall
      induction ids with
      | nil => exact ⟨[], by simp [ShowsAll]⟩
      | cons c rest ihl =>
        obtain ⟨value, ⟨a, ha, hsa⟩, b, hb, hsb⟩ := hall c (List.mem_cons_self ..)
        obtain ⟨values, hr₁, hr₂⟩ := ihl fun c hc => hall c (List.mem_cons_of_mem _ hc)
        refine ⟨value :: values, ?_, ?_⟩ <;> rw [ShowsAll]
        · exact ⟨c, rest, a, rfl, ha, hsa, hr₁⟩
        · exact ⟨c, rest, b, rfl, hb, hsb, hr₂⟩

theorem toValue_eq (hr₁ : Replaced h id t g value h₁ strict) (hs : h.Sound [] strict)
    (hr₂ : Replaced h id t g value h₂ strict) (hv : h.var? x = some v)
    (hl : ∀ u, v.payload ≠ .link u) (hxt : h.Below t x → x = t) (hxg : ¬h.Below x g) :
    ∃ value, h₁.toValue x = .ok value ∧ h₂.toValue x = .ok value := by
  obtain ⟨value, hx₁, hx₂⟩ :=
    exists_holds hs.forest hr₁ hr₂ (hs.forest.within ⟨v, hv⟩) hv hl hxt hxg
  exact ⟨value, hr₁.sound.toValue_of_holds hx₁, hr₂.sound.toValue_of_holds hx₂⟩

end Replaced

-- A temporary takes as many variables with it as its value has.
theorem release_live (hs : h.Sound [] strict) (hd : h.Detached x) (hvalue : h.Holds x value) :
    ((release x).run.run h).2.liveCount + value.nodes = h.liveCount := by
  obtain ⟨v, hv, hshow⟩ := hvalue
  have hE : Ensures (release x) h (fun _ h' => h'.arena.live + value.nodes = h.arena.live)
      fun _ _ => False := by
    rw [release, Ensures.bind_iff, Ensures.get_iff]
    have ho : v.owner = .detached := (ownedBy_iff hv).mp hd
    simp only [show h.arena.get? x = some v from hv, ho, if_true]
    exact free_live (hs.loosen (hs.forest.root_of_detached hd) (by simp)) hv hshow
  unfold Ensures at hE
  rcases hr : (release x).run.run h with ⟨_ | _, h'⟩ <;> rw [hr] at hE
  · exact hE.elim
  · exact hE

section Writing

variable {target : VarId} (hs : h.Sound [] strict) (hst : h.Stands target t w)
  (hst' : h.Stands source g u)

include hs hst hst'

-- The emptied variable gets the value in one way or another.
theorem Cleared.replaced (hcl : Cleared h t w h₁ strict) (hs₂ : h₂.Sound [] strict)
    (hvalue : h₂.Holds t value) (hid : Stays h h₂ target) (ht : Stays h₁ h₂ t)
    (hpay : ∀ x v, x ≠ t → x ≠ g → h₁.var? x = some v →
      ∃ v', h₂.var? x = some v' ∧ v'.payload = v.payload) :
    Replaced h target t g value h₂ strict := by
  have hout : h.Below t target → target = t := fun hb => or_self_iff.mp (hst.outside hs hb)
  refine ⟨hs₂, hvalue, hid, (hcl.stays t fun _ => rfl).trans ht,
    fun v hne hv => ?_, fun x v hxt hbelow hxg hl hv => ?_⟩
  · obtain ⟨v', hv', hlink⟩ := hst.self_or_link.resolve_left (Ne.symm hne)
    cases hv.symm.trans hv'
    have hg : target ≠ g := by
      rintro rfl
      cases hv.symm.trans hst'.var
      exact hst'.no_link t hlink
    obtain ⟨v₁, hv₁, hp₁⟩ := hcl.payload target v hne hout
      (fun y hy _ => Payload.link.inj (hy.symm.trans hlink)) hv
    obtain ⟨v₂, hv₂, hp₂⟩ := hpay target v₁ hne hg hv₁
    exact ⟨v₂, hv₂, hp₂.trans hp₁⟩
  · obtain ⟨v₁, hv₁, hp₁⟩ := hcl.payload x v hxt hbelow (fun y hy => absurd hy (hl y)) hv
    obtain ⟨v₂, hv₂, hp₂⟩ := hpay x v₁ hxt (fun he => hxg (he ▸ .refl)) hv₁
    exact ⟨v₂, hv₂, hp₂.trans hp₁⟩

theorem Cleared.filled (hcl : Cleared h t w h₁ strict) (hf : Filled h₁ t value h₂ strict) :
    Replaced h target t g value h₂ strict := by
  have hid : Stays h h₁ target := hcl.stays target fun hb => or_self_iff.mp (hst.outside hs hb)
  exact hcl.replaced hs hst hst' hf.sound hf.taken (hid.trans (hf.stays target)) (hf.stays t)
    fun x v hxt _ hv => ⟨v, hf.others x v hxt hv, rfl⟩

theorem copy_replaced (hvalue : h.toValue source = .ok value) :
    Ensures (copy target source) h (fun _ h' => Replaced h target t g value h' strict)
      (Refused h) := by
  rw [copy, Ensures.bind_iff, read_resolve_iff hst, Ensures.bind_iff, read_resolve_iff hst']
  split
  · rename_i hsame
    subst hsame
    exact ⟨hs, ⟨u, hst'.var, (hs.toValue_iff hst').mp hvalue⟩, .refl, .refl,
      fun v _ hv => ⟨v, hv, rfl⟩, fun _ v _ _ _ _ hv => ⟨v, hv, rfl⟩⟩
  · rw [Ensures.bind_iff]
    refine checkTypes_ensures hst hst' ?_
    rw [Ensures.bind_iff]
    refine (read_ok (f := fun h => h.toValue source) hvalue).mpr ?_
    rw [writeValue, Ensures.bind_iff]
    refine (clear_ensures hs hst).mono ?_ fun _ _ he => he
    rintro _ h₁ ⟨-, rfl, hcl⟩
    obtain ⟨w₁, hw₁, hnull, -, hflag, -⟩ := hcl.record
    have hs₁ := (hcl.step closed_nothing not_false).sound
    exact (fill_ensures value hs₁ hw₁ hnull hflag).mono (fun _ _ hf => hcl.filled hs hst hst' hf)
      fun _ _ he => he

variable (hleft : w.leftValue = true) (hgf : u.leftValue = false)

include hleft hgf

-- Nothing lies both in the target and in a temporary.
theorem Stands.apart (hb : h.Below g x) : ¬h.Below t x := by
  intro hb'
  obtain ⟨v, hv⟩ := hb.live hs.forest ⟨u, hst'.var⟩
  have := (hs.flagged.below hb hst'.var hv).symm.trans (hs.flagged.below hb' hst.var hv)
  rw [hgf, hleft] at this
  cases this

-- What lies in the temporary is left alone.
theorem Cleared.spares {c : VarId} {y : Variable} (hcl : Cleared h t w h₁ strict)
    (hc : c ∈ u.payload.elements) (hb : h.Below c x) (hy : h.var? x = some y) :
    x ≠ t ∧ x ≠ g ∧ ∃ y', h₁.var? x = some y' ∧ y'.payload = y.payload := by
  have hlist : h.Lists g c := ⟨u, hst'.var, hc⟩
  have hin : h.Below g x := (Below.refl.step hlist).trans hb
  have hout : ¬h.Below t x := Stands.apart hs hst hst' hleft hgf hin
  have hxt : x ≠ t := fun he => hout (he ▸ .refl)
  have hxg : x ≠ g := by
    rintro rfl
    exact hs.forest.not_below_of_lists hlist hb
  have hno := hs.forest.no_link_of_below hin hxg hy
  exact ⟨hxt, hxg, hcl.payload x y hxt (fun hb => absurd hb hout)
    (fun z hz => absurd hz (hno z)) hy⟩

-- The elements that change hands bring along what lies in them.
theorem Cleared.handed (hcl : Cleared h t w h₁ strict) (hu : u.payload = .array items)
    (hh : Handed h₁ g t items h₂) (hvalue : h.Holds g value) : h₂.Holds t value := by
  obtain ⟨u', hu', hshow⟩ := hvalue
  cases hst'.var.symm.trans hu'
  obtain ⟨v, hv, hitems⟩ := hh.taken
  refine ⟨v, hv, ?_⟩
  rw [hitems, ← hu]
  refine hshow.preserve value fun c hc x y hb hy => ?_
  obtain ⟨hxt, hxg, y₁, hy₁, hp₁⟩ := Cleared.spares hs hst hst' hleft hgf hcl hc hb hy
  obtain ⟨y₂, hy₂, hp₂⟩ := hh.payload x y₁ hxt hxg hy₁
  exact ⟨y₂, hy₂, hp₂.trans hp₁⟩

-- The source keeps its elements in a copy and loses them to the target otherwise, so once it
-- has gone there is no difference.
theorem release_handed (hcl : Cleared h t w h₁ strict) (hf : Filled h₁ t value h₂ strict)
    {h₃ : Heap} (hs₃ : h₃.Sound [] strict) (hh : Handed h₁ g t items h₃) (hvalue : h.Holds g value)
    (hd : h.Detached g) :
    ((release g).run.run h₂).2.liveCount = ((release g).run.run h₃).2.liveCount := by
  have hout : ¬h.Below t g := Stands.apart hs hst hst' hleft hgf .refl
  have hd₁ := (hcl.stays g fun hb => absurd hb hout).ownedBy hd
  have hne : g ≠ t := fun he => hout (he ▸ .refl)
  have hfull : h₂.Holds g value := by
    obtain ⟨u', hu', hshow⟩ := hvalue
    cases hst'.var.symm.trans hu'
    obtain ⟨u₁, hu₁, hp₁⟩ := hcl.payload g u hne (fun hb => absurd hb hout)
      (fun y hy => absurd hy (hst'.no_link y)) hst'.var
    refine ⟨u₁, hf.others g u₁ hne hu₁, ?_⟩
    rw [hp₁]
    refine hshow.preserve value fun c hc x y hb hy => ?_
    obtain ⟨hxt, -, y₁, hy₁, hp⟩ := Cleared.spares hs hst hst' hleft hgf hcl hc hb hy
    exact ⟨y₁, hf.others x y₁ hxt hy₁, hp⟩
  have hempty : h₃.Holds g (.array []) := by
    obtain ⟨v, hv, hp⟩ := hh.given
    refine ⟨v, hv, ?_⟩
    rw [hp, Shows]
    exact ⟨#[], rfl, by simp [ShowsAll]⟩
  have hlive₂ := release_live hf.sound ((hf.stays g).ownedBy hd₁) hfull
  have hlive₃ := release_live hs₃ (hh.owner hd₁) hempty
  have hnodes : Value.nodes (.array []) = 1 := rfl
  have hfill := hf.live
  have hhand := hh.live
  unfold liveCount at *
  omega

-- A temporary array hands its elements over where a copy makes new ones.
theorem moveOrCopy_spare (hspare : isSpare u = true) (hvalue : h.toValue source = .ok value) :
    Agree (copy target source) (moveOrCopy target source) h h
      (fun _ _ h₁ h₂ => Replaced h target t g value h₁ strict ∧
        Replaced h target t g value h₂ strict ∧ (h.Detached g →
          ((release g).run.run h₁).2.liveCount = ((release g).run.run h₂).2.liveCount))
      (fun e e' h₁ h₂ => e' = e ∧ h₁ = h ∧ h₂ = h) := by
  obtain ⟨-, items, hu⟩ := eq_array_of_isSpare hspare
  have hout : ¬h.Below t g := Stands.apart hs hst hst' hleft hgf .refl
  have hne : t ≠ g := fun he => hout (he ▸ .refl)
  have hholds : h.Holds g value := ⟨u, hst'.var, (hs.toValue_iff hst').mp hvalue⟩
  rw [copy, moveOrCopy, Agree.bind_left_iff (run_read (f := fun h => h.resolve target) hst.resolve),
    Agree.bind_left_iff (run_read (f := fun h => h.resolve source) hst'.resolve), if_neg hne,
    Agree.bind_right_iff (run_read (f := fun h => h.resolve source) hst'.resolve),
    Agree.bind_right_iff (run_read (f := fun h => h.lookup g) (lookup_eq hst'.var))]
  simp only [hspare, Bool.not_true, Bool.false_eq_true, if_false]
  rw [Agree.bind_right_iff (run_read (f := fun h => h.resolve target) hst.resolve), if_neg hne]
  refine Agree.bind (R := fun _ _ h₁ h₂ => h₁ = h ∧ h₂ = h) (Agree.of_run_eq rfl ?_) ?_
  · exact (checkTypes_ensures hst hst' ⟨rfl, rfl⟩).mono (fun _ _ hq => hq)
      fun _ _ he => ⟨rfl, he.1, he.1⟩
  rintro _ _ _ _ ⟨he₁, he₂⟩
  rw [he₁, he₂, Agree.bind_left_iff (run_read (f := fun h => h.toValue source) hvalue), writeValue]
  refine Agree.bind (R := fun r r' h₁ h₂ => r' = r ∧ h₁ = h₂ ∧ r = (t, w.leftValue) ∧
    Cleared h t w h₁ strict) (Agree.of_run_eq rfl ?_) ?_
  · exact (clear_ensures hs hst).mono (fun _ _ hq => ⟨rfl, rfl, hq.2⟩) fun _ _ he => ⟨rfl, he.1, he.1⟩
  rintro _ _ hc _ ⟨rfl, rfl, rfl, hcl⟩
  obtain ⟨w₁, hw₁, hnull, -, hflag, -⟩ := hcl.record
  have hsc := (hcl.step closed_nothing not_false).sound
  refine (Agree.of_ensures (fill_ensures value hsc hw₁ hnull hflag)
    (hcl.move hs closed_nothing hst hst' hleft hgf hu hne not_false not_false)).mono ?_
    fun _ _ _ _ he => he
  rintro _ _ h₁ h₂ ⟨hf, hwritten, hh⟩
  have hs₂ := hwritten.step.sound
  have ht : ¬hc.Below g t := fun hb => Stands.apart hs hst hst' hleft hgf (hcl.below hb) .refl
  have hshow := Cleared.handed hs hst hst' hleft hgf hcl hu hh hholds
  exact ⟨hcl.filled hs hst hst' hf,
    hcl.replaced hs hst hst' hs₂ hshow hwritten.stays (hh.stays t ht) hh.payload,
    release_handed hs hst hst' hleft hgf hcl hf hs₂ hh hholds⟩

end Writing

-- What is no temporary array, or the target itself, is copied.
theorem run_moveOrCopy {target : VarId} (hst : h.Stands target t w) (hst' : h.Stands source g u)
    (hcopy : isSpare u = true → t = g) :
    (moveOrCopy target source).run.run h = (copy target source).run.run h := by
  rw [moveOrCopy, run_bind_of_ok (run_read (f := fun h => h.resolve source) hst'.resolve),
    run_bind_of_ok (run_read (f := fun h => h.lookup g) (lookup_eq hst'.var))]
  by_cases hspare : isSpare u = true
  · simp only [hspare, Bool.not_true, Bool.false_eq_true, if_false]
    rw [run_bind_of_ok (run_read (f := fun h => h.resolve target) hst.resolve), if_pos (hcopy hspare)]
  · simp [hspare]

-- To hand over the elements of a temporary array is as good as to copy them, and it is refused
-- for the same reasons.
theorem moveOrCopy_like_copy {target : VarId} (hs : h.Sound [] False)
    (ht : h.resolve target = .ok t) (hw : h.var? t = some w) (hleft : w.leftValue = true)
    (source : VarId) :
    Agree (copy target source) (moveOrCopy target source) h h
      (fun _ _ h₁ h₂ => ∃ g u, h.resolve source = .ok g ∧ h.var? g = some u ∧
        Matched h target t source g u h₁ h₂)
      (fun e e' h₁ h₂ => e' = e ∧ h₁ = h ∧ h₂ = h) := by
  have hst := hs.stands_of_resolve ht hw
  by_cases hl : h.Live source
  · obtain ⟨g, u, hst'⟩ := hs.stands hl
    obtain ⟨value, hvalue⟩ := hs.toValue_ok hl
    by_cases hcopy : isSpare u = true → t = g
    · refine Agree.of_run_eq (run_moveOrCopy hst hst' hcopy) ?_
      refine (copy_replaced hs hst hst' hvalue).mono (fun _ h₁ hr => ?_) fun e h₁ he => ?_
      · have hstored := hr.stored hst hleft
        exact ⟨g, u, hst'.resolve, hst'.var, ⟨value, hvalue, hstored, hstored⟩,
          hr.toValue_eq hs hr, fun _ _ => rfl⟩
      · exact ⟨rfl, he.1, he.1⟩
    · have hspare : isSpare u = true := by
        by_contra hno
        exact hcopy fun hs => absurd hs hno
      have hgf := (eq_array_of_isSpare hspare).1
      refine (moveOrCopy_spare hs hst hst' hleft hgf hspare hvalue).mono ?_ fun _ _ _ _ he => he
      rintro _ _ h₁ h₂ ⟨hr₁, hr₂, hlive⟩
      refine ⟨g, u, hst'.resolve, hst'.var,
        ⟨value, hvalue, hr₁.stored hst hleft, hr₂.stored hst hleft⟩, hr₁.toValue_eq hs hr₂,
        fun hd hself => ?_⟩
      cases hself hspare
      exact hlive hd
  · have hstale := resolve_stale hl
    rw [copy, moveOrCopy, Agree.bind_left_iff (run_read (f := fun h => h.resolve target) ht)]
    refine Agree.bind (R := fun _ _ _ _ => False) (Agree.of_run_eq rfl ?_) fun _ _ _ _ hf => hf.elim
    exact (read_error (f := fun h => h.resolve source) hstale).mpr ⟨rfl, rfl, rfl⟩

-- A left-value, a temporary array of one element, and a temporary link to the array.
def linkedTemporary : Heap :=
  [Op.alloc .null, .setLeftValue ⟨0, 0⟩ true, .alloc .null, .alloc (.array #[⟨1, 0⟩]),
    .allocLink ⟨2, 0⟩].foldl (fun h op => op.after h) Heap.empty

theorem linkedTemporary_arises : Arises linkedTemporary := by
  have h₁ : Arises (Op.after (.alloc .null) .empty) := .step _ .empty ⟨nofun, by decide, nofun⟩
  have h₂ := h₁.step (.setLeftValue ⟨0, 0⟩ true) fun p => h₁.not_lists (by decide)
  have h₃ := h₂.step (.alloc .null) ⟨nofun, by decide, nofun⟩
  have h₄ := h₃.step (.alloc (.array #[⟨1, 0⟩])) ⟨nofun, by decide, by
    intro c hc
    simp only [Payload.elements, List.mem_toArray, List.mem_cons, List.not_mem_nil, or_false] at hc
    subst hc
    exact ⟨_, rfl, rfl, by simp [Variable.temporary, Variable.make], rfl⟩⟩
  exact h₄.step (.allocLink ⟨2, 0⟩) trivial

theorem moveOrCopy_like_copy_spare :
    linkedTemporary.Sound [] False ∧ linkedTemporary.resolve ⟨0, 0⟩ = .ok ⟨0, 0⟩ ∧
      Agree (copy ⟨0, 0⟩ ⟨2, 0⟩) (moveOrCopy ⟨0, 0⟩ ⟨2, 0⟩) linkedTemporary linkedTemporary
        (fun _ _ h₁ h₂ => ∃ g u, linkedTemporary.resolve ⟨2, 0⟩ = .ok g ∧
          linkedTemporary.var? g = some u ∧
          Matched linkedTemporary ⟨0, 0⟩ ⟨0, 0⟩ ⟨2, 0⟩ g u h₁ h₂)
        (fun e e' h₁ h₂ => e' = e ∧ h₁ = linkedTemporary ∧ h₂ = linkedTemporary) := by
  have hs := Arises.sound linkedTemporary_arises
  exact ⟨hs, rfl, moveOrCopy_like_copy hs rfl rfl rfl ⟨2, 0⟩⟩

-- Storing an array of one null.
theorem buildPayload_singleton (parent : VarId) (leftValue : Bool) :
    buildPayload parent leftValue (.array [.null]) = (do
      let id ← insert (.make .null (.array parent) leftValue)
      modifyVariable id fun old => { old with payload := .null }
      return .array #[id]) := by
  simp only [buildPayload, buildItems, build, pure_bind, bind_assoc]
  rfl

theorem copy_linkedTemporary :
    (copy ⟨0, 0⟩ ⟨3, 0⟩).run.run linkedTemporary = ((do
      let id ← insert (.make .null (.array ⟨0, 0⟩) true)
      modifyVariable id fun old => { old with payload := .null }
      setPayload ⟨0, 0⟩ (.array #[id])) : HeapM Unit).run.run linkedTemporary := by
  have h : (copy ⟨0, 0⟩ ⟨3, 0⟩).run.run linkedTemporary = (do
      let p ← buildPayload ⟨0, 0⟩ true (.array [.null])
      setPayload ⟨0, 0⟩ p : HeapM Unit).run.run linkedTemporary := rfl
  rw [h, buildPayload_singleton]
  rfl

-- Through a temporary link the array behind it loses its elements and stays.
theorem moveOrCopy_through_link :
    let copied := (copy ⟨0, 0⟩ ⟨3, 0⟩).run.run linkedTemporary
    let moved := (moveOrCopy ⟨0, 0⟩ ⟨3, 0⟩).run.run linkedTemporary
    linkedTemporary.Sound [] False ∧ linkedTemporary.resolve ⟨0, 0⟩ = .ok ⟨0, 0⟩ ∧
      linkedTemporary.isLeftValue ⟨0, 0⟩ = .ok true ∧ linkedTemporary.Detached ⟨3, 0⟩ ∧
      (copied.1 = .ok () ∧ moved.1 = .ok ()) ∧
      (copied.2.toValue ⟨2, 0⟩ = .ok (.array [.null]) ∧ moved.2.toValue ⟨2, 0⟩ = .ok (.array [])) ∧
      ((release ⟨3, 0⟩).run.run copied.2).2.liveCount = 4 ∧
      ((release ⟨3, 0⟩).run.run moved.2).2.liveCount = 3 := by
  intro copied moved
  have hcopied : copied = _ := copy_linkedTemporary
  rw [hcopied]
  exact ⟨Arises.sound linkedTemporary_arises, rfl, rfl, ⟨_, rfl, rfl⟩, ⟨rfl, rfl⟩, ⟨rfl, rfl⟩, rfl, rfl⟩

end Heap

end FinLang

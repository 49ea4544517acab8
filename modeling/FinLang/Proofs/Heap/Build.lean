import FinLang.Proofs.Heap.Frame
import FinLang.Store.Heap.Copy
import FinLang.Store.Heap.Elements

namespace FinLang

namespace Heap

-- All that was there is there as before.
def Extends (h h' : Heap) : Prop :=
  ∀ x v, h.var? x = some v → h'.var? x = some v

-- New variables, ready to be taken over by their owner.
structure Built (h h' : Heap) (loose new : List VarId) (o : Owner) (flag : Bool)
    (strict : Prop := True) : Prop where
  before : h.Sound loose strict
  sound : h'.Sound (new ++ loose) strict
  extends_ : Extends h h'
  record : ∀ c ∈ new, ∃ w, h'.var? c = some w ∧ w.owner = o ∧ w.leftValue = flag ∧
    w.writeProtected = false ∧ w.linkedBy = [] ∧ ∀ t, w.payload ≠ .link t
  owned : ∀ x w, h.var? x = none → h'.var? x = some w → x ∈ new ∨ ∃ p, w.owner = .array p
  fresh : ∀ c ∈ new, h.var? c = none

variable {h h' h'' : Heap} {loose new : List VarId} {strict : Prop} {K T : VarId → Prop}
  {id t : VarId} {v : Variable} {o : Owner} {flag : Bool} {p q : Payload}

theorem Extends.refl : Extends h h :=
  fun _ _ hv => hv

theorem Extends.trans (h₁ : Extends h h') (h₂ : Extends h' h'') : Extends h h'' :=
  fun x v hv => h₂ x v (h₁ x v hv)

theorem Extends.keeps (hx : Extends h h') (hK : ∀ x, K x → h.Live x) : Keeps K h h' := by
  intro x hk
  obtain ⟨v, hv⟩ := hK x hk
  rw [hx x v hv, hv]

theorem Extends.stays (hx : Extends h h') : Stays h h' id :=
  fun v hv => ⟨v, hx id v hv, rfl, rfl, rfl⟩

theorem Forest.extends_added (hs : h.Forest loose) (v : Variable) : Extends h (h.added v) := by
  intro x w hw
  rw [hs.var?_added, if_neg, hw]
  rintro rfl
  rw [hs.var?_fresh] at hw
  cases hw

namespace Built

theorem refl (hs : h.Sound loose strict) : Built h h loose [] o flag strict where
  before := hs
  sound := hs
  extends_ := .refl
  record := by simp
  owned x w hx hw := by
    rw [hx] at hw
    cases hw
  fresh := by simp

-- What lived before lies in none of the new variables.
theorem not_below (hb : Built h h' loose new o flag strict) {c x : VarId} (hc : c ∈ new)
    (hx : h.Live x) : ¬h'.Below c x := by
  intro hbelow
  obtain ⟨v, hv⟩ := hx
  have hnone : h.var? x = none := by
    clear hv
    induction hbelow with
    | refl => exact hb.fresh c hc
    | @step p x _ hl ih =>
      rcases hx : h.var? x with _ | u
      · rfl
      · obtain ⟨w, hw, ho, -⟩ := hb.sound.forest.element hl
        rw [hb.extends_ x u hx] at hw
        cases hw
        rcases hb.before.forest.listed hx ho with hin | ⟨y, hy, -⟩
        · exact absurd hl ((hb.sound.forest.loose_root (List.mem_append_right _ hin)).2 p)
        · rw [ih] at hy
          cases hy
  rw [hnone] at hv
  cases hv

-- All that is new lies in one of the new variables.
theorem exists_below (hb : Built h h' [] new o flag strict) {x : VarId} (hx : h.var? x = none)
    (hl : h'.Live x) : ∃ c ∈ new, h'.Below c x := by
  obtain ⟨n, hd⟩ := hb.sound.forest.depth hl
  induction hd with
  | @root x hr =>
    obtain ⟨w, hw⟩ := hl
    rcases hb.owned x w hx hw with hin | ⟨p, hp⟩
    · exact ⟨x, hin, .refl⟩
    · have hin := (hb.sound.forest.listed hw hp).resolve_right (hr.2 p)
      exact ⟨x, by simpa using hin, .refl⟩
  | @element p x n hd hlist ih =>
    rcases hp : h.var? p with _ | v
    · obtain ⟨c, hc, hcp⟩ := ih hp hlist.live
      exact ⟨c, hc, hcp.step hlist⟩
    · -- The elements of an old array are old.
      obtain ⟨w, hw, hin⟩ := hlist
      cases (hb.extends_ p v hp).symm.trans hw
      obtain ⟨u, hu, -⟩ := hb.before.forest.element ⟨v, hp, hin⟩
      cases hx.symm.trans hu

theorem step (hb : Built h h' loose new o flag strict) (hK : ∀ x, K x → h.Live x)
    (ho : ∀ s, o ≠ .scope s) (ht : o = .detached → ∀ c ∈ new, T c) :
    Step K T (new ++ loose) h h' strict := by
  have howned : ∀ {x o'}, h'.OwnedBy x o' → h.OwnedBy x o' ∨ x ∈ new ∧ o = o' ∨
      ∃ p, o' = .array p := by
    rintro x o' ⟨w, hw, hwo⟩
    rcases hx : h.var? x with _ | u
    · right
      rcases hb.owned x w hx hw with hin | ⟨p, hp⟩
      · obtain ⟨w', hw', ho', -⟩ := hb.record x hin
        rw [hw] at hw'
        cases hw'
        exact .inl ⟨hin, ho'.symm.trans hwo⟩
      · exact .inr ⟨p, hwo.symm.trans hp⟩
    · rw [hb.extends_ x u hx] at hw
      cases hw
      exact .inl ⟨_, hx, hwo⟩
  refine ⟨hb.sound, hb.extends_.keeps hK, fun x s => ⟨fun hx => ?_, ?_⟩, fun x hx => ?_⟩
  · rcases howned hx with hx | ⟨-, he⟩ | ⟨p, hp⟩
    · exact hx
    · exact absurd he (ho s)
    · cases hp
  · rintro ⟨u, hu, huo⟩
    exact ⟨u, hb.extends_ x u hu, huo⟩
  · rcases howned hx with hx | ⟨hin, he⟩ | ⟨p, hp⟩
    · exact .inl hx
    · exact .inr (ht he x hin)
    · cases hp

-- An array takes new variables over, behind the elements it has.
theorem adopt (hb : Built h h' loose new (.array t) flag strict) (hv : h.var? t = some v)
    (hl : ∀ u, v.payload ≠ .link u) (hq : ∀ u, q ≠ .link u)
    (hel : q.elements.toList = v.payload.elements.toList ++ new) (hflag : v.leftValue = flag) :
    (h'.change t fun v => { v with payload := q }).Sound loose strict := by
  have hv' := hb.extends_ t v hv
  have hmem : ∀ c, c ∈ q.elements ↔ c ∈ v.payload.elements ∨ c ∈ new := by
    intro c
    rw [← Array.mem_toList_iff, hel, List.mem_append, Array.mem_toList_iff]
  have hnd := List.nodup_append.mp hb.sound.forest.loose_nodup
  have hroot : ∀ {c}, c ∈ new ++ loose → c ∉ v.payload.elements :=
    fun hc he => (hb.sound.forest.loose_root hc).2 t ⟨v, hv', he⟩
  refine hb.sound.change_payload hv' hl hq ?_ (fun c hc => ?_) hnd.2.1 fun c => ?_
  · rw [hel, List.nodup_append]
    refine ⟨hb.sound.forest.nodup hv', hnd.1, ?_⟩
    rintro a ha b hb' rfl
    exact hroot (List.mem_append_left _ hb') (Array.mem_toList_iff.mp ha)
  · refine ((hmem c).mp hc).imp_right fun hc => ?_
    obtain ⟨w, hw, ho, hf, -, -, hl⟩ := hb.record c hc
    exact ⟨List.mem_append_left _ hc, hb.not_below hc ⟨v, hv⟩, w, hw, ho, hf.trans hflag.symm, hl⟩
  · rw [hmem, List.mem_append]
    constructor
    · intro hc
      refine ⟨.inl (.inr hc), ?_⟩
      rintro (he | he)
      · exact hroot (List.mem_append_right _ hc) he
      · exact hnd.2.2 c he c hc rfl
    · rintro ⟨(hc | hc) | hc, hnot⟩
      · exact absurd (.inr hc) hnot
      · exact hc
      · exact absurd (.inl hc) hnot

end Built

-- One more null variable.
theorem Built.insert (hb : Built h h' loose new o flag strict) :
    Built h (h'.added (.make .null o flag)) loose
      (new ++ [h'.fresh (.make .null o flag)]) o flag strict := by
  generalize hv : Variable.make .null o flag = v
  have hpay : v.payload = .null := by rw [← hv]; rfl
  have hvar := hb.sound.forest.var?_added v
  have hnone := hb.sound.forest.var?_fresh v
  have hold := hb.sound.forest.extends_added v
  have hs : (h'.added v).Sound (h'.fresh v :: (new ++ loose)) strict :=
    hb.sound.insert (by rw [hpay]; rfl) (by simp [hpay]) (by rw [← hv]; rfl)
  have hself : (h'.added v).var? (h'.fresh v) = some v := by rw [hvar, if_pos rfl]
  have hfresh : h.var? (h'.fresh v) = none := by
    rcases hf : h.var? (h'.fresh v) with _ | u
    · rfl
    · rw [hb.extends_ _ u hf] at hnone
      cases hnone
  refine ⟨hb.before, hs.perm ?_, hb.extends_.trans hold, fun c hc => ?_, fun x w hx hw => ?_,
    fun c hc => ?_⟩
  · simpa using (@List.perm_middle _ _ new loose).symm
  · rcases List.mem_append.mp hc with hc | hc
    · obtain ⟨w, hw, h₁⟩ := hb.record c hc
      exact ⟨w, hold c w hw, h₁⟩
    · cases List.mem_singleton.mp hc
      refine ⟨v, hself, ?_⟩
      subst hv
      simp [Variable.make]
  · rw [hvar] at hw
    split at hw
    · exact .inl (by simp [*])
    · exact (hb.owned x w hx hw).imp_left (List.mem_append_left _)
  · rcases List.mem_append.mp hc with hc | hc
    · exact hb.fresh c hc
    · exact List.mem_singleton.mp hc ▸ hfresh

-- The last of the new variables, still empty, gets new elements.
theorem Built.fill {items : List VarId} {h₁ h₂ : Heap}
    (hb : Built h h₁ loose (new ++ [id]) o flag strict) (hv : h₁.var? id = some v)
    (hnull : v.payload = .null) (hi : Built h₁ h₂ (new ++ [id] ++ loose) items (.array id) flag strict)
    (hp : ∀ t, p ≠ .link t) (hel : p.elements.toList = items) :
    Built h (h₂.change id fun old => { old with payload := p }) loose (new ++ [id]) o flag strict := by
  have hin : id ∈ new ++ [id] := by simp
  obtain ⟨w, hw, -, hflag, -⟩ := hb.record id hin
  rw [hv] at hw
  cases hw
  have hs := hi.adopt (q := p) hv (by simp [hnull]) hp (by simpa [hnull, Payload.elements] using hel)
    hflag
  have hv₂ := hi.extends_ id v hv
  have hm : Maps _ h₂ (h₂.change id fun old => { old with payload := p }) := maps_change _
  have hid : h.var? id = none := hb.fresh id hin
  refine ⟨hb.before, hs, fun x u hu => ?_, fun c hc => ?_, fun x u hx hu => ?_, hb.fresh⟩
  · rw [var?_change, if_neg]
    · exact hi.extends_ x u (hb.extends_ x u hu)
    · rintro rfl
      rw [hid] at hu
      cases hu
  · obtain ⟨u, hu, ho, hf, hwp, hby, hl⟩ := hb.record c hc
    refine ⟨_, hm.some (hi.extends_ c u hu), ?_⟩
    by_cases he : c = id
    · simp only [he, if_true]
      exact ⟨ho, hf, hwp, hby, hp⟩
    · simp only [he, if_false]
      exact ⟨ho, hf, hwp, hby, hl⟩
  · obtain ⟨u', hu', rfl⟩ := hm.of_some hu
    have hor : x ∈ new ++ [id] ∨ ∃ p, u'.owner = .array p := by
      rcases h₁x : h₁.var? x with _ | y
      · rcases hi.owned x u' h₁x hu' with hit | hp
        · obtain ⟨z, hz, hzo, -⟩ := hi.record x hit
          rw [hu'] at hz
          cases hz
          exact .inr ⟨id, hzo⟩
        · exact .inr hp
      · rw [hi.extends_ x y h₁x] at hu'
        cases hu'
        exact hb.owned x _ hx h₁x
    refine hor.imp_right ?_
    rintro ⟨q, hq⟩
    refine ⟨q, ?_⟩
    split <;> exact hq

-- What a value in the making comes to, once its contents are stored.
theorem build_built {value : Value}
    (hpay : ∀ {h : Heap} {loose : List VarId} (id : VarId), h.Sound loose strict →
      (∀ t, ((buildPayload id flag value).run h).1 ≠ .link t) ∧
        Built h ((buildPayload id flag value).run h).2 loose
          ((buildPayload id flag value).run h).1.elements.toList (.array id) flag strict)
    (hb : Built h h' loose new o flag strict) :
    Built h ((build o flag value).run h').2 loose (new ++ [((build o flag value).run h').1]) o
      flag strict := by
  have hins := hb.insert
  have hv : (h'.added (.make .null o flag)).var? (h'.fresh (.make .null o flag)) =
      some (.make .null o flag) := by
    rw [hb.sound.forest.var?_added, if_pos rfl]
  obtain ⟨hl, hbuilt⟩ := hpay (h'.fresh (.make .null o flag)) hins.sound
  rw [build]
  exact hins.fill hv rfl hbuilt hl rfl

mutual

theorem buildPayload_built (flag : Bool) : (value : Value) → ∀ {h : Heap}
    {loose : List VarId} (id : VarId), h.Sound loose strict →
      (∀ t, ((buildPayload id flag value).run h).1 ≠ .link t) ∧
        Built h ((buildPayload id flag value).run h).2 loose
          ((buildPayload id flag value).run h).1.elements.toList (.array id) flag strict
  | .null, _, _, _, hs | .numeric _, _, _, _, hs | .string _, _, _, _, hs | .image _, _, _, _, hs => by
    rw [buildPayload]
    exact ⟨fun _ ht => Payload.noConfusion ht, .refl hs⟩
  | .array values, h, loose, id, hs => by
    have hitems := buildItems_built flag values
      (Built.refl hs : Built h h loose (#[] : Array VarId).toList (.array id) flag strict)
    have hrun : (buildPayload id flag (.array values)).run h =
        (.array ((buildItems (.array id) flag values #[]).run h).1,
          ((buildItems (.array id) flag values #[]).run h).2) := by
      rw [buildPayload]
      rfl
    rw [hrun]
    exact ⟨fun _ ht => Payload.noConfusion ht, hitems⟩

theorem buildItems_built (flag : Bool) : (values : List Value) → ∀ {h h' : Heap}
    {loose : List VarId} {o : Owner} {built : Array VarId},
    Built h h' loose built.toList o flag strict →
      Built h ((buildItems o flag values built).run h').2 loose
        ((buildItems o flag values built).run h').1.toList o flag strict
  | [], _, _, _, _, _, hb => by
    rw [buildItems]
    exact hb
  | value :: rest, h, h', loose, o, built, hb => by
    have hone := build_built (buildPayload_built flag value) hb
    rw [← Array.toList_push] at hone
    rw [buildItems]
    exact buildItems_built flag rest hone

end

theorem buildPayload_ensures {E : Failure → Heap → Prop} (value : Value) (id : VarId)
    (hs : h.Sound loose strict) :
    Ensures (liftM (buildPayload id flag value) : HeapM Payload) h
      (fun p h' => (∀ t, p ≠ .link t) ∧ Built h h' loose p.elements.toList (.array id) flag strict) E := by
  exact Ensures.lift_iff.mpr (buildPayload_built flag value id hs)

theorem growth_ensures {E : Failure → Heap → Prop} (n : Nat) (items : Array VarId)
    (hb : Built h h' loose items.toList (.array id) flag strict) :
    Ensures (liftM (growth id flag n items) : HeapM (Array VarId)) h'
      (fun items' h'' => items'.size = items.size + n ∧
        Built h h'' loose items'.toList (.array id) flag strict) E := by
  rw [Ensures.lift_iff]
  induction n generalizing h' items with
  | zero => exact ⟨rfl, hb⟩
  | succ n ih =>
    have hins := hb.insert
    rw [← Array.toList_push] at hins
    obtain ⟨hsize, hbuilt⟩ := ih _ hins
    rw [growth]
    refine ⟨?_, hbuilt⟩
    simp only [Array.size_push] at hsize
    exact hsize.trans (by omega)

-- A new temporary that nobody else knows.
structure Temporary (K : VarId → Prop) (h : Heap) (id : VarId) (h' : Heap) (strict : Prop := True) :
    Prop where
  step : Step K (· = id) [] h h' strict
  extends_ : Extends h h'
  fresh : h.var? id = none
  record : ∃ w, h'.var? id = some w ∧ w.owner = .detached ∧ w.leftValue = false ∧
    w.writeProtected = false ∧ w.linkedBy = [] ∧ ∀ t, w.payload ≠ .link t

theorem Temporary.held (ht : Temporary K h id h' strict) : h'.Held id := by
  obtain ⟨w, hw, ho, -⟩ := ht.record
  exact ⟨w, hw, .inl ho⟩

theorem Temporary.detached (ht : Temporary K h id h' strict) : h'.Detached id := by
  obtain ⟨w, hw, ho, -⟩ := ht.record
  exact ⟨w, hw, ho⟩

theorem Built.temporary (hb : Built h h' [] [id] .detached false strict)
    (hK : ∀ x, K x → h.Live x) : Temporary K h id h' strict := by
  obtain ⟨w, hw, ho, hf, hp, hby, hl⟩ := hb.record id (by simp)
  have hstep := hb.step (T := (· = id)) hK (by simp) (fun _ c hc => by simpa using hc)
  have hs : h'.Sound [] strict :=
    hb.sound.tighten hw (by simp [ho]) (fun _ _ => ⟨hf, hl⟩) (by simp [ho])
      fun _ => .of_no_link hw hl
  exact ⟨{ hstep with sound := hs }, hb.extends_, hb.fresh id (by simp), w, hw, ho, hf, hp, hby, hl⟩

theorem allocValue_ensures {E : Failure → Heap → Prop} (value : Value) (hs : h.Sound [] strict)
    (hK : ∀ x, K x → h.Live x) :
    Ensures (liftM (allocValue value) : HeapM VarId) h (fun id h' => Temporary K h id h' strict) E := by
  have hb := build_built (buildPayload_built false value) (.refl (o := .detached) hs)
  exact Ensures.lift_iff.mpr (hb.temporary hK)

theorem alloc_iff {Q : VarId → Heap → Prop} {E : Failure → Heap → Prop}
    (hp : p.elements = #[]) :
    Ensures (liftM (alloc p) : HeapM VarId) h Q E ↔
      Q (h.fresh (.temporary p)) (h.added (.temporary p)) := by
  rw [alloc, hp]
  exact Iff.rfl

theorem temporary_added (hs : h.Sound [] strict) (hK : ∀ x, K x → h.Live x)
    (hp : p.elements = #[]) (hl : ∀ t, p ≠ .link t) :
    Temporary K h (h.fresh (.temporary p)) (h.added (.temporary p)) strict := by
  have hins := hs.insert (v := .temporary p) hp hl rfl
  have hself : (h.added (.temporary p)).var? (h.fresh (.temporary p)) = some (.temporary p) := by
    rw [hs.forest.var?_added, if_pos rfl]
  have hs' : (h.added (.temporary p)).Sound [] strict :=
    hins.tighten hself (by simp [Variable.temporary, Variable.make]) (fun _ _ => ⟨rfl, hl⟩)
      (by simp [Variable.temporary, Variable.make]) fun _ => .of_no_link hself hl
  exact ⟨.insert hs.forest hs' hK (by simp [Variable.temporary, Variable.make]) fun _ => rfl,
    hs.forest.extends_added _, hs.forest.var?_fresh _, _, hself, rfl, rfl, rfl, rfl, hl⟩

theorem alloc_ensures {E : Failure → Heap → Prop} (hs : h.Sound [] strict)
    (hK : ∀ x, K x → h.Live x) (hp : p.elements = #[]) (hl : ∀ t, p ≠ .link t) :
    Ensures (liftM (alloc p) : HeapM VarId) h (fun id h' => Temporary K h id h' strict) E :=
  (alloc_iff hp).mpr (temporary_added hs hK hp hl)

end Heap

end FinLang

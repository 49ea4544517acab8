import FinLang.Proofs.Heap.Build
import FinLang.Proofs.Heap.Read

namespace FinLang

theorem Payload.elements_of_varType {p : Payload} (hp : p.varType ≠ .array) : p.elements = #[] := by
  cases p with
  | array items => exact absurd rfl hp
  | _ => rfl

namespace Heap

variable {h h' : Heap} {loose : List VarId} {strict : Prop} {K : VarId → Prop} {id t source : VarId}
  {v w : Variable} {p : Payload} {E : Failure → Heap → Prop}

theorem freeAll_ensures (items : Array VarId) (hs : h.Sound (items.toList ++ loose) strict) :
    Ensures (items.forM free) h
      (fun _ h' => h'.Sound loose strict ∧ ∃ G, Freed G h h' ∧
        ∀ x, G x → ∃ c ∈ items, h.Below c x) E := by
  let I : List VarId → Heap → Prop := fun rest h' =>
    h'.Sound (rest ++ loose) strict ∧ (∀ c ∈ rest, c ∈ items) ∧
      ∃ G, Freed G h h' ∧ ∀ x, G x → ∃ c ∈ items, h.Below c x
  have hI : I items.toList h :=
    ⟨hs, fun c hc => Array.mem_toList_iff.mp hc, fun _ => False, .refl, by simp⟩
  refine (Ensures.forM_array I ?_ _ _ hI).mono ?_ fun _ _ he => he
  · rintro c rest h' ⟨hs', hrest, G, hf, hG⟩
    refine (free_ensures hs').mono ?_ fun _ _ he => he
    rintro _ h'' ⟨hs'', G', hf', -, hG'⟩
    refine ⟨hs'', fun c hc => hrest c (List.mem_cons_of_mem _ hc), _, hf.trans hf', ?_⟩
    rintro x (hx | hx)
    · exact hG x hx
    · exact ⟨c, hrest c (List.mem_cons_self ..), hf.below (hG' x hx)⟩
  · rintro _ h' ⟨hs', -, hG⟩
    exact ⟨hs', hG⟩

-- What an emptied variable is, and what is left around it.
structure Cleared (h : Heap) (t : VarId) (w : Variable) (h' : Heap) (strict : Prop := True) :
    Prop where
  step : ∀ {K : VarId → Prop}, h.Closed K → ¬K t → Step K (fun _ => False) [] h h' strict
  record : ∃ w', h'.var? t = some w' ∧ w'.payload = .null ∧ w'.owner = w.owner ∧
    w'.leftValue = w.leftValue ∧ w'.writeProtected = w.writeProtected
  -- All but the elements, in depth, keeps its flags.
  stays : ∀ x, (h.Below t x → x = t) → Stays h h' x
  -- A link to an element is lost.
  payload : ∀ x u, x ≠ t → (h.Below t x → x = t) →
    (∀ y, u.payload = .link y → h.Below t y → y = t) → h.var? x = some u →
    ∃ u', h'.var? x = some u' ∧ u'.payload = u.payload
  below : ∀ {p c}, h'.Below p c → h.Below p c

-- An emptied variable lets its elements go.
theorem Sound.set_null (hs : h.Sound loose strict) (hw : h.var? t = some w)
    (hl : ∀ u, w.payload ≠ .link u) :
    (h.change t fun v => { v with payload := .null }).Sound (w.payload.elements.toList ++ loose) strict := by
  refine hs.change_payload hw hl (by simp) (by simp [Payload.elements]) (by simp [Payload.elements])
    ?_ (by simp [Payload.elements, or_comm])
  refine List.nodup_append.mpr ⟨hs.forest.nodup hw, hs.forest.loose_nodup, ?_⟩
  rintro a ha b hb rfl
  exact (hs.forest.loose_root hb).2 t ⟨w, hw, Array.mem_toList_iff.mp ha⟩

theorem clear_ensures (hs : h.Sound [] strict) (hst : h.Stands id t w) :
    Ensures (clear id) h
      (fun r h' => w.writeProtected = false ∧ r = (t, w.leftValue) ∧ Cleared h t w h' strict)
      (Refused h) := by
  have hs₁ := hs.set_null hst.var hst.no_link
  have hw₁ : (h.change t fun v => { v with payload := .null }).var? t =
      some { w with payload := .null } := by
    rw [var?_change, if_pos rfl, hst.var]
    rfl
  have hbelow : ∀ {c x}, (h.change t fun v => { v with payload := .null }).Below c x →
      h.Below c x := by
    intro c x hb
    induction hb with
    | refl => exact .refl
    | step _ hl ih =>
      rw [lists_change_payload hst.var] at hl
      split at hl
      · simp [Payload.elements] at hl
      · exact ih.step hl
  rw [clear, Ensures.bind_iff]
  refine read_writable hst fun hp => ?_
  rw [Ensures.bind_iff, setPayload, update_iff hst.var, Ensures.bind_iff]
  refine (freeAll_ensures _ hs₁).mono ?_ fun _ _ he => he
  rintro _ h' ⟨hs', G, hf, hG⟩
  -- What has been freed lay in the variable.
  have hin : ∀ x, G x → h.Below t x ∧ x ≠ t := by
    intro x hx
    obtain ⟨c, hc, hb⟩ := hG x hx
    have hl : h.Lists t c := ⟨w, hst.var, hc⟩
    refine ⟨(Below.refl.step hl).trans (hbelow hb), ?_⟩
    rintro rfl
    exact hs.forest.not_below_of_lists hl (hbelow hb)
  have hnot : ∀ x, (h.Below t x → x = t) → ¬G x := fun x hx hg =>
    (hin x hg).2 (hx (hin x hg).1)
  refine ⟨hp, rfl, fun {K} hc hk => ?_,
    ⟨_, hf.some (hnot t fun _ => rfl) hw₁, rfl, rfl, rfl, rfl⟩,
    fun x hx => ?_, fun x u hne hx hl hu => ?_, fun hb => hbelow (hf.below hb)⟩
  · have hchange : Step K (fun _ => False) (w.payload.elements.toList ++ []) h
        (h.change t fun v => { v with payload := .null }) strict := .change hs₁ hk fun _ => rfl
    refine hchange.seq (.freed hs' hf (hc.keeps hs hs₁ hchange.keeps) hs₁.linked ?_ ?_)
    · exact fun x hx => mt (hc.below (hin x hx).1).mp hk
    · intro x s hx hown
      obtain ⟨u, hu, ho⟩ := (hchange.bound x s).mp hown
      exact (hin x hx).2 ((hin x hx).1.eq_of_root (hs.forest.root_of_owner hu (by simp [ho])).2)
  · exact stays_change_payload.trans (hf.stays (hnot x hx))
  · have hu₁ : (h.change t fun v => { v with payload := .null }).var? x = some u := by
      rw [var?_change, if_neg hne, hu]
    exact ⟨_, hf.some (hnot x hx) hu₁, Payload.without_eq_self fun y hy => hnot y (hl y hy)⟩

-- A link is no element, so it lies only in itself.
theorem Stands.outside {top : VarId} (hst : h.Stands id t w) (hs : h.Sound loose strict)
    (hb : h.Below top id) : id = t ∨ id = top := by
  rcases hst.self_or_link with rfl | ⟨v, hv, ht⟩
  · exact .inl rfl
  · rcases hb with _ | ⟨_, hl⟩
    · exact .inr rfl
    · obtain ⟨u, hu, -, hno⟩ := hs.forest.element hl
      rw [hv] at hu
      cases hu
      exact absurd ht (hno t)

-- What a write through a handle does to the heap.
structure Written (K : VarId → Prop) (h : Heap) (id : VarId) (h' : Heap) (strict : Prop := True) :
    Prop where
  step : Step K (fun _ => False) [] h h' strict
  stays : Stays h h' id

theorem writeValue_ensures (value : Value) (hs : h.Sound [] strict) (hc : h.Closed K)
    (hsafe : Safe K h id) (hst : h.Stands id t w) :
    Ensures (writeValue id value) h (fun _ h' => Written K h id h' strict) (Refused h) := by
  rw [writeValue, Ensures.bind_iff]
  refine (clear_ensures hs hst).mono ?_ fun _ _ he => he
  rintro _ h₁ ⟨hp, rfl, hcl⟩
  have hk := hst.not_mem_of_writable hc hsafe hp
  have hstep := hcl.step hc hk
  obtain ⟨w₁, hw₁, hnull, -, hflag, -⟩ := hcl.record
  rw [Ensures.bind_iff]
  refine (buildPayload_ensures value t hstep.sound).mono ?_ fun _ _ he => he
  rintro q h₂ ⟨hq, hb⟩
  have hlive : ∀ x, K x → h₁.Live x := fun x hx => (hstep.keeps.live hx).mpr (hc.live hx)
  have hs₂ := hb.adopt (q := q) hw₁ (by simp [hnull]) hq (by simp [hnull, Payload.elements]) hflag
  rw [setPayload, update_iff (hb.extends_ t w₁ hw₁)]
  have hstep₂ : Step K (fun _ => False) (q.elements.toList ++ []) h₁ h₂ strict :=
    hb.step hlive (by simp) (by simp)
  refine ⟨(hstep.seq hstep₂).seq (.change hs₂ hk fun _ => rfl), ?_⟩
  exact (hcl.stays id fun hb => or_self_iff.mp (hst.outside hs hb)).trans (hb.extends_.stays.trans stays_change_payload)

theorem checkTypes_ensures {t' : VarId} {w' : Variable} {Q : Unit → Heap → Prop}
    (hst : h.Stands id t w) (hst' : h.Stands source t' w') (hq : Q () h) :
    Ensures (read (checkTypes id source)) h Q (Refused h) := by
  refine read_ensures (fun e he => ?_) fun _ _ => hq
  simp only [checkTypes, hst.varType, hst'.varType, bind, Except.bind] at he
  split at he
  · cases he
    simp [Cause.Ordinary, Failure.of, Cause.kind]
  · cases he

theorem copy_ensures {t' : VarId} {w' : Variable} (hs : h.Sound [] strict) (hc : h.Closed K)
    (hsafe : Safe K h id) (hst : h.Stands id t w) (hst' : h.Stands source t' w') :
    Ensures (copy id source) h (fun _ h' => Written K h id h' strict) (Refused h) := by
  rw [copy, Ensures.bind_iff, read_resolve_iff hst, Ensures.bind_iff, read_resolve_iff hst']
  split
  · exact ⟨.refl hs, .refl⟩
  · rw [Ensures.bind_iff]
    refine checkTypes_ensures hst hst' ?_
    rw [Ensures.bind_iff]
    exact read_toValue hs hst'.live fun value => writeValue_ensures value hs hc hsafe hst

-- The elements of an array that gives them up, on their way to another one.
private structure Moving (K : VarId → Prop) (items : Array VarId) (t : VarId) (flag : Bool)
    (strict : Prop) (rest : List VarId) (h h' : Heap) : Prop where
  step : Step K (fun _ => False) items.toList h h' strict
  maps : ∃ f, Maps f h h' ∧ ∀ x v, (f x v).payload = v.payload
  outside : ∀ x, (∀ c ∈ items, ¬h.Below c x) → h'.var? x = h.var? x
  moved : ∀ c ∈ items, c ∈ rest ∨ ∃ w, h'.var? c = some w ∧ w.owner = .array t ∧
    w.leftValue = flag
  subset : ∀ c ∈ rest, c ∈ items

private theorem Moving.next {items : Array VarId} {c : VarId} {rest : List VarId}
    (hm : Moving K items t true strict (c :: rest) h h')
    (hK : ∀ c ∈ items, ∀ x, h.Below c x → ¬K x) (ho : ∀ c ∈ items, ∀ s, ¬h.OwnedBy c (.scope s)) :
    Ensures (do setOwner c (.array t); setLeftValue c true) h'
      (fun _ h'' => Moving K items t true strict rest h h'') E := by
  have hc := hm.subset c (List.mem_cons_self ..)
  have hcl : c ∈ items.toList := Array.mem_toList_iff.mpr hc
  obtain ⟨f, hf, hpay⟩ := hm.maps
  have hel : ∀ {x v}, h.var? x = some v → (f x v).payload.elements = v.payload.elements :=
    fun {x v} _ => by rw [hpay]
  obtain ⟨v, hv⟩ := (hm.step.sound.forest.loose_root hcl).1
  have hs₁ := hm.step.sound.change_owner (o := .array t) hcl
  have hkc : ¬K c := hK c hc c .refl
  have hold : ∀ s, v.owner ≠ .scope s := fun s hvo =>
    ho c hc s ((hm.step.bound c s).mp ⟨v, hv, hvo⟩)
  rw [Ensures.bind_iff, setOwner, update_iff hv]
  generalize hh₁ : (h'.change c fun v => { v with owner := .array t }) = h₁ at hs₁
  have hm₁ : Maps _ h' h₁ := hh₁ ▸ maps_change _
  have hv₁ : h₁.var? c = some { v with owner := .array t } := by
    rw [← hh₁, var?_change, if_pos rfl, hv]
    rfl
  have hstep₁ : Step K (fun _ => False) items.toList h' h₁ strict := by
    subst hh₁
    exact .change_owner hs₁ hkc hv hold (by simp) (by simp)
  have hel₁ : ∀ {x v}, h'.var? x = some v →
      ((if x = c then { v with owner := .array t } else v : Variable)).payload.elements =
        v.payload.elements := fun {x v} _ => by split <;> rfl
  have hbelow : ∀ {x}, h₁.Below c x ↔ h.Below c x := (hm₁.below hel₁).trans (hf.below hel)
  refine (setLeftValue_ensures hs₁.forest.arena (hs₁.forest.within ⟨_, hv₁⟩)).mono ?_ fun _ _ he => he
  rintro _ h₂ ⟨ha₂, hm₂⟩
  have hs₂ := hs₁.marked ha₂ hm₂ hv₁ hcl fun _ => .inl rfl
  have hstep₂ : Step K (fun _ => False) items.toList h₁ h₂ strict := by
    refine .of_maps hs₂ hm₂ (fun x u hx _ => marking_of_neg fun hb => ?_) fun x u _ => owner_marking
    exact hK c hc x (hbelow.mp hb) hx
  refine ⟨(hm.step.seq hstep₁).seq hstep₂, ⟨fun x u => marking (h₁.Below c) true x
    (if x = c then { f x u with owner := .array t } else f x u), fun x => ?_, fun x u => ?_⟩,
    fun x hx => ?_, fun d hd => ?_, fun d hd => hm.subset d (List.mem_cons_of_mem _ hd)⟩
  · rw [hm₂ x, hm₁ x, hf x, Option.map_map, Option.map_map]
    rfl
  · rw [payload_marking]
    split
    · exact hpay x u
    · exact hpay x u
  · have hne : x ≠ c := fun he => hx c hc (he ▸ .refl)
    have hout : ¬h₁.Below c x := fun hb => hx c hc (hbelow.mp hb)
    rw [hm₂ x, ← hm.outside x hx, hm₁ x]
    rcases h'.var? x with _ | u
    · rfl
    · simp [hne, marking_of_neg hout]
  · by_cases hdc : d = c
    · subst hdc
      exact .inr ⟨_, hm₂.some hv₁, by rw [owner_marking], by rw [marking_of_pos .refl]⟩
    · rcases hm.moved d hd with hin | ⟨u, hu, huo, huf⟩
      · exact .inl ((List.mem_cons.mp hin).resolve_left hdc)
      · right
        have hu₁ : h₁.var? d = some u := by
          rw [hm₁ d, hu]
          simp [hdc]
        refine ⟨_, hm₂.some hu₁, owner_marking.trans huo, ?_⟩
        by_cases hb : h₁.Below c d
        · rw [marking_of_pos hb]
        · rw [marking_of_neg hb]
          exact huf

-- An array has given its elements to another variable. All other contents are as
-- they were.
structure Handed (h : Heap) (g t : VarId) (items : Array VarId) (h' : Heap) : Prop where
  taken : ∃ w, h'.var? t = some w ∧ w.payload = .array items
  given : ∃ u, h'.var? g = some u ∧ u.payload = .array #[]
  owner : ∀ {o}, h.OwnedBy g o → h'.OwnedBy g o
  stays : ∀ x, ¬h.Below g x → Stays h h' x
  payload : ∀ x v, x ≠ t → x ≠ g → h.var? x = some v →
    ∃ v', h'.var? x = some v' ∧ v'.payload = v.payload
  live : h'.arena.live = h.arena.live
  outside : ∀ x, x ≠ t → ¬h.Below g x → h'.var? x = h.var? x
  lives : ∀ {x}, h'.Live x ↔ h.Live x

-- A temporary array hands its elements over to an emptied left-value.
private theorem move_ensures {g t : VarId} {u w : Variable} {items : Array VarId}
    (hs : h.Sound [] strict) (hc : h.Closed K) (hg : h.var? g = some u)
    (hu : u.payload = .array items) (hgf : u.leftValue = false) (hkg : ¬K g) (ht : h.var? t = some w) (hnull : w.payload = .null)
    (htf : w.leftValue = true) (hkt : ¬K t) :
    Ensures (do
      setPayload g (.array #[])
      items.forM fun child => do
        setOwner child (.array t)
        setLeftValue child true
      setPayload t (.array items)) h
      (fun _ h' => Step K (fun _ => False) [] h h' strict ∧ Handed h g t items h') E := by
  have hel : ∀ {c}, c ∈ items → h.Lists g c := fun hc => ⟨u, hg, hu ▸ hc⟩
  have hnd : items.toList.Nodup := by simpa [hu, Payload.elements] using hs.forest.nodup hg
  -- Nothing lies both in a temporary and in a left-value.
  have hgt : ¬h.Below g t := by
    intro hb
    have := hs.flagged.below hb hg ht
    rw [hgf, htf] at this
    cases this
  have hs₁ : (h.change g fun v => { v with payload := .array #[] }).Sound items.toList strict :=
    hs.change_payload hg (by simp [hu]) (by simp) (by simp [Payload.elements])
      (by simp [Payload.elements]) hnd (by simp [hu, Payload.elements])
  have hlists : ∀ {x y}, (h.change g fun v => { v with payload := .array #[] }).Lists x y →
      h.Lists x y := by
    intro x y hl
    rw [lists_change_payload hg] at hl
    split at hl
    · simp [Payload.elements] at hl
    · exact hl
  have hbelow : ∀ {x y}, (h.change g fun v => { v with payload := .array #[] }).Below x y →
      h.Below x y := by
    intro x y hb
    induction hb with
    | refl => exact .refl
    | step _ hl ih => exact ih.step (hlists hl)
  rw [Ensures.bind_iff, setPayload, update_iff hg, Ensures.bind_iff]
  have hstep : Step K (fun _ => False) items.toList h
      (h.change g fun v => { v with payload := .array #[] }) strict := .change hs₁ hkg fun _ => rfl
  have hstays : ∀ x, Stays h (h.change g fun v => { v with payload := .array #[] }) x :=
    fun x => stays_change_payload
  have ht₁ : (h.change g fun v => { v with payload := .array #[] }).var? t = some w := by
    rw [var?_change, if_neg, ht]
    rintro rfl
    exact hgt .refl
  have hvar : ∀ {x y}, h.var? x = some y → x ≠ g →
      (h.change g fun v => { v with payload := .array #[] }).var? x = some y := by
    intro x y hx hne
    rw [var?_change, if_neg hne, hx]
  have hg₁ : (h.change g fun v => { v with payload := .array #[] }).var? g =
      some { u with payload := .array #[] } := by
    rw [var?_change, if_pos rfl, hg]
    rfl
  have hlive₁ : (h.change g fun v => { v with payload := .array #[] }).arena.live = h.arena.live := rfl
  have hlives₁ : ∀ {x}, (h.change g fun v => { v with payload := .array #[] }).Live x ↔ h.Live x :=
    (maps_change _).live
  have hother : ∀ {x}, x ≠ g →
      (h.change g fun v => { v with payload := .array #[] }).var? x = h.var? x := by
    intro x hne
    rw [var?_change, if_neg hne]
  generalize (h.change g fun v => { v with payload := .array #[] }) = h₁ at *
  have hin : ∀ c ∈ items, ∀ x, h₁.Below c x → h.Below g x := fun c hc x hb =>
    (Below.refl.step (hel hc)).trans (hbelow hb)
  have hK : ∀ c ∈ items, ∀ x, h₁.Below c x → ¬K x := fun c hin' x hb =>
    mt (hc.below (hin c hin' x hb)).mp hkg
  have hrecord : ∀ c ∈ items, ∃ y, h₁.var? c = some y ∧ y.owner = .array g ∧
      ∀ z, y.payload ≠ .link z := by
    intro c hin'
    obtain ⟨y, hy, ho, hno⟩ := hs.forest.element (hel hin')
    refine ⟨y, hvar hy ?_, ho, hno⟩
    rintro rfl
    exact hs.forest.not_below_of_lists (hel hin') .refl
  have hscope : ∀ c ∈ items, ∀ s, ¬h₁.OwnedBy c (.scope s) := by
    intro c hin' s
    obtain ⟨y, hy, ho, -⟩ := hrecord c hin'
    rw [ownedBy_iff hy, ho]
    exact Owner.noConfusion
  have hstart : Moving K items t true strict items.toList h₁ h₁ :=
    ⟨.refl hs₁, ⟨fun _ v => v, fun x => by simp, fun _ _ => rfl⟩, fun _ _ => rfl,
      fun c hin' => .inl (Array.mem_toList_iff.mpr hin'), fun c hin' => Array.mem_toList_iff.mp hin'⟩
  refine (Ensures.forM_array (fun rest h' => Moving K items t true strict rest h₁ h')
    (fun c rest h' hm => hm.next hK hscope) items h₁ hstart).mono ?_ fun _ _ he => he
  rintro _ h₂ hm
  have hout : ∀ c ∈ items, ¬h₁.Below c t := fun c hin' hb => hgt (hin c hin' t hb)
  have ht₂ : h₂.var? t = some w := (hm.outside t hout).trans ht₁
  obtain ⟨f, hf, hpay⟩ := hm.maps
  have hs₂ : (h₂.change t fun v => { v with payload := .array items }).Sound [] strict := by
    refine hm.step.sound.change_payload ht₂ (by simp [hnull]) (by simp) hnd (fun c hin' => ?_)
      (by simp) fun c => ?_
    · obtain ⟨y, hy, -, hno⟩ := hrecord c hin'
      obtain ⟨z, hz, hzo, hzf⟩ := (hm.moved c hin').resolve_left (by simp)
      have hzy := hf.some hy
      rw [hz] at hzy
      cases hzy
      refine .inr ⟨Array.mem_toList_iff.mpr hin', fun hb => ?_, _, hz, hzo, hzf.trans htf.symm, ?_⟩
      · exact hout c hin' ((hf.below fun {x v} _ => by rw [hpay]).mp hb)
      · rw [hpay]
        exact hno
    · simp [hnull, Payload.elements]
  have hgt' : g ≠ t := fun he => hgt (he ▸ .refl)
  have hg₂ : h₂.var? g = some { u with payload := .array #[] } := by
    refine (hm.outside g fun c hin' hb => ?_).trans hg₁
    exact hs.forest.not_below_of_lists (hel hin') (hbelow hb)
  rw [setPayload, update_iff ht₂]
  refine ⟨(hstep.seq hm.step).seq (.change hs₂ hkt fun _ => rfl), ?_, ?_, ?_, fun x hx => ?_,
    fun x y hxt hxg hx => ?_, ?_, fun x hxt hx => ?_,
    (maps_change _).live.trans (hf.live.trans hlives₁)⟩
  · exact ⟨{ w with payload := .array items }, by rw [var?_change, if_pos rfl, ht₂]; rfl, rfl⟩
  · exact ⟨_, by rw [var?_change, if_neg hgt', hg₂], rfl⟩
  · rintro o ⟨y, hy, rfl⟩
    cases hg.symm.trans hy
    exact ⟨{ u with payload := .array #[] }, by rw [var?_change, if_neg hgt', hg₂], rfl⟩
  · have hmoved : Stays h₁ h₂ x := fun y hy =>
      ⟨y, (hm.outside x fun c hin' hb => hx (hin c hin' x hb)).trans hy, rfl, rfl, rfl⟩
    exact (hstays x).trans (hmoved.trans stays_change_payload)
  · refine ⟨_, by rw [var?_change, if_neg hxt, hf.some (hvar hx hxg)], hpay x y⟩
  · exact (hf.live_eq hs₁.forest.arena hm.step.sound.forest.arena).trans hlive₁
  · have hxg : x ≠ g := fun he => hx (he ▸ .refl)
    rw [var?_change, if_neg hxt, hm.outside x fun c hin' hb => hx (hin c hin' x hb), hother hxg]

-- The rest of a move, once the target is empty. The temporary array is none of the
-- elements that have been freed, and what is written to lies in no temporary.
theorem Cleared.move {g : VarId} {u : Variable} {items : Array VarId} (hcl : Cleared h t w h' strict)
    (hs : h.Sound [] strict) (hc : h.Closed K) (hst : h.Stands id t w) (hst' : h.Stands source g u)
    (hleft : w.leftValue = true) (hgf : u.leftValue = false) (hu : u.payload = .array items)
    (hne : t ≠ g) (hkt : ¬K t) (hkg : ¬K g) :
    Ensures (do
      let items := (← read (·.lookup g)).payload.elements
      setPayload g (.array #[])
      items.forM fun child => do
        setOwner child (.array t)
        setLeftValue child w.leftValue
      setPayload t (.array items)) h'
      (fun _ h'' => Written K h id h'' strict ∧ Handed h' g t items h'') E := by
  have hstep := hcl.step hc hkt
  obtain ⟨w₁, hw₁, hnull, -, hflag, -⟩ := hcl.record
  have hout : ¬h.Below t g := by
    intro hb
    have := hs.flagged.below hb hst.var hst'.var
    rw [hgf, hleft] at this
    cases this
  have hin : ¬h.Below g t := by
    intro hb
    have := hs.flagged.below hb hst'.var hst.var
    rw [hgf, hleft] at this
    cases this
  obtain ⟨u₁, hu₁, hpay⟩ := hcl.payload g u (Ne.symm hne) (fun hb => absurd hb hout)
    (fun y hy => absurd hy (hst'.no_link y)) hst'.var
  have hgf₁ : u₁.leftValue = false := by
    obtain ⟨y, hy, -, hyl, -⟩ := hcl.stays g (fun hb => absurd hb hout) u hst'.var
    rw [hu₁] at hy
    cases hy
    exact hyl.trans hgf
  have hstay := hcl.stays id fun hb => or_self_iff.mp (hst.outside hs hb)
  have hid : ¬h'.Below g id := by
    intro hb
    rcases hst.outside hs (hcl.below hb) with rfl | rfl
    · exact hin (hcl.below hb)
    · rcases hst.self_or_link with rfl | ⟨y, hy, hlink⟩
      · exact hin .refl
      · exact hst'.no_link t (Option.some.inj (hst'.var.symm.trans hy) ▸ hlink)
  rw [Ensures.bind_iff, read_lookup_iff hu₁, hpay, hu, hleft]
  refine (move_ensures hstep.sound (hc.keeps hs hstep.sound hstep.keeps) hu₁ (hpay.trans hu)
    hgf₁ hkg hw₁ hnull (hflag.trans hleft) hkt).mono ?_ fun _ _ he => he
  rintro _ h₂ ⟨hstep₂, hhanded⟩
  exact ⟨⟨hstep.seq hstep₂, hstay.trans (hhanded.stays id hid)⟩, hhanded⟩

theorem eq_array_of_isSpare {u : Variable} (hu : isSpare u = true) :
    u.leftValue = false ∧ ∃ items, u.payload = .array items := by
  rcases hp : u.payload <;> simp_all [isSpare, Payload.varType]

theorem moveOrCopy_ensures {g : VarId} {u : Variable} (hs : h.Sound [] strict) (hc : h.Closed K)
    (hsafe : Safe K h id) (hsafe' : Safe K h source) (hst : h.Stands id t w)
    (hst' : h.Stands source g u) (hleft : w.leftValue = true) :
    Ensures (moveOrCopy id source) h (fun _ h' => Written K h id h' strict) (Refused h) := by
  have hcopy := copy_ensures hs hc hsafe hst hst'
  rw [moveOrCopy, Ensures.bind_iff, read_resolve_iff hst', Ensures.bind_iff,
    read_lookup_iff hst'.var]
  split
  · exact hcopy
  rename_i hspare
  rw [Ensures.bind_iff, read_resolve_iff hst]
  split
  · exact hcopy
  rename_i hne
  obtain ⟨hgf, items, hu⟩ := eq_array_of_isSpare (u := u) (by simpa using hspare)
  rw [Ensures.bind_iff]
  refine checkTypes_ensures hst hst' ?_
  rw [Ensures.bind_iff]
  refine (clear_ensures hs hst).mono ?_ fun _ _ he => he
  rintro _ h₁ ⟨hp, rfl, hcl⟩
  exact (hcl.move hs hc hst hst' hleft hgf hu hne (hst.not_mem_of_writable hc hsafe hp)
    (hst'.not_mem_of_payload hc hsafe' (by simp [hu]))).mono (fun _ _ hq => hq.1) fun _ _ he => he

-- A content without elements is replaced by another one.
theorem Sound.set_plain (hs : h.Sound loose strict) (hw : h.var? t = some w)
    (hl : ∀ u, w.payload ≠ .link u) (hel : w.payload.elements = #[]) (hp : p.elements = #[])
    (hpl : ∀ u, p ≠ .link u) : (h.change t fun v => { v with payload := p }).Sound loose strict :=
  hs.change_payload hw hl hpl (by simp [hp]) (by simp [hp]) hs.forest.loose_nodup (by simp [hp, hel])

-- A plain content takes the place of another one, or of null.
theorem setScalar_changes (hst : h.Stands id t w) :
    Ensures (setScalar id p) h
      (fun _ h' => w.writeProtected = false ∧
        (w.payload.varType = .null ∨ w.payload.varType = p.varType) ∧
        h' = h.change t fun v => { v with payload := p }) (Refused h) := by
  rw [setScalar, Ensures.bind_iff]
  refine read_writable hst fun hwp => ?_
  simp only
  split
  · rw [Ensures.bind_iff]
    refine fail_iff.mpr ⟨rfl, ?_⟩
    simp [Cause.Ordinary, Failure.of, Cause.kind]
  · rename_i hsame
    rw [setPayload, update_iff hst.var]
    refine ⟨hwp, ?_, rfl⟩
    by_contra hne
    obtain ⟨hnull, hother⟩ := not_or.mp hne
    exact hsame (by simp [hnull, hother])

theorem setScalar_ensures (hs : h.Sound [] strict) (hc : h.Closed K) (hsafe : Safe K h id)
    (hst : h.Stands id t w) (hp : p.varType ≠ .array) (hl : ∀ u, p ≠ .link u) :
    Ensures (setScalar id p) h (fun _ h' => Written K h id h' strict) (Refused h) := by
  refine (setScalar_changes hst).mono ?_ fun _ _ he => he
  rintro _ _ ⟨hwp, hsame, rfl⟩
  have hw : w.payload.varType ≠ .array := by
    intro hw
    rcases hsame with he | he <;> rw [hw] at he
    · cases he
    · exact hp he.symm
  have hs' := hs.set_plain hst.var hst.no_link (Payload.elements_of_varType hw)
    (Payload.elements_of_varType hp) hl
  exact ⟨.change hs' (hst.not_mem_of_writable hc hsafe hwp) fun _ => rfl, stays_change_payload⟩

theorem duplicate_ensures (hs : h.Sound [] strict) (hK : ∀ x, K x → h.Live x) (hl : h.Live id) :
    Ensures (duplicate id) h (fun x h' => Temporary K h x h' strict) E := by
  rw [duplicate, Ensures.bind_iff]
  exact read_toValue hs hl fun value => allocValue_ensures value hs hK

end Heap

end FinLang

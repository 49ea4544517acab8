import FinLang.Proofs.Heap.Write

namespace FinLang

namespace Value

mutual

-- How many variables hold the value.
def nodes : Value → Nat
  | .null | .numeric _ | .string _ | .image _ => 1
  | .array items => nodesAll items + 1

def nodesAll : List Value → Nat
  | [] => 0
  | v :: rest => nodes v + nodesAll rest

end

end Value

namespace Heap

mutual

-- A content that is read in depth comes to a value. Elements are no links.
def Shows (h : Heap) : Payload → Value → Prop
  | p, .null => p = .null
  | p, .numeric n => p = .numeric n
  | p, .string s => p = .string s
  | p, .image i => p = .image i
  | p, .array values => ∃ items, p = .array items ∧ ShowsAll h items.toList values

def ShowsAll (h : Heap) : List VarId → List Value → Prop
  | ids, [] => ids = []
  | ids, value :: values =>
    ∃ id rest v, ids = id :: rest ∧ h.var? id = some v ∧ Shows h v.payload value ∧
      ShowsAll h rest values

end

-- A variable that is no link, with what its content comes to.
def Holds (h : Heap) (id : VarId) (value : Value) : Prop :=
  ∃ v, h.var? id = some v ∧ h.Shows v.payload value

-- A variable and all that lies in it have the same contents in another heap.
def Preserved (h h' : Heap) (top : VarId) : Prop :=
  ∀ x v, h.Below top x → h.var? x = some v → ∃ w, h'.var? x = some w ∧ w.payload = v.payload

variable {h h' : Heap} {loose : List VarId} {strict : Prop} {id t c : VarId} {v w : Variable}
  {p : Payload} {value : Value} {values : List Value} {o : Owner} {flag : Bool}

theorem Preserved.element (hp : Preserved h h' t) (hl : h.Lists t c) : Preserved h h' c :=
  fun x v hb hv => hp x v ((Below.refl.step hl).trans hb) hv

theorem Extends.preserved (hx : Extends h h') : Preserved h h' t :=
  fun x v _ hv => ⟨v, hx x v hv, rfl⟩

theorem Shows.no_link (hs : h.Shows p value) : ∀ u, p ≠ .link u := by
  rintro u rfl
  cases value <;> simp [Shows] at hs

theorem ShowsAll.mem {ids : List VarId} (hs : h.ShowsAll ids values) (hc : c ∈ ids) :
    ∃ v, h.var? c = some v ∧ ∀ u, v.payload ≠ .link u := by
  induction values generalizing ids with
  | nil =>
    rw [ShowsAll] at hs
    simp [hs] at hc
  | cons value values ih =>
    rw [ShowsAll] at hs
    obtain ⟨id, rest, v, rfl, hv, hshow, hrest⟩ := hs
    rcases List.mem_cons.mp hc with rfl | hc
    · exact ⟨v, hv, hshow.no_link⟩
    · exact ih hrest hc

mutual

-- What a content comes to depends on the variables that lie in it.
theorem Shows.preserve : (value : Value) → ∀ {p : Payload}, h.Shows p value →
    (∀ c ∈ p.elements, Preserved h h' c) → h'.Shows p value
  | .null, _, hs, _ | .numeric _, _, hs, _ | .string _, _, hs, _ | .image _, _, hs, _ => hs
  | .array values, p, hs, hp => by
    rw [Shows] at hs ⊢
    obtain ⟨items, rfl, hall⟩ := hs
    exact ⟨items, rfl, ShowsAll.preserve values hall fun c hc => hp c (Array.mem_toList_iff.mp hc)⟩

theorem ShowsAll.preserve : (values : List Value) → ∀ {ids : List VarId}, h.ShowsAll ids values →
    (∀ c ∈ ids, Preserved h h' c) → h'.ShowsAll ids values
  | [], _, hs, _ => by
    rw [ShowsAll] at hs ⊢
    exact hs
  | value :: values, ids, hs, hp => by
    rw [ShowsAll] at hs ⊢
    obtain ⟨id, rest, v, rfl, hv, hshow, hrest⟩ := hs
    have hid := hp id (List.mem_cons_self ..)
    obtain ⟨w, hw, hpay⟩ := hid id v .refl hv
    refine ⟨id, rest, w, rfl, hw, ?_, hrest.preserve values fun c hc => hp c (List.mem_cons_of_mem _ hc)⟩
    rw [hpay]
    exact hshow.preserve value fun c hc => hid.element ⟨v, hv, hc⟩

end

theorem Keeps.preserved {K : VarId → Prop} (hk : Keeps K h h') (ht : ∀ x, h.Below t x → K x) :
    Preserved h h' t :=
  fun x v hb hv => ⟨v, (hk x (ht x hb)).trans hv, rfl⟩

theorem Holds.preserve (hh : h.Holds id value) (hp : Preserved h h' id) : h'.Holds id value := by
  obtain ⟨v, hv, hshow⟩ := hh
  obtain ⟨w, hw, hpay⟩ := hp id v .refl hv
  exact ⟨w, hw, hpay ▸ hshow.preserve value fun c hc => hp.element ⟨v, hv, hc⟩⟩

-- The same variables with the same contents, whatever has become of owners and flags.
def SameContents (h h' : Heap) : Prop :=
  ∃ f, Maps f h h' ∧ ∀ x v, (f x v).payload = v.payload

namespace SameContents

theorem of_maps {f : VarId → Variable → Variable} (hm : Maps f h h')
    (hf : ∀ x v, (f x v).payload = v.payload) : SameContents h h' :=
  ⟨f, hm, hf⟩

theorem trans {h'' : Heap} (hs : SameContents h h') (hs' : SameContents h' h'') :
    SameContents h h'' := by
  obtain ⟨f, hm, hf⟩ := hs
  obtain ⟨g, hm', hg⟩ := hs'
  refine ⟨fun x v => g x (f x v), fun x => ?_, fun x v => (hg x _).trans (hf x v)⟩
  rw [hm' x, hm x, Option.map_map]
  rfl

theorem preserved (hs : SameContents h h') : Preserved h h' t := by
  obtain ⟨f, hm, hf⟩ := hs
  exact fun x v _ hv => ⟨_, hm.some hv, hf x v⟩

theorem live (hs : SameContents h h') : h'.Live c ↔ h.Live c := by
  obtain ⟨f, hm, -⟩ := hs
  exact hm.live

theorem lists (hs : SameContents h h') : h'.Lists t c ↔ h.Lists t c := by
  obtain ⟨f, hm, hf⟩ := hs
  exact hm.lists fun _ => by rw [hf]

theorem below (hs : SameContents h h') {x : VarId} : h'.Below t x ↔ h.Below t x := by
  obtain ⟨f, hm, hf⟩ := hs
  exact hm.below fun _ => by rw [hf]

theorem closed {K : VarId → Prop} (hs : SameContents h h') (hk : h.Closed K) : h'.Closed K := by
  obtain ⟨f, hm, hf⟩ := hs
  refine ⟨fun hx => hm.live.mpr (hk.live hx), fun hl => ?_, fun hv ht => ?_⟩
  · exact hk.element ((hm.lists fun _ => by rw [hf]).mp hl)
  · obtain ⟨v, hv', rfl⟩ := hm.of_some hv
    exact hk.link hv' (hf _ v ▸ ht)

end SameContents

section Reading

variable {n : Nat}

theorem payload_self (hv : h.var? id = some v) (hl : ∀ t, v.payload ≠ .link t) :
    h.payload id = .ok v.payload := by
  simp [payload, resolve_eq_self hv hl, lookup_eq hv, bind, Except.bind, pure, Except.pure]

theorem shows_of_toValueWithin (hs : h.Forest loose) (hv : h.var? id = some v)
    (hl : ∀ t, v.payload ≠ .link t) (hval : h.toValueWithin n id = .ok value) :
    h.Shows v.payload value := by
  induction n generalizing id v value with
  | zero => cases hval
  | succ n ih =>
    unfold toValueWithin at hval
    simp only [payload_self hv hl, bind, Except.bind] at hval
    rcases hp : v.payload with _ | _ | _ | _ | items | t
    case link => exact absurd hp (hl t)
    case array =>
      simp only [hp] at hval
      rcases hm : items.toList.mapM (h.toValueWithin n) with _ | values <;> rw [hm] at hval
      · cases hval
      cases hval
      rw [Shows]
      refine ⟨items, rfl, ?_⟩
      have hall : ∀ c ∈ items.toList, h.Lists id c := fun c hc =>
        ⟨v, hv, hp ▸ Array.mem_toList_iff.mp hc⟩
      -- Element by element along the list.
      generalize items.toList = ids at hm hall
      induction ids generalizing values with
      | nil =>
        cases hm
        rfl
      | cons c rest ihl =>
        obtain ⟨w, hw, -, hno⟩ := hs.element (hall c (List.mem_cons_self ..))
        simp only [List.mapM_cons, bind, Except.bind] at hm
        rcases hc : h.toValueWithin n c with _ | value <;> simp only [hc] at hm
        · cases hm
        rcases hr : rest.mapM (h.toValueWithin n) with _ | tail <;> simp only [hr] at hm
        · cases hm
        cases hm
        rw [ShowsAll]
        exact ⟨c, rest, w, rfl, hw, ih hw hno hc,
          ihl tail hr fun c hc => hall c (List.mem_cons_of_mem _ hc)⟩
    all_goals
      simp only [hp] at hval
      cases hval
      rfl

theorem toValueWithin_of_shows (hw : h.Within n id) (hv : h.var? id = some v)
    (hshow : h.Shows v.payload value) : h.toValueWithin n id = .ok value := by
  induction n generalizing id v value with
  | zero => exact hw.elim
  | succ n ih =>
    obtain ⟨u, hu, hel⟩ := hw
    rw [hv] at hu
    cases hu
    unfold toValueWithin
    simp only [payload_self hv hshow.no_link, bind, Except.bind]
    rcases value with _ | _ | _ | _ | values <;> rw [Shows] at hshow
    case array =>
      obtain ⟨items, hp, hall⟩ := hshow
      have hel : ∀ c ∈ items.toList, h.Within n c := fun c hc =>
        hel c (hp ▸ Array.mem_toList_iff.mp hc)
      have hm : items.toList.mapM (h.toValueWithin n) = .ok values := by
        generalize items.toList = ids at hall hel
        induction values generalizing ids with
        | nil =>
          rw [ShowsAll] at hall
          subst hall
          rfl
        | cons value values ihv =>
          rw [ShowsAll] at hall
          obtain ⟨c, rest, w, rfl, hw, hc, hrest⟩ := hall
          have hr := ihv rest hrest fun c hc => hel c (List.mem_cons_of_mem _ hc)
          simp [ih (hel c (List.mem_cons_self ..)) hw hc, hr, bind, Except.bind, pure, Except.pure]
      simp [hp, hm, pure, Except.pure]
    all_goals simp [hshow, pure, Except.pure]

-- The value of a handle is what the content comes to of the variable behind it.
theorem Sound.toValue_iff (hs : h.Sound loose strict) (hst : h.Stands id t w) :
    h.toValue id = .ok value ↔ h.Shows w.payload value := by
  have htarget : h.toValue id = h.toValue t := by
    simp only [toValue, walkBudget, toValueWithin, hst.payload, payload_self hst.var hst.no_link]
  rw [htarget]
  exact ⟨shows_of_toValueWithin hs.forest hst.var hst.no_link,
    toValueWithin_of_shows (hs.forest.within ⟨w, hst.var⟩) hst.var⟩

theorem Sound.toValue_of_holds (hs : h.Sound loose strict) (hh : h.Holds id value) :
    h.toValue id = .ok value := by
  obtain ⟨v, hv, hshow⟩ := hh
  have hno := hshow.no_link
  exact (hs.toValue_iff (.self hv hno)).mpr hshow

theorem Sound.exists_shows (hs : h.Sound loose strict) (hst : h.Stands id t w) :
    ∃ value, h.toValue id = .ok value ∧ h.Shows w.payload value := by
  obtain ⟨value, hvalue⟩ := hs.toValue_ok hst.live
  exact ⟨value, hvalue, (hs.toValue_iff hst).mp hvalue⟩

end Reading

section Building

-- What has been built before makes no difference to what comes next.
theorem buildItems_append (items : List Value) (built : Array VarId) :
    (buildItems o flag items built).run h =
      (built ++ ((buildItems o flag items #[]).run h).1,
        ((buildItems o flag items #[]).run h).2) := by
  have hcons : ∀ (item : Value) (rest : List Value) (built : Array VarId) (h : Heap),
      (buildItems o flag (item :: rest) built).run h =
        (buildItems o flag rest (built.push ((build o flag item).run h).1)).run
          ((build o flag item).run h).2 := fun item rest built h => by
    rw [buildItems]
    rfl
  induction items generalizing built h with
  | nil =>
    rw [buildItems, buildItems]
    exact Prod.ext (Array.append_empty ..).symm rfl
  | cons item rest ih =>
    rw [hcons, hcons, ih, ih (#[].push _)]
    simp

-- Once the content of a new variable is in place, the variable shows it.
private theorem build_of_payload
    (hpay : ∀ {h : Heap} {loose : List VarId} (id : VarId), h.Sound loose strict →
      ((buildPayload id flag value).run h).2.Shows ((buildPayload id flag value).run h).1 value ∧
        ((buildPayload id flag value).run h).2.arena.live + 1 = h.arena.live + value.nodes)
    (hs : h.Sound loose strict) :
    (∃ v, ((build o flag value).run h).2.var? ((build o flag value).run h).1 = some v ∧
        ((build o flag value).run h).2.Shows v.payload value) ∧
      ((build o flag value).run h).2.arena.live = h.arena.live + value.nodes := by
  have hins := (Built.refl hs : Built h h loose [] o flag strict).insert
  generalize hnew : Variable.make .null o flag = new at hins
  have hlive : (h.added new).Live (h.fresh new) := ⟨_, by rw [hs.forest.var?_added, if_pos rfl]⟩
  have hcount : (h.added new).arena.live = h.arena.live + 1 := Arena.live_insert _
  have hbuilt := (buildPayload_built flag value (h.fresh new) hins.sound).2
  obtain ⟨hshow, hnodes⟩ := hpay (h.fresh new) hins.sound
  have hrun : (build o flag value).run h = (h.fresh new,
      ((buildPayload (h.fresh new) flag value).run (h.added new)).2.change (h.fresh new) fun old =>
        { old with payload := ((buildPayload (h.fresh new) flag value).run (h.added new)).1 }) := by
    subst hnew
    rw [build]
    rfl
  rw [hrun]
  generalize (buildPayload (h.fresh new) flag value).run (h.added new) = r at hbuilt hshow hnodes
  obtain ⟨v, hv⟩ := hlive
  have hv' := hbuilt.extends_ _ _ hv
  refine ⟨⟨{ v with payload := r.1 }, by rw [var?_change, if_pos rfl, hv']; rfl, ?_⟩, ?_⟩
  · refine hshow.preserve value fun c hc x u hb hu => ⟨u, ?_, rfl⟩
    rw [var?_change, if_neg, hu]
    rintro rfl
    exact hbuilt.not_below (Array.mem_toList_iff.mpr hc) ⟨v, hv⟩ hb
  · rw [hcount] at hnodes
    exact Nat.add_right_cancel (hnodes.trans (Nat.add_right_comm ..))

mutual

-- What is built for a value shows it, in as many variables as the value has.
theorem buildPayload_shows (flag : Bool) : (value : Value) → ∀ {h : Heap} {loose : List VarId}
    (id : VarId), h.Sound loose strict →
      ((buildPayload id flag value).run h).2.Shows ((buildPayload id flag value).run h).1 value ∧
        ((buildPayload id flag value).run h).2.arena.live + 1 = h.arena.live + value.nodes
  | .null, _, _, _, _ | .numeric _, _, _, _, _ | .string _, _, _, _, _ | .image _, _, _, _, _ => by
    rw [buildPayload]
    exact ⟨rfl, rfl⟩
  | .array items, h, loose, id, hs => by
    obtain ⟨hshow, hcount⟩ := buildItems_shows flag items (.array id) hs
    have hrun : (buildPayload id flag (.array items)).run h =
        (.array ((buildItems (.array id) flag items #[]).run h).1,
          ((buildItems (.array id) flag items #[]).run h).2) := by
      rw [buildPayload]
      rfl
    rw [hrun, Shows, Value.nodes]
    exact ⟨⟨_, rfl, hshow⟩, congrArg (· + 1) hcount⟩

theorem buildItems_shows (flag : Bool) : (items : List Value) → ∀ {h : Heap} {loose : List VarId}
    (o : Owner), h.Sound loose strict →
      ((buildItems o flag items #[]).run h).2.ShowsAll ((buildItems o flag items #[]).run h).1.toList
          items ∧
        ((buildItems o flag items #[]).run h).2.arena.live = h.arena.live + Value.nodesAll items
  | [], _, _, _, _ => by
    rw [buildItems, ShowsAll]
    exact ⟨rfl, rfl⟩
  | item :: rest, h, loose, o, hs => by
    have hone := build_built (buildPayload_built flag item) (.refl (o := o) hs)
    obtain ⟨⟨v, hv, hshow⟩, hcount⟩ := build_of_payload (o := o) (buildPayload_shows flag item) hs
    have hrun : (buildItems o flag (item :: rest) #[]).run h =
        (buildItems o flag rest #[((build o flag item).run h).1]).run ((build o flag item).run h).2 := by
      rw [buildItems]
      rfl
    rw [hrun, buildItems_append]
    generalize (build o flag item).run h = r at hone hv hshow hcount
    obtain ⟨hrest, hcount'⟩ := buildItems_shows flag rest o hone.sound
    have hbuilt : Built r.2 r.2 _ (#[] : Array VarId).toList o flag strict := .refl hone.sound
    have hext := (buildItems_built flag rest hbuilt).extends_
    generalize (buildItems o flag rest #[]).run r.2 = r' at hrest hcount' hext
    rw [ShowsAll, Value.nodesAll]
    refine ⟨⟨r.1, r'.1.toList, v, by simp, hext _ _ hv, ?_, hrest⟩, ?_⟩
    · exact hshow.preserve item fun _ _ => hext.preserved
    · rw [hcount', hcount, Nat.add_assoc]

end

mutual

-- Building fills slots only.
theorem passed_build (o : Owner) (flag : Bool) : (value : Value) → ∀ {h : Heap},
    h.arena.Passed id → ((build o flag value).run h).2.arena.Passed id
  | value, _, hp => by
    rw [build]
    exact (passed_buildPayload _ flag value (hp.insert _)).modify

theorem passed_buildPayload (parent : VarId) (flag : Bool) : (value : Value) → ∀ {h : Heap},
    h.arena.Passed id → ((buildPayload parent flag value).run h).2.arena.Passed id
  | .null, _, hp | .numeric _, _, hp | .string _, _, hp | .image _, _, hp => by
    rw [buildPayload]
    exact hp
  | .array values, _, hp => by
    rw [buildPayload]
    exact passed_buildItems (.array parent) flag values #[] hp

theorem passed_buildItems (o : Owner) (flag : Bool) : (values : List Value) →
    (built : Array VarId) → ∀ {h : Heap}, h.arena.Passed id →
      ((buildItems o flag values built).run h).2.arena.Passed id
  | [], _, _, hp => by
    rw [buildItems]
    exact hp
  | value :: rest, _, _, hp => by
    rw [buildItems]
    exact passed_buildItems o flag rest _ (passed_build o flag value hp)

end

theorem build_holds (flag : Bool) (value : Value) (o : Owner) (hs : h.Sound loose strict) :
    ((build o flag value).run h).2.Holds ((build o flag value).run h).1 value :=
  (build_of_payload (o := o) (buildPayload_shows flag value) hs).1

theorem build_live (flag : Bool) (value : Value) (o : Owner) (hs : h.Sound loose strict) :
    ((build o flag value).run h).2.arena.live = h.arena.live + value.nodes :=
  (build_of_payload (o := o) (buildPayload_shows flag value) hs).2

-- A copy holds what is read behind the handle of the original.
theorem duplicate_holds {E : Failure → Heap → Prop} (hs : h.Sound loose strict)
    (hvalue : h.toValue id = .ok value) :
    Ensures (duplicate id) h (fun copy h' => h'.Holds copy value) E := by
  rw [duplicate, Ensures.bind_iff, read_ok (f := fun h => h.toValue id) hvalue]
  exact Ensures.lift_iff.mpr (build_holds false value .detached hs)

end Building

section Freeing

-- What is not freed, and no link, keeps its content.
theorem Freed.preserved {G : VarId → Prop} (hf : Freed G h h') (hs : h.Forest loose)
    (hv : h.var? t = .some v) (hl : ∀ u, v.payload ≠ .link u) (hG : ∀ x, h.Below t x → ¬G x) :
    Preserved h h' t := by
  intro x u hb hu
  refine ⟨_, hf.some (hG x hb) hu, Payload.without_eq_self ?_⟩
  rintro y hy -
  cases hb with
  | refl => exact hl y (Option.some.inj (hv.symm.trans hu) ▸ hy)
  | step _ hlist =>
    obtain ⟨w, hw, -, hno⟩ := hs.element hlist
    exact hno y (Option.some.inj (hw.symm.trans hu) ▸ hy)

-- As many variables are freed as the value has.
theorem freeWithin_live (n : Nat) {E : Failure → Heap → Prop} (hs : h.Sound (id :: loose) strict)
    (hn : h.arena.live < n) (hv : h.var? id = some v) (hshow : h.Shows v.payload value) :
    Ensures (freeWithin n id) h
      (fun _ h' => h'.arena.live + value.nodes = h.arena.live) E := by
  induction n generalizing h id loose v value with
  | zero => omega
  | succ n ih =>
    refine freeWithin_succ hs.linked hs.forest.arena hv fun h₁ ha₁ hlive₁ hf₁ _ => ?_
    have hs₁ := hs.forget hv ha₁ hf₁
    have hnone : v.payload.elements = #[] → value.nodes = 1 →
        Ensures (v.payload.elements.forM (freeWithin n)) h₁
          (fun _ h' => h'.arena.live + value.nodes = h.arena.live) E := by
      intro hel hone
      rw [hel, hone]
      exact hlive₁
    rcases value with _ | _ | _ | _ | values
    case array =>
      rw [Shows] at hshow
      obtain ⟨items, hp, hall⟩ := hshow
      have hall₁ : h₁.ShowsAll items.toList values := by
        refine hall.preserve values fun c hc => ?_
        obtain ⟨w, hw, hno⟩ := hall.mem hc
        refine hf₁.preserved hs.forest hw hno ?_
        rintro x hb rfl
        have hl : h.Lists x c := ⟨v, hv, hp ▸ Array.mem_toList_iff.mp hc⟩
        exact hs.forest.not_below_of_lists hl hb
      rw [hp] at hs₁ ⊢
      let I : List VarId → Heap → Prop := fun rest h' =>
        h'.Sound (rest ++ loose) strict ∧ h'.arena.live ≤ h₁.arena.live ∧
          ∃ values', h'.ShowsAll rest values' ∧
            h'.arena.live + Value.nodesAll values = h₁.arena.live + Value.nodesAll values'
      have hI : I items.toList h₁ := ⟨hs₁, Nat.le_refl _, values, hall₁, rfl⟩
      refine (Ensures.forM_array I ?_ items h₁ hI).mono ?_ fun _ _ he => he
      · rintro c rest h' ⟨hs', hle, values', hall', hcount⟩
        rcases values' with _ | ⟨value, values'⟩
        · rw [ShowsAll] at hall'
          cases hall'
        rw [ShowsAll] at hall'
        obtain ⟨_, _, w, heq, hw, hshow, hrest⟩ := hall'
        cases heq
        have hn' : h'.arena.live < n := by omega
        refine ((freeWithin_ensures n hs' hn').and (ih hs' hn' hw hshow)).mono ?_ fun _ _ he => he.1
        rintro _ h'' ⟨⟨hs'', hle', G, hf, -, hbelow⟩, hnodes⟩
        refine ⟨hs'', Nat.le_trans hle' hle, values', ?_, ?_⟩
        · refine hrest.preserve values' fun d hd => ?_
          obtain ⟨u, hu, hno⟩ := hrest.mem hd
          refine hf.preserved hs'.forest hu hno fun x hx hg => ?_
          -- Different loose variables have nothing in common.
          have hroot : ∀ y ∈ c :: rest, h'.Root y := fun y hy =>
            hs'.forest.loose_root (List.mem_append_left _ hy)
          have hnd := (List.nodup_append.mp hs'.forest.loose_nodup).1
          have heq := hs'.forest.root_unique (hroot c (List.mem_cons_self ..))
            (hroot d (List.mem_cons_of_mem _ hd)) (hbelow x hg) hx
          exact (List.nodup_cons.mp hnd).1 (heq ▸ hd)
        · rw [Value.nodesAll] at hcount
          omega
      · rintro _ h' ⟨-, -, values', hall', hcount⟩
        rcases values' with _ | ⟨value, values'⟩
        · rw [Value.nodes]
          simp only [Value.nodesAll] at hcount
          omega
        · rw [ShowsAll] at hall'
          obtain ⟨_, _, _, heq, -⟩ := hall'
          cases heq
    all_goals
      rw [Shows] at hshow
      exact hnone (by rw [hshow]; rfl) (by rw [Value.nodes])

theorem free_live {E : Failure → Heap → Prop} (hs : h.Sound (id :: loose) strict)
    (hv : h.var? id = some v) (hshow : h.Shows v.payload value) :
    Ensures (free id) h (fun _ h' => h'.arena.live + value.nodes = h.arena.live) E := by
  have hn : h.arena.live < h.walkBudget := Nat.lt_succ_of_le hs.forest.arena.live_le_size
  rw [free, Ensures.bind_iff, Ensures.get_iff]
  exact freeWithin_live _ hs hn hv hshow

end Freeing

end Heap

end FinLang

import FinLang.Proofs.Heap.Confined
import FinLang.Proofs.Heap.Growth
import FinLang.Proofs.Operation

namespace FinLang

namespace Heap

variable {h h' : Heap} {strict : Prop} {id t target source g : VarId} {v w w' u : Variable}
  {value : Value} {i : Nat} {c : VarId} {E : Failure → Heap → Prop}

-- A handle goes on standing for a variable that knows the same links.
theorem Stands.follow (hst : h.Stands id t w) (hl : h.Linked) (hl' : h'.Linked)
    (hw' : h'.var? t = some w') (hby : w'.linkedBy = w.linkedBy) (hno : ∀ u, w'.payload ≠ .link u) :
    h'.Stands id t w' := by
  rcases hst.self_or_link with rfl | ⟨v, hv, hlink⟩
  · exact .self hw' hno
  · obtain ⟨u, hu, hmem, -⟩ := hl.link hv hlink
    cases hst.var.symm.trans hu
    obtain ⟨v', hv', hlink'⟩ := hl'.linked hw' (hby ▸ hmem)
    exact ⟨resolve_eq_target hl' hv' hlink', hw', hno, .inr ⟨v', hv', hlink'⟩⟩

theorem Stands.writable_of_free (hst : h.Stands id id w) (hfree : w.writeProtected = false) :
    h.writable id = .ok (id, w) := by
  simp [Heap.writable, hst.resolve, lookup_eq hst.var, hfree, bind, Except.bind, pure, Except.pure]

theorem Stands.checkTypes (hst : h.Stands target t w) (hst' : h.Stands source g u)
    (htype : w.payload.varType ≠ .null → w.payload.varType = u.payload.varType) :
    checkTypes target source h = .ok () := by
  have hsame : ¬(w.payload.varType != .null && w.payload.varType != u.payload.varType) = true := by
    simpa using htype
  simp [Heap.checkTypes, hst.varType, hst'.varType, bind, Except.bind, hsame, pure, Except.pure]

theorem clear_clears (hs : h.Sound [] strict) (hst : h.Stands id id w) (hfree : w.writeProtected = false) :
    Ensures (clear id) h (fun r h' => r = (id, w.leftValue) ∧ Cleared h id w h' strict) E := by
  have hrun : Ensures (clear id) h (fun _ _ => True) fun _ _ => False := by
    rw [clear, Ensures.bind_iff,
      read_ok (f := fun h => h.writable id) (hst.writable_of_free hfree), Ensures.bind_iff, setPayload,
      update_iff hst.var, Ensures.bind_iff]
    exact (freeAll_ensures _ (hs.set_null hst.var hst.no_link)).mono (fun _ _ _ => trivial)
      fun _ _ he => he
  exact (hrun.and (clear_ensures hs hst)).mono (fun _ _ hq => hq.2.2) fun _ _ he => he.1.elim

section Writing

variable (hs : h.Sound [] strict) (hst : h.Stands target target w) (hst' : h.Stands source g u)
  (hfree : w.writeProtected = false)
  (htype : w.payload.varType ≠ .null → w.payload.varType = u.payload.varType)
  (hvalue : h.toValue source = .ok value)

include hs hst hst' hfree htype hvalue

-- A copy to a variable that is not protected and has the type of the source is not refused.
theorem copy_replaces :
    Ensures (copy target source) h (fun _ h' => Replaced h target target g value h' strict) E := by
  have hrun : Ensures (copy target source) h (fun _ _ => True) fun _ _ => False := by
    rw [copy, Ensures.bind_iff, read_resolve_iff hst, Ensures.bind_iff, read_resolve_iff hst']
    split
    · trivial
    rw [Ensures.bind_iff, read_ok (hst.checkTypes hst' htype), Ensures.bind_iff,
      read_ok (f := fun h => h.toValue source) hvalue, writeValue, Ensures.bind_iff]
    refine (clear_clears hs hst hfree).mono ?_ fun _ _ he => he
    rintro _ h₁ ⟨rfl, hcl⟩
    obtain ⟨w₁, hw₁, hnull, -, hflag, -⟩ := hcl.record
    have hs₁ := (hcl.step closed_nothing not_false).sound
    exact (fill_ensures value hs₁ hw₁ hnull hflag).mono (fun _ _ _ => trivial) fun _ _ he => he
  exact (hrun.and (copy_replaced hs hst hst' hvalue)).mono (fun _ _ hq => hq.2) fun _ _ he => he.1.elim

-- Neither is a hand-over.
theorem moveOrCopy_replaces (hleft : w.leftValue = true) :
    Ensures (moveOrCopy target source) h
      (fun _ h' => Replaced h target target g value h' strict ∧
        Confined (fun x => h.Below target x ∨ isSpare u = true ∧ h.Below g x) h h') E := by
  suffices hrun : Ensures (moveOrCopy target source) h
      (fun _ h' => Replaced h target target g value h' strict) fun _ _ => False from
    (hrun.and (moveOrCopy_confined hs hst hst' hleft)).mono (fun _ _ hq => hq) fun _ _ he => he.1.elim
  by_cases hcopy : isSpare u = true → target = g
  · rw [Ensures, run_moveOrCopy hst hst' hcopy]
    exact copy_replaces hs hst hst' hfree htype hvalue
  · obtain ⟨hspare, hne⟩ := Classical.not_imp.mp hcopy
    obtain ⟨hgf, items, hu⟩ := eq_array_of_isSpare hspare
    have hholds : h.Holds g value := ⟨u, hst'.var, (hs.toValue_iff hst').mp hvalue⟩
    rw [moveOrCopy, Ensures.bind_iff, read_resolve_iff hst', Ensures.bind_iff,
      read_lookup_iff hst'.var, if_neg (by simp [hspare]), Ensures.bind_iff, read_resolve_iff hst,
      if_neg hne, Ensures.bind_iff, read_ok (hst.checkTypes hst' htype), Ensures.bind_iff]
    refine (clear_clears hs hst hfree).mono ?_ fun _ _ he => he
    rintro _ h₁ ⟨rfl, hcl⟩
    refine (hcl.move hs closed_nothing hst hst' hleft hgf hu hne not_false not_false).mono ?_
      fun _ _ he => he
    rintro _ h₂ ⟨hwritten, hh⟩
    have ht : ¬h₁.Below g target := fun hb =>
      Stands.apart hs hst hst' hleft hgf (hcl.below hb) .refl
    exact hcl.replaced hs hst hst' hwritten.step.sound
      (Cleared.handed hs hst hst' hleft hgf hcl hu hh hholds) hwritten.stays (hh.stays target ht)
      hh.payload

end Writing

end Heap

namespace Operation

open Heap

-- A handle with a number that an array may have as an index.
def Indexes (h : Heap) (k : VarId) (i : Nat) : Prop :=
  ∃ x, h.numeric k = .ok x ∧ Number.index? x = some i ∧ i ≤ maxArrayIndex

-- An access of an access, as deep as there are indices.
def accessAll (a : VarId) (ks : List VarId) : HeapM VarId :=
  ks.foldlM (fun x k => calculate .access [x, k]) a

-- What an assignment to the end of a path comes to. The first heap is the one before the path has
-- been walked, the second one that before the assignment.
structure Assigned (h h₁ : Heap) (a t : VarId) (is : List Nat) (e s : VarId) (old : Value)
    (h' : Heap) : Prop where
  sound : h'.Sound [] False
  path : h'.at? t is = some e
  value : ∃ new, h₁.toValue s = .ok new ∧ h'.toValue a = .ok (old.alter is fun _ => new) ∧
    ((∀ g x, h.resolve s = .ok g → h.Below g x → ¬h.Below t x) → h.toValue s = .ok new)
  -- An element keeps its place, unless it lay in the one that has been replaced.
  handle : ∀ {js x}, h.at? t js = some x → (is <+: js → js = is) → h'.at? t js = some x
  kept : ∀ {js x}, h.at? t js = some x → ¬js <+: is → ¬is <+: js → h'.toValue x = h.toValue x
  again : ∀ {ks}, List.Forall₂ (Indexes h') ks is → (accessAll a ks).run.run h' = (.ok e, h')

variable {h h' h₁ : Heap} {strict : Prop} {a t c e g k s x : VarId} {w u v : Variable} {i j : Nat}
  {is js : List Nat} {ks : List VarId} {old : Value}

theorem numeric_of_stands (hst : h.Stands k t w) (hst' : h'.Stands k t w) : h'.numeric k = h.numeric k := by
  simp only [Heap.numeric, hst.payload, hst'.payload]

-- An index is no array, so a step along a path leaves it alone.
theorem Indexes.opened (hk : Indexes h k i) (hs : h.Sound [] strict) (hp : w.payload.Indexable)
    (hw : h.var? t = some w) (ho : Opened h t w j c h' strict) : Indexes h' k i := by
  obtain ⟨x, hx, hi⟩ := hk
  have hlive : h.Live k := by
    by_contra hl
    cases hx.symm.trans (numeric_stale hl)
  obtain ⟨g, u, hst⟩ := hs.stands hlive
  have hne : g ≠ t := by
    rintro rfl
    cases hst.var.symm.trans hw
    rw [Heap.numeric, hst.payload] at hx
    rcases hp with hp | ⟨items, hp⟩ <;> rw [hp] at hx <;> cases hx
  have hst' := hst.follow hs.linked ho.sound.linked (ho.others g u hne hst.var) rfl hst.no_link
  exact ⟨x, (numeric_of_stands hst hst').trans hx, hi⟩

-- An access gives what is found at the index if that is a left-value.
theorem access_run (hst : h.Stands a t w) (hp : w.payload.Indexable) (hk : Indexes h k i)
    (hrun : (element a i).run.run h = (.ok c, h₁)) (hl : h₁.isLeftValue c = .ok true) :
    (calculate .access [a, k]).run.run h = (.ok c, h₁) := by
  obtain ⟨x, hx, hi, hmax⟩ := hk
  have hindex : (fun h : Heap => do arrayIndex (← h.numeric k)) h = .ok i := by
    simp [hx, arrayIndex, hi, Nat.not_lt.mpr hmax, bind, Except.bind]
  have htype : ¬(w.payload.varType != .null && w.payload.varType != .array) = true := by
    rcases hp with hp | ⟨items, hp⟩ <;> simp [hp, Payload.varType]
  have hcalc : calculate .access [a, k] = access a k := rfl
  rw [hcalc, access, run_bind_of_ok (run_read (f := fun h => h.varType a) hst.varType), if_neg htype,
    run_bind_of_ok (run_read hindex), run_bind_of_ok hrun,
    run_bind_of_ok (run_read (f := fun h => h.isLeftValue c) hl)]
  rfl

theorem element_run (hst : h.Stands a t w) (hc : w.payload.elements[i]? = some c) :
    (element a i).run.run h = (.ok c, h) := by
  have hin : ¬w.payload.elements.size ≤ i := Nat.not_le.mpr (Array.getElem?_eq_some_iff.mp hc).1
  have hcount := elementCount_of_indexable (.inr ⟨_, Payload.eq_array_of_getElem? hc⟩)
  rw [element, run_bind_of_ok (run_read (f := fun h => h.resolve a) hst.resolve),
    run_bind_of_ok (run_read (f := fun h => h.lookup t) (lookup_eq hst.var)),
    run_bind_of_ok (run_read (f := fun _ => elementCount w.payload) hcount), if_neg hin,
    run_bind_of_ok (run_read (f := fun h => h.lookup t) (lookup_eq hst.var)), hc]
  rfl

-- In a left-value the accesses walk along the path.
theorem accessAll_run (hs : h.Sound [] strict) (hst : h.Stands a t w) (hleft : w.leftValue = true)
    (hp : h.Walkable t is) (hk : List.Forall₂ (Indexes h) ks is) :
    (accessAll a ks).run.run h = (elementAll a is).run.run h := by
  induction is generalizing h a t w ks with
  | nil =>
    cases hk
    rfl
  | cons i is ih =>
    cases hk with
    | cons hk hks =>
      have hindex := hp.indexable List.nil_prefix (by simp) rfl hst.var
      obtain ⟨c, h₁, hrun, ho⟩ : ∃ c h₁, (element a i).run.run h = (.ok c, h₁) ∧
          Opened h t w i c h₁ strict :=
        (element_opens hs hst hindex (hp.free List.nil_prefix rfl hst.var)).exists_run
      obtain ⟨extra, ht₁, hc, -⟩ := ho.array
      have hin := Array.mem_of_getElem? hc
      obtain ⟨u, hu, -, hno⟩ := ho.sound.forest.element ⟨_, ht₁, hin⟩
      have hl : u.leftValue = true := (ho.sound.flagged.left ht₁ hu hin).trans hleft
      rw [accessAll, elementAll, List.foldlM_cons, List.foldlM_cons, run_bind_of_ok hrun,
        run_bind_of_ok (access_run hst hindex hk hrun (hl ▸ isLeftValue_eq hu))]
      exact ih ho.sound (.self hu hno) hl (ho.walkable hst.var hp)
        (hks.imp fun _ _ hk => hk.opened hs hindex hst.var ho)

-- Where the path is there already they change nothing.
theorem accessAll_of_at? (hs : h.Sound [] strict) (hst : h.Stands a t w) (hleft : w.leftValue = true)
    (hne : is = [] → a = t) (he : h.at? t is = some e) (hk : List.Forall₂ (Indexes h) ks is) :
    (accessAll a ks).run.run h = (.ok e, h) := by
  induction is generalizing a t w ks with
  | nil =>
    cases hk
    cases he
    cases hne rfl
    rfl
  | cons i is ih =>
    cases hk with
    | cons hk hks =>
      obtain ⟨w', c, hw', hc, he⟩ := at?_cons_iff.mp he
      cases hst.var.symm.trans hw'
      have hin := Array.mem_of_getElem? hc
      obtain ⟨u, hu, -, hno⟩ := hs.forest.element ⟨w, hst.var, hin⟩
      have hl : u.leftValue = true := (hs.flagged.left hst.var hu hin).trans hleft
      have hrun := access_run hst (.inr ⟨_, Payload.eq_array_of_getElem? hc⟩) hk (element_run hst hc)
        (hl ▸ isLeftValue_eq hu)
      rw [accessAll, List.foldlM_cons, run_bind_of_ok hrun]
      exact ih (.self hu hno) hl (fun _ => rfl) he hks

theorem assign_run (hst : h.Stands a a w) (hleft : w.leftValue = true) (hfree : w.writeProtected = false)
    (hrun : (moveOrCopy a s).run.run h = (.ok (), h')) :
    (calculate .assign [a, s]).run.run h = (.ok a, h') := by
  have hcalc : calculate .assign [a, s] = assign a s := rfl
  rw [hcalc, assign, run_bind_of_ok (run_read (f := fun h => h.isLeftValue a) (isLeftValue_eq hst.var)),
    if_neg (by simp [hleft]),
    run_bind_of_ok (run_read (f := fun h => h.isWriteProtected a) (hst.isWriteProtected hst.var)),
    if_neg (by simp [hfree]), run_bind_of_ok hrun]
  rfl

-- What lies beside the end of the path is not written to.
theorem same_outside (hs : h.Sound [] strict) (hst : h.Stands a t w) (hst' : h.Stands s g u)
    (hleft : w.leftValue = true)
    (hc : Confined (fun x => h.Below e x ∨ isSpare u = true ∧ h.Below g x) h h')
    (hb : h.Below t x) (hout : ¬h.Below e x) (hv : h.var? x = some v) : h'.var? x = some v := by
  have hT : ¬(h.Below e x ∨ isSpare u = true ∧ h.Below g x) := by
    rintro (hex | ⟨hspare, hgx⟩)
    · exact hout hex
    · exact Stands.apart hs hst hst' hleft (eq_array_of_isSpare hspare).1 hgx hb
  have hno : ∀ y, v.payload ≠ .link y := by
    by_cases hxt : x = t
    · subst hxt
      cases hv.symm.trans hst.var
      exact hst.no_link
    · exact hs.forest.no_link_of_below hb hxt hv
  rw [hc x v hT hv, Payload.without_eq_self fun y hy => absurd hy (hno y)]

-- Apart from what the path leads to, a source has the same value when the path has been walked.
theorem toValue_of_apart (hs : h.Sound [] strict) (hg : Grown h t is e h₁ strict) (hlive : h.Live s)
    (hapart : ∀ g x, h.resolve s = .ok g → h.Below g x → ¬h.Below t x) : h₁.toValue s = h.toValue s := by
  obtain ⟨g, u, hst⟩ := hs.stands hlive
  obtain ⟨value, hvalue, hshow⟩ := hs.exists_shows hst
  have hsame : ∀ {x v}, h.Below g x → h.var? x = some v → h₁.var? x = some v := fun hb hv =>
    (hg.frame hv).resolve_right fun ha => hapart g _ hst.resolve hb ha.1.below
  have hst₁ := hst.follow hs.linked hg.sound.linked (hsame .refl hst.var) rfl hst.no_link
  rw [hvalue]
  refine (hg.sound.toValue_iff hst₁).mpr (hshow.preserve value fun c hc x v hb hv => ⟨v, ?_, rfl⟩)
  exact hsame ((Below.refl.step ⟨u, hst.var, hc⟩).trans hb) hv

section Assigning

variable {new : Value} (hs : h.Sound [] False) (hst : h.Stands a t w) (hleft : w.leftValue = true)
  (hne : is ≠ []) (hg : Grown h t is e h₁ False)

include hs hst hg

-- The array stands where it stood, with the flags it had.
theorem grown_stands : ∃ p, h₁.Stands a t { w with payload := p } := by
  rcases hg.frame hst.var with hw | ⟨-, -, extra, hw⟩
  · exact ⟨w.payload, hst.follow hs.linked hg.sound.linked hw rfl hst.no_link⟩
  · exact ⟨_, hst.follow hs.linked hg.sound.linked hw rfl nofun⟩

include hleft hne

theorem assigned (hst' : h₁.Stands s g u) (hlive : h.Live s) (hold : h.toValue a = .ok old)
    (hnew : h₁.toValue s = .ok new) (hr : Replaced h₁ e e g new h' False)
    (hc : Confined (fun x => h₁.Below e x ∨ isSpare u = true ∧ h₁.Below g x) h₁ h') :
    Assigned h h₁ a t is e s old h' := by
  obtain ⟨p, hst₁⟩ := grown_stands hs hst hg
  have hfor := hg.sound.forest
  have hsame : ∀ {x v}, h₁.Below t x → ¬h₁.Below e x → h₁.var? x = some v → h'.var? x = some v :=
    fun hb hout hv => same_outside hg.sound hst₁ hst' hleft hc hb hout hv
  have hout : ChangedBelow h₁ h' t e := fun hb hnot hv => ⟨_, hsame hb hnot hv, rfl⟩
  have htop : ¬h₁.Below e t := fun hb => hne (List.prefix_nil.mp (hfor.prefix_of_below hg.path rfl hb))
  have hst'' := hst₁.follow hg.sound.linked hr.sound.linked (hsame .refl htop hst₁.var) rfl hst₁.no_link
  have hend : h'.at? t is = some e := hfor.at?_beside hg.path hg.path hout fun _ => rfl
  have hvalue : h'.toValue a = .ok (old.alter is fun _ => new) := by
    have hgrown := hg.value ⟨w, hst.var, (hs.toValue_iff hst).mp hold⟩
    have hholds := hfor.holds_alter hg.path hgrown hout hr.taken
    rw [Value.alter_alter] at hholds
    obtain ⟨w', hw', hshow⟩ := hholds
    cases hst''.var.symm.trans hw'
    exact (hr.sound.toValue_iff hst'').mpr hshow
  have hkept : ∀ {js x}, h.at? t js = some x → ¬js <+: is → ¬is <+: js → h'.toValue x = h.toValue x := by
    intro js x hx hjs his
    have hb := below_of_at? hx
    have hxt := hs.forest.ne_of_at? hx fun hnil => hjs (hnil ▸ List.nil_prefix)
    obtain ⟨v, hv⟩ := hb.live hs.forest ⟨w, hst.var⟩
    obtain ⟨value, hval, hshow⟩ := hs.exists_shows (.self hv (hs.forest.no_link_of_below hb hxt hv))
    have hholds := Holds.preserve ⟨v, hv, hshow⟩ (hg.preserved hs.forest hx hjs)
    rw [hval]
    exact hr.sound.toValue_of_holds
      (hholds.preserve (hfor.preserved_beside hg.path (hg.at?_mono hx) hout hjs his))
  exact ⟨hr.sound, hend, ⟨new, hnew, hvalue, fun hapart =>
      (toValue_of_apart hs hg hlive hapart).symm.trans hnew⟩,
    fun hx => hfor.at?_beside hg.path (hg.at?_mono hx) hout, hkept,
    accessAll_of_at? hr.sound hst'' hleft (fun hnil => absurd hnil hne) hend⟩

end Assigning

-- An assignment to an element at any depth changes the value of the array as the path says, and
-- nothing beside the path.
theorem assign_indexed (hs : h.Sound [] False) (ha : h.resolve a = .ok t) (hw : h.var? t = some w)
    (hleft : w.leftValue = true) (hne : is ≠ []) (hwalk : h.Walkable t is) (hlive : h.Live s)
    (htype : ∀ e u, h.at? t is = some e → h.var? e = some u → u.payload.varType ≠ .null →
      h.varType s = .ok u.payload.varType)
    (hold : h.toValue a = .ok old) :
    ∃ e h₁ h', (∀ ks, List.Forall₂ (Indexes h) ks is → (accessAll a ks).run.run h = (.ok e, h₁)) ∧
      (calculate .assign [e, s]).run.run h₁ = (.ok e, h') ∧ Assigned h h₁ a t is e s old h' := by
  have hst := hs.stands_of_resolve ha hw
  obtain ⟨e, h₁, hrun, hg⟩ : ∃ e h₁, (elementAll a is).run.run h = (.ok e, h₁) ∧
      Grown h t is e h₁ False :=
    (elementAll_grows hs hst (fun hnil => absurd hnil hne) hwalk).exists_run
  obtain ⟨p, hst₁⟩ := grown_stands hs hst hg
  have hfor := hg.sound.forest
  have hb := below_of_at? hg.path
  obtain ⟨u, hu⟩ := hb.live hfor ⟨_, hst₁.var⟩
  have hself := Stands.self hu (hfor.no_link_of_below hb (hfor.ne_of_at? hg.path hne) hu)
  have hul : u.leftValue = true := (hg.sound.flagged.below hb hst₁.var hu).trans hleft
  obtain ⟨g, v, hst'⟩ := hg.sound.stands (hg.live hlive)
  obtain ⟨new, hnew⟩ := hg.sound.toValue_ok hst'.live
  have hfree : u.writeProtected = false := by
    rcases hg.reached with ⟨he, rfl⟩ | ⟨u', hu', -, hfree⟩
    · exact hwalk.free List.prefix_rfl he hu
    · cases hu.symm.trans hu'
      exact hfree
  have hsame : u.payload.varType ≠ .null → u.payload.varType = v.payload.varType := by
    intro hnull
    rcases hg.reached with ⟨he, rfl⟩ | ⟨u', hu', hp, -⟩
    · exact (Except.ok.inj (hst'.varType.symm.trans (htype e u he hu hnull))).symm
    · cases hu.symm.trans hu'
      exact absurd (congrArg Payload.varType hp) hnull
  obtain ⟨⟨⟩, h', hassign, hr, hc⟩ :=
    (moveOrCopy_replaces hg.sound hself hst' hfree hsame hnew hul).exists_run
  exact ⟨e, h₁, h', fun ks hk => (accessAll_run hs hst hleft hwalk hk).trans hrun,
    assign_run hself hul hfree hassign, assigned hs hst hleft hne hg hst' hlive hold hnew hr hc⟩

-- A left-value array of one null, and a string.
def nestedNull : Heap :=
  [Op.alloc .null, .alloc (.array #[⟨0, 0⟩]), .setLeftValue ⟨1, 0⟩ true,
    .alloc (.string "text")].foldl (fun h op => op.after h) Heap.empty

theorem nestedNull_arises : Arises nestedNull := by
  have hscalar {h : Heap} (ha : Arises h) {p : Payload} (hl : ∀ t, p ≠ .link t)
      (he : p.elements = #[]) : Arises (Op.after (.alloc p) h) :=
    ha.step _ ⟨hl, by simp [he], by simp [he]⟩
  have h₁ : Arises (Op.after (.alloc .null) .empty) := hscalar .empty (by simp) rfl
  have h₂ := h₁.step (.alloc (.array #[⟨0, 0⟩])) ⟨by simp, by decide, by
    intro c hc
    obtain rfl : c = ⟨0, 0⟩ := by simpa [Payload.elements] using hc
    exact ⟨_, rfl, rfl, by simp [Variable.temporary, Variable.make], rfl⟩⟩
  have h₃ := h₂.step (.setLeftValue ⟨1, 0⟩ true) fun p => h₂.not_lists (by decide)
  exact hscalar h₃ (by simp) rfl

theorem nestedNull_walkable : nestedNull.Walkable ⟨1, 0⟩ [0, 2] := by
  have hsteps : ∀ {js : List Nat}, js <+: [0, 2] → js = [] ∨ js = [0] ∨ js = [0, 2] := fun hjs => by
    simpa [List.prefix_cons_iff, and_or_left, exists_or] using hjs
  constructor
  · intro js x w hjs hx hw
    rcases hsteps hjs with rfl | rfl | rfl
    · cases hx
      cases hw
      rfl
    · cases hx
      cases hw
      rfl
    · cases hx
  · intro js x w hjs _ hx hw
    rcases hsteps hjs with rfl | rfl | rfl
    · cases hx
      cases hw
      exact .inr ⟨_, rfl⟩
    · cases hx
      cases hw
      exact .inl rfl
    · cases hx

theorem assign_indexed_null :
    nestedNull.Sound [] False ∧ nestedNull.Walkable ⟨1, 0⟩ [0, 2] ∧
      nestedNull.toValue ⟨1, 0⟩ = .ok (.array [.null]) ∧
      ∃ e h₁ h', (∀ ks, List.Forall₂ (Indexes nestedNull) ks [0, 2] →
          (accessAll ⟨1, 0⟩ ks).run.run nestedNull = (.ok e, h₁)) ∧
        (calculate .assign [e, ⟨2, 0⟩]).run.run h₁ = (.ok e, h') ∧
        Assigned nestedNull h₁ ⟨1, 0⟩ ⟨1, 0⟩ [0, 2] e ⟨2, 0⟩ (.array [.null]) h' := by
  have hs := Arises.sound nestedNull_arises
  exact ⟨hs, nestedNull_walkable, rfl, assign_indexed hs rfl rfl rfl (by simp) nestedNull_walkable
    ⟨_, rfl⟩ (fun _ _ he => by cases he) rfl⟩

end Operation

end FinLang

import FinLang.Operation
import FinLang.Proofs.Heap.Elements

namespace FinLang

-- Operators that neither write to an operand nor give one back.
def Operator.computes : Operator → Bool
  | .assign | .comma | .access | .preIncrement | .preDecrement | .postIncrement | .postDecrement =>
    false
  | _ => true

namespace Operation

open Heap

-- A value that an operation gives back, and what it has done to the heap.
structure Gives (K : VarId → Prop) (h : Heap) (id : VarId) (h' : Heap) : Prop where
  step : Step K (· = id) [] h h'
  held : h'.Held id
  safe : Safe K h' id

-- A value that has been computed: a new temporary without elements is all that has changed.
structure Computed (h : Heap) (id : VarId) (h' : Heap) : Prop where
  added : ∃ p : Payload, p.elements = #[] ∧ (∀ t, p ≠ .link t) ∧ id = h.fresh (.temporary p) ∧
    h' = h.added (.temporary p)

variable {α : Type} {h h' : Heap} {K : VarId → Prop} {a b id t : VarId} {v w : Variable} {op : Operator}
  {symbol : String} {delta : Float}
  {Q : α → Heap → Prop} {E : Failure → Heap → Prop}

theorem Gives.of_temporary (ht : Temporary K h id h') (hc : h.Closed K) : Gives K h id h' := by
  refine ⟨ht.step, ht.held, fun hk => ?_⟩
  obtain ⟨v, hv⟩ := hc.live hk
  rw [ht.fresh] at hv
  cases hv

theorem Computed.temporary {strict : Prop} (hcomp : Computed h id h') (hs : h.Sound [] strict)
    (hc : h.Closed K) : Temporary K h id h' strict := by
  obtain ⟨p, hel, hl, rfl, rfl⟩ := hcomp.added
  exact temporary_added hs (fun x hx => hc.live hx) hel hl

theorem Gives.of_computed (hcomp : Computed h id h') (hs : h.Sound []) (hc : h.Closed K) :
    Gives K h id h' :=
  .of_temporary (hcomp.temporary hs hc) hc

-- What has been written to is given back as it is.
theorem Gives.of_written (hw : Written K h a h') (hsafe : Safe K h a)
    (hv : h.var? a = some v) (hleft : v.leftValue = true) : Gives K h a h' := by
  obtain ⟨w, hw', -, hl, -⟩ := hw.stays v hv
  exact ⟨hw.step.mono fun _ => False.elim, ⟨w, hw', .inr (hl.trans hleft)⟩,
    fun hk => (hw.step.keeps.frozen hk).mpr (hsafe hk)⟩

theorem numericOperand_ordinary {p : Payload} {e : Failure}
    (he : numericOperand symbol p = .error e) : e.cause.Ordinary := by
  cases p <;> cases he <;> exact ⟨nofun, nofun⟩

theorem counter_cases {p : Payload} :
    (∃ n, counter symbol p = .ok n) ∨ ∃ e, counter symbol p = .error e ∧ e.cause.Ordinary := by
  cases p with
  | null => exact .inl ⟨_, rfl⟩
  | numeric n => exact .inl ⟨_, rfl⟩
  | _ => exact .inr ⟨_, rfl, nofun, nofun⟩

theorem factorial_ordinary {x : Float} {e : Failure} (he : Number.factorial x = .error e) :
    e.cause.Ordinary := by
  unfold Number.factorial at he
  split at he
  · split at he
    · cases he
      exact ⟨nofun, nofun⟩
    · cases he
  · cases he
    exact ⟨nofun, nofun⟩

theorem toWord_ordinary {x : Float} {e : Failure} (he : Number.toWord x = .error e) :
    e.cause.Ordinary := by
  unfold Number.toWord at he
  split at he
  · split at he
    · cases he
    · cases he
      exact ⟨nofun, nofun⟩
  · cases he
    exact ⟨nofun, nofun⟩

theorem arithmetic_ordinary {l r : Float} {e : Failure} (he : arithmetic op l r = .error e) :
    e.cause.Ordinary := by
  unfold arithmetic at he
  split at he
  case h_3 | h_4 =>
    split at he <;> cases he
    exact ⟨nofun, nofun⟩
  all_goals cases he

theorem arrayIndex_ordinary {x : Float} {e : Failure} (he : arrayIndex x = .error e) :
    e.cause.Ordinary := by
  unfold arrayIndex at he
  split at he
  · split at he <;> cases he
    exact ⟨nofun, nofun⟩
  · cases he
    exact ⟨nofun, nofun⟩

theorem sum_cases (l r : Payload) :
    (∃ p, sum l r = .ok p ∧ p.elements = #[] ∧ ∀ t, p ≠ .link t) ∨
      ∃ e, sum l r = .error e ∧ e.cause.Ordinary := by
  unfold sum
  split
  case h_5 => exact .inr ⟨_, rfl, nofun, nofun⟩
  all_goals exact .inl ⟨_, rfl, rfl, nofun⟩

theorem allocNumeric_computes (x : Float) :
    Ensures (liftM (allocNumeric x) : HeapM VarId) h (Computed h) E :=
  (alloc_iff (p := .numeric x) rfl).mpr ⟨.numeric x, rfl, nofun, rfl, rfl⟩

-- A step and an assignment ask for a handle that is a left-value and is not protected.
theorem step_checked {Q : Float → Heap → Prop} (hst : h.Stands a t w) (hv : h.var? a = some v)
    (hq : ∀ n, v.leftValue = true →
      Ensures (setNumeric a (n + delta)) h (fun _ h' => Q n h') (Refused h)) :
    Ensures (step symbol delta a) h Q (Refused h) := by
  rw [step, Ensures.bind_iff, read_ok (f := fun h => h.isLeftValue a) (isLeftValue_eq hv)]
  split
  · rw [Ensures.bind_iff]
    exact fail_iff.mpr ⟨rfl, nofun, nofun⟩
  rename_i hl
  have hl : v.leftValue = true := by simpa using hl
  rw [Ensures.bind_iff, read_ok (f := fun h => h.isWriteProtected a) (hst.isWriteProtected hv)]
  split
  · rw [Ensures.bind_iff]
    exact fail_iff.mpr ⟨rfl, nofun, nofun⟩
  have hread : (fun h : Heap => do counter symbol (← h.payload a)) h = counter symbol w.payload := by
    simp only [hst.payload, bind, Except.bind]
  rw [Ensures.bind_iff]
  rcases @counter_cases symbol w.payload with ⟨n, hn⟩ | ⟨e, he, ho⟩
  · rw [read_ok (hread.trans hn), Ensures.bind_iff]
    exact hq n hl
  · exact (read_error (hread.trans he)).mpr ⟨rfl, ho⟩

theorem assign_checked {Q : VarId → Heap → Prop} (hst : h.Stands a t w) (hv : h.var? a = some v)
    (hq : v.leftValue = true →
      Ensures (moveOrCopy a b) h (fun _ h' => Q a h') (Refused h)) :
    Ensures (assign a b) h Q (Refused h) := by
  rw [assign, Ensures.bind_iff, read_ok (f := fun h => h.isLeftValue a) (isLeftValue_eq hv)]
  split
  · rw [Ensures.bind_iff]
    exact fail_iff.mpr ⟨rfl, nofun, nofun⟩
  rename_i hl
  rw [Ensures.bind_iff, read_ok (f := fun h => h.isWriteProtected a) (hst.isWriteProtected hv)]
  split
  · rw [Ensures.bind_iff]
    exact fail_iff.mpr ⟨rfl, nofun, nofun⟩
  rw [Ensures.bind_iff]
  exact hq (by simpa using hl)

section

variable {strict : Prop} (hs : h.Sound [] strict)

include hs

theorem numeric_ordinary {e : Failure} (ha : h.Live a) (he : h.numeric a = .error e) :
    e.cause.Ordinary := by
  obtain ⟨t, w, hst⟩ := hs.stands ha
  simp only [Heap.numeric, hst.payload, bind, Except.bind] at he
  split at he
  · cases he
  · cases he
    simp [Cause.Ordinary, Failure.of, Cause.kind]

theorem number_ensures {Q : Float → Heap → Prop} (ha : h.Live a) (hq : ∀ n, Q n h) :
    Ensures (number op a) h Q (Refused h) := by
  obtain ⟨t, w, hst⟩ := hs.stands ha
  refine read_ensures (fun e he => ?_) fun n _ => hq n
  simp only [hst.payload, bind, Except.bind] at he
  exact numericOperand_ordinary he

theorem word_ensures {Q : UInt32 → Heap → Prop} (ha : h.Live a) (hq : ∀ n, Q n h) :
    Ensures (word a) h Q (Refused h) := by
  refine read_ensures (fun e he => ?_) fun n _ => hq n
  rcases hn : h.numeric a with e' | n
  · simp only [hn, bind, Except.bind] at he
    cases he
    exact numeric_ordinary hs ha hn
  · simp only [hn, bind, Except.bind] at he
    exact toWord_ordinary he

theorem toBool_ensures {Q : Bool → Heap → Prop} (ha : h.Live a) (hq : ∀ n, Q n h) :
    Ensures (read (·.toBool a)) h Q E := by
  obtain ⟨n, hn⟩ := hs.toBool_ok ha
  exact (read_ok (f := fun h => h.toBool a) hn).mpr (hq n)

theorem equals_ensures {Q : Bool → Heap → Prop} (ha : h.Live a) (hb : h.Live b)
    (hq : ∀ n, Q n h) : Ensures (read (·.equals a b)) h Q E := by
  obtain ⟨x, hx⟩ := hs.toValue_ok ha
  obtain ⟨y, hy⟩ := hs.toValue_ok hb
  have hn : h.equals a b = .ok (x == y) := by
    simp [equals, hx, hy, bind, Except.bind, pure, Except.pure]
  exact (read_ok (f := fun h => h.equals a b) hn).mpr (hq _)

theorem add_computes (ha : h.Live a) (hb : h.Live b) :
    Ensures (add a b) h (Computed h) (Refused h) := by
  obtain ⟨t, w, hst⟩ := hs.stands ha
  obtain ⟨t', w', hst'⟩ := hs.stands hb
  rw [add, Ensures.bind_iff]
  have hread : (fun h : Heap => do sum (← h.payload a) (← h.payload b)) h =
      sum w.payload w'.payload := by
    simp only [hst.payload, hst'.payload, bind, Except.bind]
  rcases sum_cases w.payload w'.payload with ⟨p, hp, hel, hl⟩ | ⟨e, he, ho⟩
  · exact (read_ok (hread.trans hp)).mpr ((alloc_iff hel).mpr ⟨p, hel, hl, rfl, rfl⟩)
  · exact (read_error (hread.trans he)).mpr ⟨rfl, ho⟩

theorem arithmetic_computes (ha : h.Live a) (hb : h.Live b) :
    Ensures (do
      let l ← number op a
      let r ← number op b
      allocNumeric (← read fun _ => arithmetic op l r)) h (Computed h) (Refused h) := by
  rw [Ensures.bind_iff]
  refine number_ensures hs ha fun l => ?_
  rw [Ensures.bind_iff]
  refine number_ensures hs hb fun r => ?_
  rw [Ensures.bind_iff]
  exact read_ensures (fun e he => arithmetic_ordinary he) fun n _ => allocNumeric_computes n

theorem compare_computes (ha : h.Live a) (hb : h.Live b) :
    Ensures (do
      let l ← number op a
      let r ← number op b
      allocBool (compare op l r)) h (Computed h) (Refused h) := by
  rw [Ensures.bind_iff]
  refine number_ensures hs ha fun l => ?_
  rw [Ensures.bind_iff]
  exact number_ensures hs hb fun r => allocNumeric_computes _

theorem logic_computes (ha : h.Live a) (hb : h.Live b) :
    Ensures (do
      let l ← read (·.toBool a)
      let r ← read (·.toBool b)
      allocBool (logic op l r)) h (Computed h) E := by
  rw [Ensures.bind_iff]
  refine toBool_ensures hs ha fun l => ?_
  rw [Ensures.bind_iff]
  exact toBool_ensures hs hb fun r => allocNumeric_computes _

theorem bitwise_computes (ha : h.Live a) (hb : h.Live b) :
    Ensures (do
      let l ← word a
      let r ← word b
      allocNumeric (Number.ofWord (bitwise op l r))) h (Computed h) (Refused h) := by
  rw [Ensures.bind_iff]
  refine word_ensures hs ha fun l => ?_
  rw [Ensures.bind_iff]
  exact word_ensures hs hb fun r => allocNumeric_computes _

-- An access asks for an array, or a null, and an index.
theorem access_checked {Q : VarId → Heap → Prop} (hst : h.Stands a t w) (hb : h.Live b)
    (hq : ∀ i, (∀ n, w.payload ≠ .numeric n) →
      Ensures (do
        let item ← element a i
        if ← read (·.isLeftValue item) then
          return item
        else
          detachElement a i) h Q (Refused h)) :
    Ensures (access a b) h Q (Refused h) := by
  rw [access, Ensures.bind_iff, read_ok (f := fun h => h.varType a) hst.varType]
  split
  · rw [Ensures.bind_iff]
    exact fail_iff.mpr ⟨rfl, nofun, nofun⟩
  rename_i htype
  rw [Ensures.bind_iff]
  refine read_ensures (fun e he => ?_) fun i _ => hq i fun n hn => htype ?_
  · rcases hn : h.numeric b with e' | n
    · simp only [hn, bind, Except.bind] at he
      cases he
      exact numeric_ordinary hs hb hn
    · simp only [hn, bind, Except.bind] at he
      exact arrayIndex_ordinary he
  · simp [hn, Payload.varType]

-- The element of a left-value stays in its place, that of a temporary is taken out.
theorem item_ensures {i : Nat} (hc : h.Closed K) (hst : h.Stands a t w) (hkt : ¬K t) :
    Ensures (do
      let item ← element a i
      if ← read (·.isLeftValue item) then
        return item
      else
        detachElement a i) h
      (fun c h' => ∃ h₁, Reached K h t w i c h₁ strict ∧ ¬K c ∧ h₁.Lists t c ∧
        (h' = h₁ ∧ (∃ u, h₁.var? c = some u ∧ u.leftValue = true) ∨
          Step K (· = c) [] h₁ h' strict ∧ h'.Held c ∧
            ∃ p, Taken h₁ t { w with payload := p } c h'))
      (Refused h) := by
  rw [Ensures.bind_iff]
  refine (element_ensures hs hc hst hkt).mono ?_ fun _ _ he => he
  intro c h₁ hr
  have hsound := hr.step.sound
  obtain ⟨p, hst₁, hget⟩ := hr.stands hst
  have hc₁ := hc.keeps hs hsound hr.step.keeps
  have hin : c ∈ p.elements := Array.mem_of_getElem? hget
  have hlist : h₁.Lists t c := ⟨_, hst₁.var, hin⟩
  have hkc : ¬K c := mt (hc₁.element hlist).mp hkt
  obtain ⟨u, hu, -⟩ := hsound.forest.element hlist
  rw [Ensures.bind_iff, read_ok (f := fun h => h.isLeftValue c) (isLeftValue_eq hu)]
  split
  · rename_i hl
    exact ⟨h₁, hr, hkc, hlist, .inl ⟨rfl, u, hu, hl⟩⟩
  · rename_i hl
    have hl : w.leftValue = false := by simpa [hsound.flagged.left hst₁.var hu hin] using hl
    refine (detachElement_ensures hsound hc₁ hst₁ hkt hl hget).mono ?_ fun _ _ he => he
    rintro _ h₂ ⟨rfl, hstep₂, hheld, htaken⟩
    exact ⟨h₁, hr, hkc, hlist, .inr ⟨hstep₂, hheld, p, htaken⟩⟩

-- Most operators do no more than to compute a value.
theorem unary_computes (hop : op.computes = true) (ha : h.Live a) :
    Ensures (unary op a) h (Computed h) (Refused h) := by
  cases op with
  | positive | negative =>
    refine Ensures.bind_iff.mpr ?_
    exact number_ensures hs ha fun n => allocNumeric_computes _
  | factorial =>
    refine Ensures.bind_iff.mpr (number_ensures hs ha fun n => ?_)
    rw [Ensures.bind_iff]
    exact read_ensures (fun e he => factorial_ordinary he) fun n _ => allocNumeric_computes n
  | logicNot =>
    refine Ensures.bind_iff.mpr ?_
    exact toBool_ensures hs ha fun n => allocNumeric_computes _
  | bitNot =>
    refine Ensures.bind_iff.mpr ?_
    exact word_ensures hs ha fun n => allocNumeric_computes _
  | preIncrement | preDecrement | postIncrement | postDecrement => cases hop
  | _ => exact fail_iff.mpr ⟨rfl, nofun, nofun⟩

theorem binary_computes (hop : op.computes = true) (ha : h.Live a) (hb : h.Live b) :
    Ensures (binary op a b) h (Computed h) (Refused h) := by
  cases op with
  | add => exact add_computes hs ha hb
  | sub | mul | div | mod | power => exact arithmetic_computes hs ha hb
  | logicAnd | logicOr | logicXor => exact logic_computes hs ha hb
  | bitAnd | bitOr | bitXor => exact bitwise_computes hs ha hb
  | equal | notEqual =>
    refine Ensures.bind_iff.mpr ?_
    exact equals_ensures hs ha hb fun n => allocNumeric_computes _
  | less | greater | lessEqual | greaterEqual => exact compare_computes hs ha hb
  | assign | comma | access => cases hop
  | _ => exact fail_iff.mpr ⟨rfl, nofun, nofun⟩

end

section

variable (hs : h.Sound []) (hc : h.Closed K)

include hs hc

-- A number in place of a number or a null.
theorem step_ensures {Q : Float → Heap → Prop} (ha : h.Live a) (hsafe : Safe K h a)
    (hq : ∀ n h' v, h.var? a = some v → v.leftValue = true → Written K h a h' → Q n h') :
    Ensures (step symbol delta a) h Q (Refused h) := by
  obtain ⟨t, w, hst⟩ := hs.stands ha
  obtain ⟨v, hv⟩ := ha
  refine step_checked hst hv fun n hl => ?_
  exact (setScalar_ensures hs hc hsafe hst (by simp [Payload.varType]) (by simp)).mono
    (fun _ h' hw => hq n h' v hv hl hw) fun _ _ he => he

theorem assign_ensures (ha : h.Live a) (hb : h.Live b) (hsafe : Safe K h a)
    (hsafe' : Safe K h b) : Ensures (assign a b) h (Gives K h) (Refused h) := by
  obtain ⟨t, w, hst⟩ := hs.stands ha
  obtain ⟨t', w', hst'⟩ := hs.stands hb
  obtain ⟨v, hv⟩ := ha
  refine assign_checked hst hv fun hl => ?_
  exact (moveOrCopy_ensures hs hc hsafe hsafe' hst hst'
    (hst.left_of_left hs.rules (by simp) hv hl)).mono (fun _ h' hw => .of_written hw hsafe hv hl)
      fun _ _ he => he

theorem stepBefore_ensures (ha : h.Live a) (hsafe : Safe K h a) :
    Ensures (stepBefore symbol delta a) h (Gives K h) (Refused h) := by
  rw [stepBefore, Ensures.bind_iff]
  exact step_ensures hs hc ha hsafe fun _ h' v hv hl hw => .of_written hw hsafe hv hl

theorem stepAfter_ensures (ha : h.Live a) (hsafe : Safe K h a) :
    Ensures (stepAfter symbol delta a) h (Gives K h) (Refused h) := by
  rw [stepAfter, Ensures.bind_iff]
  refine step_ensures hs hc ha hsafe fun n h' v hv hl hw => ?_
  have hc' := hc.keeps hs hw.step.sound hw.step.keeps
  refine (allocNumeric_computes n).mono ?_ fun _ _ he => he
  intro y h'' hcomp
  obtain ⟨hstep, hheld, hsafe'⟩ := Gives.of_computed hcomp hw.step.sound hc'
  exact ⟨(hw.step.trans hstep).mono fun _ => Or.rec False.elim fun he => he, hheld, hsafe'⟩

theorem access_ensures (ha : h.Live a) (hb : h.Live b) (hsafe : Safe K h a) :
    Ensures (access a b) h (Gives K h) (Refused h) := by
  obtain ⟨t, w, hst⟩ := hs.stands ha
  refine access_checked hs hst hb fun i hno => ?_
  have hkt := hst.not_mem_of_payload hc hsafe hno
  refine (item_ensures hs hc hst hkt).mono ?_ fun _ _ he => he
  rintro c h' ⟨h₁, hr, hkc, -, ⟨rfl, u, hu, hl⟩ | ⟨hstep, hheld, -⟩⟩
  · exact ⟨hr.step.mono fun _ => False.elim, ⟨u, hu, .inr hl⟩, fun hk => absurd hk hkc⟩
  · exact ⟨(hr.step.trans hstep).mono fun _ => Or.rec False.elim fun he => he, hheld,
      fun hk => absurd hk hkc⟩

theorem unary_ensures (ha : h.Live a) (hsafe : Safe K h a) :
    Ensures (unary op a) h (Gives K h) (Refused h) := by
  by_cases hop : op.computes = true
  · exact (unary_computes hs hop ha).mono (fun _ _ hcomp => .of_computed hcomp hs hc) fun _ _ he => he
  · cases op with
    | preIncrement | preDecrement => exact stepBefore_ensures hs hc ha hsafe
    | postIncrement | postDecrement => exact stepAfter_ensures hs hc ha hsafe
    | assign | comma | access => exact fail_iff.mpr ⟨rfl, nofun, nofun⟩
    | _ => exact absurd rfl hop

theorem binary_ensures (ha : h.Live a) (hb' : h.Live b) (hb : op = .comma → h.Held b)
    (hsafe : Safe K h a) (hsafe' : Safe K h b) :
    Ensures (binary op a b) h (Gives K h) (Refused h) := by
  by_cases hop : op.computes = true
  · exact (binary_computes hs hop ha hb').mono (fun _ _ hcomp => .of_computed hcomp hs hc)
      fun _ _ he => he
  · cases op with
    | assign => exact assign_ensures hs hc ha hb' hsafe hsafe'
    | comma => exact ⟨.refl hs, hb rfl, hsafe'⟩
    | access => exact access_ensures hs hc ha hb' hsafe
    | preIncrement | preDecrement | postIncrement | postDecrement =>
      exact fail_iff.mpr ⟨rfl, nofun, nofun⟩
    | _ => exact absurd rfl hop

end

-- The first operand is looked at first, except behind a comma.
theorem binary_stale (ha : ¬h.Live a) (harity : op.arity? = some 2) (hop : op ≠ .comma) :
    Ensures (binary op a b) h (fun _ _ => False)
      (fun e h' => e = .of (.staleVariable a) ∧ h' = h) := by
  -- Every operator begins with a reading of the first operand.
  have hread {β : Type} {f : Heap → Except Failure β} {g : β → HeapM VarId}
      (hf : f h = .error (.of (.staleVariable a))) :
      Ensures (read f >>= g) h (fun _ _ => False)
        (fun e h' => e = .of (.staleVariable a) ∧ h' = h) :=
    Ensures.bind_iff.mpr ((read_error hf).mpr ⟨rfl, rfl⟩)
  cases op with
  | comma => exact absurd rfl hop
  | add | sub | mul | div | mod | power | less | greater | lessEqual | greaterEqual =>
    exact hread (by simp [payload_stale ha, bind, Except.bind])
  | logicAnd | logicOr | logicXor => exact hread (toBool_stale ha)
  | bitAnd | bitOr | bitXor => exact hread (by simp [numeric_stale ha, bind, Except.bind])
  | equal | notEqual => exact hread (by simp [equals, toValue_stale ha, bind, Except.bind])
  | assign => exact hread (by simp [isLeftValue, lookup_stale ha, bind, Except.bind])
  | access => exact hread (by simp [Heap.varType, payload_stale ha, bind, Except.bind])
  | _ => cases harity

-- Nothing has happened where a reading fails.
private theorem read_refused {β : Type} {f : Heap → Except Failure β} {g : β → HeapM α}
    (hf : ∀ x, f h ≠ .ok x) : Ensures (read f >>= g) h (fun _ _ => False) (fun _ h' => h' = h) := by
  rcases hx : f h with e | x
  · exact Ensures.bind_iff.mpr ((read_error hx).mpr rfl)
  · exact absurd hx (hf x)

-- So is a single operand,
theorem unary_stale (ha : ¬h.Live a) :
    Ensures (unary op a) h (fun _ _ => False) (fun _ h' => h' = h) := by
  cases op with
  | positive | negative | factorial =>
    exact read_refused (by simp [payload_stale ha, bind, Except.bind])
  | logicNot => exact read_refused (by simp [toBool_stale ha])
  | bitNot => exact read_refused (by simp [numeric_stale ha, bind, Except.bind])
  | preIncrement | preDecrement =>
    refine Ensures.bind_iff.mpr ((Ensures.mono ?_ (fun _ _ => False.elim) fun _ _ he => he))
    exact read_refused (by simp [isLeftValue, lookup_stale ha, bind, Except.bind])
  | postIncrement | postDecrement =>
    refine Ensures.bind_iff.mpr ((Ensures.mono ?_ (fun _ _ => False.elim) fun _ _ he => he))
    exact read_refused (by simp [isLeftValue, lookup_stale ha, bind, Except.bind])
  | _ => exact fail_iff.mpr rfl

-- and nothing happens before the second operand has been looked at.
theorem binary_stale_second (hb : ¬h.Live b) (hop : op ≠ .comma) :
    Ensures (binary op a b) h (fun _ _ => False) (fun _ h' => h' = h) := by
  have hfirst {β : Type} {f : Heap → Except Failure β} {g : β → HeapM VarId}
      (hg : ∀ x, Ensures (g x) h (fun _ _ => False) (fun _ h' => h' = h)) :
      Ensures (read f >>= g) h (fun _ _ => False) (fun _ h' => h' = h) := by
    refine Ensures.bind_iff.mpr ?_
    rcases hf : f h with e | x
    · exact (read_error hf).mpr rfl
    · exact (read_ok hf).mpr (hg x)
  cases op with
  | comma => exact absurd rfl hop
  | add =>
    refine read_refused fun x => ?_
    rcases h.payload a <;> simp [payload_stale hb, bind, Except.bind]
  | sub | mul | div | mod | power | less | greater | lessEqual | greaterEqual =>
    exact hfirst fun _ => read_refused (by simp [payload_stale hb, bind, Except.bind])
  | logicAnd | logicOr | logicXor =>
    exact hfirst fun _ => read_refused (by simp [toBool_stale hb])
  | bitAnd | bitOr | bitXor =>
    exact hfirst fun _ => read_refused (by simp [numeric_stale hb, bind, Except.bind])
  | equal | notEqual =>
    refine read_refused fun x => ?_
    rcases hx : h.toValue a with _ | _ <;> simp [equals, hx, toValue_stale hb, bind, Except.bind]
  | assign =>
    refine hfirst fun left => ?_
    cases left
    · exact Ensures.bind_iff.mpr (fail_iff.mpr rfl)
    refine hfirst fun isProtected => ?_
    cases isProtected
    · refine Ensures.bind_iff.mpr ?_
      exact read_refused (by simp [resolve_stale hb])
    · exact Ensures.bind_iff.mpr (fail_iff.mpr rfl)
  | access =>
    refine hfirst fun found => ?_
    simp only
    split
    · exact Ensures.bind_iff.mpr (fail_iff.mpr rfl)
    · exact read_refused (by simp [numeric_stale hb, bind, Except.bind])
  | _ => exact fail_iff.mpr rfl

-- Operands as an expression leaves them: the last one has just been evaluated,
-- an earlier one may have gone since.
structure Ready (K : VarId → Prop) (h : Heap) (operands : List VarId) : Prop where
  safe : ∀ x ∈ operands, Safe K h x
  last : ∀ x ∈ operands.getLast?, h.Held x

-- How an operator may fail: for a reason of its own, over the number of its
-- operands, or over an operand that has gone.
inductive Blame (op : Operator) (h : Heap) (operands : List VarId) : Cause → Prop
  | ordinary {c : Cause} : c.Ordinary → Blame op h operands c
  | count {wanted : Nat} : op.arity? = some wanted → wanted ≠ operands.length →
      Blame op h operands (.operandCount op wanted operands.length)
  | stale {a b : VarId} : op ≠ .comma → operands = [a, b] → ¬h.Live a →
      Blame op h operands (.staleVariable a)

theorem calculate_ensures {operands : List VarId} (hs : h.Sound []) (hc : h.Closed K)
    (hready : Ready K h operands) :
    Ensures (calculate op operands) h (Gives K h)
      (fun e h' => h' = h ∧ Blame op h operands e.cause) := by
  have hordinary : ∀ e h', Refused h e h' → h' = h ∧ Blame op h operands e.cause :=
    fun _ _ he => ⟨he.1, .ordinary he.2⟩
  unfold calculate
  split
  · exact fail_iff.mpr ⟨rfl, .ordinary ⟨nofun, nofun⟩⟩
  rename_i wanted harity
  split
  · rename_i a
    have ha := hready.last a rfl
    exact (unary_ensures hs hc ha.live (hready.safe a (by simp))).mono (fun _ _ hg => hg) hordinary
  · rename_i a b
    have hb := hready.last b rfl
    by_cases ha : h.Live a
    · exact (binary_ensures hs hc ha hb.live (fun _ => hb) (hready.safe a (by simp))
        (hready.safe b (by simp))).mono (fun _ _ hg => hg) hordinary
    · by_cases hop : op = .comma
      · subst hop
        exact ⟨.refl hs, hb, hready.safe b (by simp)⟩
      · refine (binary_stale ha harity hop).mono (fun _ _ => False.elim) ?_
        rintro e h' ⟨rfl, rfl⟩
        exact ⟨rfl, .stale hop rfl ha⟩
  · rename_i hnot₁ hnot₂
    refine fail_iff.mpr ⟨rfl, .count harity fun hlen => ?_⟩
    subst hlen
    rcases operands with _ | ⟨a, _ | ⟨b, _ | ⟨c, rest⟩⟩⟩
    · cases op <;> cases harity
    · exact hnot₁ a rfl rfl
    · exact hnot₂ a b rfl rfl
    · cases op <;> simp [Operator.arity?] at harity

-- Whatever has become of the operands, what is to be left alone is.
theorem calculate_step {operands : List VarId} (hs : h.Sound []) (hc : h.Closed K)
    (hsafe : ∀ x ∈ operands, Safe K h x) :
    Ensures (calculate op operands) h
      (fun x h' => Step K (· = x) [] h h' ∧ Safe K h' x) (fun _ h' => h' = h) := by
  unfold calculate
  split
  · exact fail_iff.mpr rfl
  rename_i wanted harity
  split
  · rename_i a
    by_cases ha : h.Live a
    · exact (unary_ensures hs hc ha (hsafe a (by simp))).mono (fun _ _ hg => ⟨hg.step, hg.safe⟩)
        fun _ _ he => he.1
    · exact (unary_stale ha).mono (fun _ _ => False.elim) fun _ _ he => he
  · rename_i a b
    by_cases hop : op = .comma
    · subst hop
      exact ⟨.refl hs, hsafe b (by simp)⟩
    by_cases ha : h.Live a
    · by_cases hb : h.Live b
      · exact (binary_ensures hs hc ha hb (fun h => absurd h hop) (hsafe a (by simp))
          (hsafe b (by simp))).mono (fun _ _ hg => ⟨hg.step, hg.safe⟩) fun _ _ he => he.1
      · exact (binary_stale_second hb hop).mono (fun _ _ => False.elim) fun _ _ he => he
    · exact (binary_stale ha harity hop).mono (fun _ _ => False.elim) fun _ _ he => he.2
  · exact fail_iff.mpr rfl

end Operation

end FinLang

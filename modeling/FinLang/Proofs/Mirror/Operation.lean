import FinLang.Proofs.Mirror.Write
import FinLang.Proofs.Operation

namespace FinLang

namespace Heap

variable {α β γ δ : Type} {ρ : Renaming} {h h' : Heap} {x y : VarId}

theorem elementCount_alike (p : Payload) : Alike id (elementCount p) (elementCount (p.rename ρ)) := by
  cases p with
  | array items => simp [elementCount, Payload.rename, Alike]
  | _ => first | rfl | exact ⟨rfl, rfl⟩

theorem appendItems_rename (extra : Array VarId) (p : Payload) :
    appendItems (extra.map ρ.handle) (p.rename ρ) = (appendItems extra p).rename ρ := by
  cases p <;> simp [appendItems, Payload.rename]

private theorem found_follows (i : Nat) :
    Parallel ρ ρ.handle
      (do
        match (← read (·.lookup x)).payload.elements[i]? with
        | some element => return element
        | none => fail .arrayVanished)
      (do
        match (← read (·.lookup (ρ x))).payload.elements[i]? with
        | some element => return element
        | none => fail .arrayVanished) := by
  refine .bind (read_follows fun hm => hm.lookup) fun w => ?_
  rw [Variable.payload_rename, Payload.elements_rename, Array.getElem?_map]
  cases w.payload.elements[i]? with
  | none => exact fail_follows rfl
  | some c => exact .pure rfl

theorem element_follows (i : Nat) : Parallel ρ ρ.handle (element x i) (element (ρ x) i) := by
  refine .bind (read_follows fun hm => hm.resolve) fun t => .bind (read_follows fun hm => hm.lookup) fun v =>
    .bind (read_follows fun _ => elementCount_alike v.payload) fun count => ?_
  refine .ite .rfl (fun _ => .ite .rfl (fun _ => fail_bind_follows rfl) fun _ => ?_) fun _ =>
    found_follows i
  have hgrow := growth_tracks (ρ := ρ) t v.leftValue (i + 1 - count) #[]
  rw [Array.map_empty] at hgrow
  refine .bind (lift_follows hgrow) fun extra => .bind (update_follows fun w => ?_) fun _ => found_follows i
  simp [Variable.rename, appendItems_rename]

-- Where the flags of what is moved can be set, the budgets do not matter.
theorem pushElement_agrees (hm : Mirrors ρ h h') (hx : Succeeds (pushElement x y) h)
    (hy : Succeeds (pushElement (ρ x) (ρ y)) h') :
    Agrees ρ id (pushElement x y) (pushElement (ρ x) (ρ y)) h h' := by
  unfold pushElement Succeeds at *
  rw [Ensures.bind_iff] at hx hy
  refine Agree.bind ((read_follows (fun hm => hm.resolve) h h' hm).given hx hy) ?_
  rintro t _ h h' ⟨⟨rfl, hm⟩, hx, hy⟩
  rw [Ensures.bind_iff] at hx hy
  refine Agree.bind ((read_follows (fun hm => hm.writable) h h' hm).given hx hy) ?_
  rintro ⟨r, v⟩ _ h h' ⟨⟨rfl, hm⟩, hx, hy⟩
  dsimp only at hx hy ⊢
  rw [Variable.payload_rename, Payload.varType_rename, Variable.leftValue_rename] at hy ⊢
  have hpush : Ensures (do
        update r fun v => { v with payload := appendItems #[y] v.payload }
        setOwner y (.array t)
        setLeftValue y v.leftValue) h (fun _ _ => True) (fun _ _ => False) →
      Ensures (do
        update (ρ r) fun v => { v with payload := appendItems #[ρ y] v.payload }
        setOwner (ρ y) (.array (ρ t))
        setLeftValue (ρ y) v.leftValue) h' (fun _ _ => True) (fun _ _ => False) →
      Agrees ρ id (do
        update r fun v => { v with payload := appendItems #[y] v.payload }
        setOwner y (.array t)
        setLeftValue y v.leftValue)
      (do
        update (ρ r) fun v => { v with payload := appendItems #[ρ y] v.payload }
        setOwner (ρ y) (.array (ρ t))
        setLeftValue (ρ y) v.leftValue) h h' := by
    intro hx hy
    have hupdate : Parallel ρ id
        (update r fun v => { v with payload := appendItems #[y] v.payload })
        (update (ρ r) fun v => { v with payload := appendItems #[ρ y] v.payload }) :=
      update_follows fun w => by simp [Variable.rename, ← appendItems_rename]
    rw [Ensures.bind_iff] at hx hy
    refine Agree.bind ((hupdate h h' hm).given hx hy) ?_
    rintro _ _ h h' ⟨⟨-, hm⟩, hx, hy⟩
    rw [Ensures.bind_iff] at hx hy
    refine Agree.bind ((setOwner_follows (.array t) h h' hm).given hx hy) ?_
    rintro _ _ h h' ⟨⟨-, hm⟩, hx, hy⟩
    exact setLeftValue_agrees hm hx hy
  cases htag : v.payload.varType with
  | null | array =>
    rw [htag] at hx hy
    exact hpush hx hy
  | _ =>
    rw [htag] at hx
    exact hx.elim

theorem detachElement_agrees {i : Nat} (hm : Mirrors ρ h h') (hx : Succeeds (detachElement x i) h)
    (hy : Succeeds (detachElement (ρ x) i) h') :
    Agrees ρ ρ.handle (detachElement x i) (detachElement (ρ x) i) h h' := by
  unfold detachElement Succeeds at *
  rw [Ensures.bind_iff] at hx hy
  refine Agree.bind ((read_follows (fun hm => hm.resolve) h h' hm).given hx hy) ?_
  rintro t _ h h' ⟨⟨rfl, hm⟩, hx, hy⟩
  rw [Ensures.bind_iff] at hx hy
  refine Agree.bind ((read_follows (fun hm => hm.lookup) h h' hm).given hx hy) ?_
  rintro v _ h h' ⟨⟨rfl, hm⟩, hx, hy⟩
  rw [Variable.payload_rename, Payload.elements_rename, Array.getElem?_map] at hy ⊢
  cases hget : v.payload.elements[i]? with
  | none =>
    rw [hget] at hx
    exact hx.elim
  | some c =>
    rw [hget] at hx hy
    simp only [Option.map_some] at hx hy ⊢
    rw [Ensures.bind_iff] at hx hy
    refine Agree.bind ((lift_follows (insert_tracks (.make .null (.array t) false)) h h' hm).given
      hx hy) ?_
    rintro d _ h h' ⟨⟨rfl, hm⟩, hx, hy⟩
    have hupdate : Parallel ρ id
        (update t fun v => { v with payload := v.payload.mapElements (·.setIfInBounds i d) })
        (update (ρ t) fun v =>
          { v with payload := v.payload.mapElements (·.setIfInBounds i (ρ d)) }) :=
      update_follows fun w => by
        cases hw : w.payload <;> simp [Variable.rename, Payload.rename, Payload.mapElements, hw]
    rw [Ensures.bind_iff] at hx hy
    refine Agree.bind ((hupdate h h' hm).given hx hy) ?_
    rintro _ _ h h' ⟨⟨-, hm⟩, hx, hy⟩
    rw [Ensures.bind_iff] at hx hy
    refine Agree.bind ((setOwner_follows .detached h h' hm).given hx hy) ?_
    rintro _ _ h h' ⟨⟨-, hm⟩, hx, hy⟩
    rw [Ensures.bind_iff] at hx hy
    refine Agree.bind (setLeftValue_agrees hm (.of_ensures hx) (.of_ensures hy)) ?_
    rintro _ _ h h' ⟨-, hm⟩
    exact ⟨rfl, hm⟩

section Copy

theorem clear_follows : Parallel ρ (fun p => (ρ p.1, p.2)) (clear x) (clear (ρ x)) := by
  refine .bind (read_follows fun hm => hm.writable) fun p => .bind (setPayload_follows .null) fun _ => ?_
  rw [Variable.payload_rename, Payload.elements_rename]
  exact .bind (.forM_array (fun _ => free_follows) _) fun _ => .pure rfl

theorem writeValue_follows (v : Value) : Parallel ρ id (writeValue x v) (writeValue (ρ x) v) :=
  .bind clear_follows fun p => .bind (lift_follows (buildPayload_tracks p.2 v p.1)) fun _ =>
    setPayload_follows _

theorem checkTypes_alike (hm : Mirrors ρ h h') :
    Alike id (checkTypes x y h) (checkTypes (ρ x) (ρ y) h') :=
  hm.varType.bind fun _ => hm.varType.bind fun _ => .ite .rfl ⟨rfl, rfl⟩ rfl

theorem copy_agrees (hs : h.Sound []) (hs' : h'.Sound []) (hm : Mirrors ρ h h') :
    Agrees ρ id (copy x y) (copy (ρ x) (ρ y)) h h' := by
  refine read_agree hm hm.resolve fun t _ _ => read_agree hm hm.resolve fun s _ _ => ?_
  refine .ite ρ.handle_inj (fun _ => ⟨rfl, hm⟩) fun _ => ?_
  refine read_agree hm (checkTypes_alike hm) fun _ _ _ => ?_
  refine read_agree hm (hm.toValue hs hs') fun v _ _ => ?_
  exact writeValue_follows v h h' hm

theorem duplicate_agrees (hs : h.Sound []) (hs' : h'.Sound []) (hm : Mirrors ρ h h') :
    Agrees ρ ρ.handle (duplicate x) (duplicate (ρ x)) h h' := by
  refine read_agree hm (hm.toValue hs hs') fun v _ _ => ?_
  exact lift_follows (allocValue_tracks v) h h' hm

theorem setNumeric_follows (n : Float) : Parallel ρ id (setNumeric x n) (setNumeric (ρ x) n) := by
  refine .bind (read_follows fun hm => hm.writable) fun p => ?_
  exact .ite (by simp) (fun _ => fail_bind_follows rfl) fun _ => setPayload_follows (.numeric n)

theorem Mirrors.stands {t : VarId} {w : Variable} (hm : Mirrors ρ h h') (hst : h.Stands x t w) :
    h'.Stands (ρ x) (ρ t) (w.rename ρ) where
  resolve := by
    have hsame := hm.resolve (x := x)
    rw [hst.resolve] at hsame
    rcases hr : h'.resolve (ρ x) with e | t' <;> rw [hr] at hsame
    · exact hsame.elim
    · exact congrArg _ hsame
  var := hm.some hst.var
  no_link u hu := by
    have hno := hst.no_link
    rw [Variable.payload_rename] at hu
    cases hp : w.payload with
    | link t => exact hno t hp
    | _ => simp [hp, Payload.rename] at hu
  self_or_link := by
    rcases hst.self_or_link with rfl | ⟨v, hv, hl⟩
    · exact .inl rfl
    · exact .inr ⟨v.rename ρ, hm.some hv, by simp [hl, Payload.rename]⟩

-- The elements of one array become those of another one.
theorem handOver_agrees {t g : VarId} {flag : Bool} (hm : Mirrors ρ h h')
    (hx : Succeeds (do
      let items := (← read (·.lookup g)).payload.elements
      setPayload g (.array #[])
      items.forM fun child => do
        setOwner child (.array t)
        setLeftValue child flag
      setPayload t (.array items)) h)
    (hy : Succeeds (do
      let items := (← read (·.lookup (ρ g))).payload.elements
      setPayload (ρ g) (.array #[])
      items.forM fun child => do
        setOwner child (.array (ρ t))
        setLeftValue child flag
      setPayload (ρ t) (.array items)) h') :
    Agrees ρ id
      (do
        let items := (← read (·.lookup g)).payload.elements
        setPayload g (.array #[])
        items.forM fun child => do
          setOwner child (.array t)
          setLeftValue child flag
        setPayload t (.array items))
      (do
        let items := (← read (·.lookup (ρ g))).payload.elements
        setPayload (ρ g) (.array #[])
        items.forM fun child => do
          setOwner child (.array (ρ t))
          setLeftValue child flag
        setPayload (ρ t) (.array items)) h h' := by
  unfold Succeeds at hx hy
  rw [Ensures.bind_iff] at hx hy
  refine Agree.bind ((read_follows (fun hm => hm.lookup) h h' hm).given hx hy) ?_
  rintro v _ h h' ⟨⟨rfl, hm⟩, hx, hy⟩
  rw [Variable.payload_rename, Payload.elements_rename] at hy ⊢
  dsimp only at hx hy ⊢
  rw [Ensures.bind_iff] at hx hy
  have hempty := setPayload_follows (ρ := ρ) (x := g) (.array #[])
  rw [show (Payload.array #[]).rename ρ = .array #[] by simp [Payload.rename]] at hempty
  refine Agree.bind ((hempty h h' hm).given hx hy) ?_
  rintro _ _ h h' ⟨⟨-, hm⟩, hx, hy⟩
  rw [Ensures.bind_iff] at hx hy
  refine Agree.bind (forM_agrees hm (fun hm hx hy => ?_) (.of_ensures hx) (.of_ensures hy)) ?_
  · unfold Succeeds at hx hy
    rw [Ensures.bind_iff] at hx hy
    refine Agree.bind ((setOwner_follows (.array t) _ _ hm).given hx hy) ?_
    rintro _ _ h h' ⟨⟨-, hm⟩, hx, hy⟩
    exact setLeftValue_agrees hm hx hy
  · rintro _ _ h h' ⟨-, hm⟩
    exact setPayload_follows (.array v.payload.elements) h h' hm

theorem moveOrCopy_agrees {v : Variable} (hs : h.Sound []) (hs' : h'.Sound []) (hm : Mirrors ρ h h')
    (hv : h.var? x = some v) (hleft : v.leftValue = true) :
    Agrees ρ id (moveOrCopy x y) (moveOrCopy (ρ x) (ρ y)) h h' := by
  have hcopy := copy_agrees (x := x) (y := y) hs hs' hm
  obtain ⟨t, w, hst⟩ := hs.stands ⟨v, hv⟩
  have hwl := hst.left_of_left hs.rules (by simp) hv hleft
  refine read_agree hm hm.resolve fun g hg _ => read_agree hm hm.lookup fun u hu hu' => ?_
  have hst' := hs.stands_of_resolve hg (lookup_eq_ok_iff.mp hu)
  have hspare : isSpare (u.rename ρ) = isSpare u := by simp [isSpare]
  refine .ite (by rw [hspare]) (fun _ => hcopy) fun hsp => ?_
  obtain ⟨hgf, items, hitems⟩ := eq_array_of_isSpare (u := u) (by simpa using hsp)
  refine read_agree hm hm.resolve fun t' ht' _ => ?_
  obtain rfl : t = t' := Except.ok.inj (hst.resolve.symm.trans ht')
  refine .ite ρ.handle_inj (fun _ => hcopy) fun hne => ?_
  refine read_agree hm (checkTypes_alike hm) fun _ _ _ => ?_
  refine Agree.bind ((clear_follows h h' hm).given (clear_ensures hs hst)
    (clear_ensures hs' (hm.stands hst))) ?_
  rintro _ _ k k' ⟨⟨rfl, hk⟩, ⟨-, rfl, hcl⟩, -, -, hcl'⟩
  refine handOver_agrees hk ?_ ?_
  · exact .of_ensures (hcl.move hs closed_nothing hst hst' hwl hgf hitems hne id id)
  · exact .of_ensures (hcl'.move hs' closed_nothing (hm.stands hst) (hm.stands hst') hwl hgf
      (by rw [Variable.payload_rename, hitems]; rfl) (mt ρ.handle_inj.mp hne) id id)

end Copy

end Heap

namespace Operation

open Heap

variable {ρ : Renaming} {h h' : Heap} {a b : VarId} {op : Operator}

theorem numericOperand_alike {symbol : String} (p : Payload) :
    Alike id (numericOperand symbol p) (numericOperand symbol (p.rename ρ)) := by
  cases p <;> first | rfl | exact ⟨rfl, rfl⟩

theorem sum_alike (p q : Payload) :
    Alike (Payload.rename ρ) (sum p q) (sum (p.rename ρ) (q.rename ρ)) := by
  cases p <;> cases q <;> first | rfl | exact ⟨rfl, rfl⟩

theorem counter_alike {symbol : String} (p : Payload) :
    Alike id (counter symbol p) (counter symbol (p.rename ρ)) := by
  cases p <;> first | rfl | exact ⟨rfl, rfl⟩

theorem number_follows : Parallel ρ id (number op a) (number op (ρ a)) :=
  read_follows fun hm => hm.payload.bind fun p => numericOperand_alike p

theorem word_follows : Parallel ρ id (word a) (word (ρ a)) :=
  read_follows fun hm => hm.numeric.bind fun _ => .refl _

theorem allocNumeric_follows (x : Float) :
    Parallel ρ ρ.handle (liftM (allocNumeric x)) (liftM (allocNumeric x)) :=
  lift_follows (alloc_tracks (.numeric x))

theorem add_follows : Parallel ρ ρ.handle (add a b) (add (ρ a) (ρ b)) :=
  .bind (read_follows fun hm => hm.payload.bind fun p => hm.payload.bind fun q => sum_alike p q) fun p =>
    lift_follows (alloc_tracks p)

theorem assign_agrees (hs : h.Sound []) (hs' : h'.Sound []) (hm : Mirrors ρ h h') :
    Agrees ρ ρ.handle (assign a b) (assign (ρ a) (ρ b)) h h' := by
  refine read_agree hm hm.isLeftValue fun left hleft _ => ?_
  refine .ite .rfl (fun _ => ⟨⟨rfl, rfl⟩, hm⟩) fun hl => ?_
  refine read_agree hm hm.isWriteProtected fun _ _ _ => ?_
  refine .ite .rfl (fun _ => ⟨⟨rfl, rfl⟩, hm⟩) fun _ => ?_
  obtain ⟨v, hv, hvl⟩ : ∃ v, h.var? a = some v ∧ v.leftValue = true := by
    rcases hv : h.lookup a with e | v
    · simp [isLeftValue, hv, bind, Except.bind] at hleft
    · refine ⟨v, lookup_eq_ok_iff.mp hv, ?_⟩
      simp [isLeftValue, hv, bind, Except.bind, pure, Except.pure] at hleft
      simpa [hleft] using hl
  exact (moveOrCopy_agrees hs hs' hm hv hvl).next fun _ => .pure rfl

theorem step_follows {symbol : String} {delta : Float} :
    Parallel ρ id (step symbol delta a) (step symbol delta (ρ a)) := by
  refine .bind (read_follows fun hm => hm.isLeftValue) fun _ => ?_
  refine .ite .rfl (fun _ => fail_bind_follows rfl) fun _ => ?_
  refine .bind (read_follows fun hm => hm.isWriteProtected) fun _ => ?_
  refine .ite .rfl (fun _ => fail_bind_follows rfl) fun _ => ?_
  refine .bind (read_follows fun hm => hm.payload.bind fun p => counter_alike p) fun n => ?_
  exact .bind (setNumeric_follows _) fun _ => .pure rfl

-- An element of a temporary can be taken out.
theorem element_ready (hs : h.Sound []) (ha : h.Live a) (i : Nat) :
    Ensures (element a i) h
      (fun c k => k.isLeftValue c = .ok false → Succeeds (detachElement a i) k) (Refused h) := by
  obtain ⟨t, w, hst⟩ := hs.stands ha
  refine (element_ensures hs closed_nothing hst id).mono ?_ fun _ _ he => he
  intro c k hr hleft
  obtain ⟨p, hst₁, hget⟩ := hr.stands hst
  obtain ⟨u, hu, -⟩ := hr.step.sound.forest.element ⟨_, hst₁.var, Array.mem_of_getElem? hget⟩
  have hflag := hr.step.sound.flagged.left hst₁.var hu (Array.mem_of_getElem? hget)
  have hl : w.leftValue = false := by
    simpa [isLeftValue, lookup_eq hu, bind, Except.bind, pure, Except.pure, hflag] using hleft
  exact .of_ensures (detachElement_ensures hr.step.sound closed_nothing hst₁ id hl hget)

theorem access_agrees (hs : h.Sound []) (hs' : h'.Sound []) (hm : Mirrors ρ h h') :
    Agrees ρ ρ.handle (access a b) (access (ρ a) (ρ b)) h h' := by
  refine read_agree hm hm.varType fun found hfound _ => ?_
  have ha : h.Live a := by
    by_contra hl
    simp [Heap.varType, payload_stale hl, bind, Except.bind] at hfound
  refine .ite .rfl (fun _ => ⟨⟨rfl, rfl⟩, hm⟩) fun _ => ?_
  refine read_agree hm (hm.numeric.bind fun x => .refl (arrayIndex x)) fun i _ _ => ?_
  refine Agree.bind ((element_follows i h h' hm).given (element_ready hs ha i)
    (element_ready hs' (hm.live_iff.mpr ha) i)) ?_
  rintro c _ k k' ⟨⟨rfl, hk⟩, hready, hready'⟩
  refine read_agree hk hk.isLeftValue fun left hleft hleft' => ?_
  cases left with
  | true => exact ⟨rfl, hk⟩
  | false => exact detachElement_agrees hk (hready hleft) (hready' hleft')

theorem unary_follows : Parallel ρ ρ.handle (unary op a) (unary op (ρ a)) := by
  have hbefore {symbol : String} {delta : Float} :
      Parallel ρ ρ.handle (stepBefore symbol delta a) (stepBefore symbol delta (ρ a)) :=
    .bind step_follows fun _ => .pure rfl
  have hafter {symbol : String} {delta : Float} :
      Parallel ρ ρ.handle (stepAfter symbol delta a) (stepAfter symbol delta (ρ a)) :=
    .bind step_follows fun _ => allocNumeric_follows _
  cases op with
  | positive | negative => exact .bind number_follows fun _ => allocNumeric_follows _
  | factorial =>
    exact .bind number_follows fun n => .bind (read_follows fun _ => .refl (Number.factorial n)) fun _ =>
      allocNumeric_follows _
  | logicNot => exact .bind (read_follows fun hm => hm.toBool) fun _ => allocNumeric_follows _
  | bitNot => exact .bind word_follows fun _ => allocNumeric_follows _
  | preIncrement | preDecrement => exact hbefore
  | postIncrement | postDecrement => exact hafter
  | _ => exact fail_follows rfl

theorem binary_agrees (hs : h.Sound []) (hs' : h'.Sound []) (hm : Mirrors ρ h h') :
    Agrees ρ ρ.handle (binary op a b) (binary op (ρ a) (ρ b)) h h' := by
  cases op with
  | add => exact add_follows h h' hm
  | sub | mul | div | mod | power =>
    exact number_follows.bind (fun l => number_follows.bind fun r =>
      .bind (read_follows fun _ => .refl (arithmetic _ l r)) fun _ => allocNumeric_follows _) h h' hm
  | logicAnd | logicOr | logicXor =>
    exact Follows.bind (read_follows fun hm => hm.toBool) (fun _ => .bind (read_follows fun hm => hm.toBool)
      fun _ => allocNumeric_follows _) h h' hm
  | bitAnd | bitOr | bitXor =>
    exact word_follows.bind (fun _ => word_follows.bind fun _ => allocNumeric_follows _) h h' hm
  | equal | notEqual =>
    exact read_agree hm (hm.equals hs hs') fun _ _ _ => allocNumeric_follows _ h h' hm
  | less | greater | lessEqual | greaterEqual =>
    exact number_follows.bind (fun _ => number_follows.bind fun _ => allocNumeric_follows _) h h' hm
  | assign => exact assign_agrees hs hs' hm
  | comma => exact ⟨rfl, hm⟩
  | access => exact access_agrees hs hs' hm
  | _ => exact ⟨⟨rfl, rfl⟩, hm⟩

theorem calculate_agrees (operands : List VarId) (hs : h.Sound []) (hs' : h'.Sound [])
    (hm : Mirrors ρ h h') :
    Agrees ρ ρ.handle (calculate op operands) (calculate op (operands.map ρ.handle)) h h' := by
  unfold calculate
  cases op.arity? with
  | none => exact ⟨⟨rfl, rfl⟩, hm⟩
  | some wanted =>
    rw [List.length_map]
    rcases operands with _ | ⟨a, _ | ⟨b, _ | ⟨c, rest⟩⟩⟩ <;> rcases wanted with _ | _ | _ | wanted
    case cons.nil.succ.zero => exact unary_follows h h' hm
    case cons.cons.nil.succ.succ.zero => exact binary_agrees hs hs' hm
    all_goals exact ⟨⟨rfl, rfl⟩, hm⟩

end Operation

end FinLang

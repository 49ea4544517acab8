import FinLang.Proofs.Machine.Scopes

namespace FinLang

open Heap (Keeps Step Stays)

-- What is asked of a way to handle waiting values: operators fail for admitted
-- reasons only, and whatever is given up is released.
structure Handling.Fit (D : Discipline) (p : Handling) : Prop where
  apply : ∀ {K : VarId → Prop} {op : Operator} {operands : List VarId} {h : Heap}, h.Sound [] →
    h.Closed K → Operation.Ready K h operands →
    Ensures (p.apply op operands) h (Operation.Gives K h)
      (fun e h' => h' = h ∧ (D.admits e.cause ∨ ∃ wanted, op.arity? = some wanted ∧
        wanted ≠ operands.length ∧ e.cause = .operandCount op wanted operands.length))
  giveUp : ∀ {A : ScopeId → Prop} {K : VarId → Prop} {scope : ScopeId} {r : Run} {ids : List VarId},
    State D A K (r.flow.result.toList ++ ids) scope r → Carries D r → r.flow.kind = .exiting →
    Ensures (p.giveUp ids) r
      (fun _ r' => Moved D A K noScope r.flow.result.toList scope r r' ∧ Carries D r')
      (FailPost D A K noScope [] scope r)

variable {α : Type} {D : Discipline} {A : ScopeId → Prop} {K : VarId → Prop}
  {P : ScopeId → Prop} {xs ys : List VarId} {scope : ScopeId} {r r' : Run} {x : VarId}
  {E : Halt → Run → Prop} {self : Interpreter} {p : Handling} {node : Node}

theorem EvalPost.trans {v : Option VarId} {r'' : Run} (hf : Frame K noScope r r')
    (hp : EvalPost D A K scope r' v r'') : EvalPost D A K scope r v r'' := by
  cases v with
  | some x => exact ⟨hf.trans hp.1, hp.2⟩
  | none => exact ⟨hf.trans hp.1, hp.2⟩

theorem EvalPost.of_moved (hm : Moved D A K noScope [x] scope r r') (hx : r'.heap.Held x)
    (hflow : r.flow = .start) : EvalPost D A K scope r (some x) r' :=
  ⟨hm.frame, hm.state, hx, hm.flow.trans hflow⟩

theorem Heap.Detached.held {h : Heap} (hd : h.Detached x) : h.Held x :=
  hd.imp fun _ hv => ⟨hv.1, .inl hv.2⟩

-- Behind an expression that has been evaluated while variables wait, the
-- waiting ones included.
def BesidePost (D : Discipline) (A : ScopeId → Prop) (K : VarId → Prop) (xs : List VarId)
    (scope : ScopeId) (r : Run) : Option VarId → Run → Prop
  | some x, r' => Frame K noScope r r' ∧ State D A K (x :: xs) scope r' ∧ r'.heap.Held x ∧
      r'.flow = .start
  | none, r' => Frame K noScope r r' ∧ State D A K (r'.flow.result.toList ++ xs) scope r' ∧
      Carries D r' ∧ r'.flow.kind = .exiting

theorem FailPost.unprotect {e : Halt} (hst : State D A K xs scope r)
    (he : FailPost D A (r.heap.Temps K) P [] scope r e r') :
    FailPost D A K P xs scope r e r' := by
  cases e with
  | outOfFuel => trivial
  | failure f =>
    obtain ⟨hf, hst', hres, hc⟩ := he
    exact ⟨hf.unprotect, hst.unprotect hst' hf.keeps, hres, hc⟩

-- What waits is left alone.
theorem Interpreter.Sound.eval_beside (hself : self.Sound D) (hn : D.evaluable node)
    (hst : State D A K xs scope r) (hflow : r.flow = .start) :
    Ensures (self.eval node scope) r (BesidePost D A K xs scope r)
      (FailPost D A K noScope xs scope r) := by
  refine (hself.eval hn hst.protect hflow).mono ?_ fun _ _ he => he.unprotect hst
  rintro (_ | x) r' ⟨hf, hst', hrest⟩
  · exact ⟨hf.unprotect, hst.unprotect hst' hf.keeps, hrest⟩
  · exact ⟨hf.unprotect, hst.unprotect hst' hf.keeps, hrest⟩

namespace Exec

-- When a part fails, what waits is released.
theorem onFailure_ensures {part : Exec α} {Q : α → Run → Prop} {cleanup : Exec Unit}
    (hpart : Ensures part r Q (FailPost D A K noScope xs scope r))
    (hclean : ∀ r', State D A K xs scope r' →
      Ensures cleanup r' (fun _ r'' => Moved D A K noScope [] scope r' r'') fun _ _ => False) :
    Ensures (onFailure part cleanup) r Q (FailPost D A K noScope [] scope r) := by
  rw [onFailure_iff]
  refine hpart.mono (fun _ _ hq => hq) ?_
  rintro (f | _) r' he
  · obtain ⟨hf, hst, hres, hc⟩ := he
    refine (hclean r' hst).mono ?_ fun _ _ => False.elim
    rintro _ r'' hm
    exact ⟨hf.trans hm.frame, hm.state, by rw [hm.flow, hres], hc⟩
  · trivial

end Exec

namespace Interpreter

open Exec

theorem alloc_value {p : Payload} (hst : State D A K [] scope r)
    (hp : p.elements = #[]) (hl : ∀ t, p ≠ .link t) :
    Ensures (onHeap (Heap.alloc p)) r
      (fun x r' => Moved D A K noScope [x] scope r r' ∧ r'.heap.Held x) E := by
  refine (alloc_ensures (P := noScope) hst hp hl).mono ?_ fun _ _ he => he
  rintro x r' ⟨hm, hd, -⟩
  exact ⟨hm, hd.held⟩

theorem allocNull_sound (hst : State D A K [] scope r) (hflow : r.flow = .start) :
    Ensures allocNull r (EvalPost D A K scope r) E := by
  rw [allocNull, Ensures.bind_iff]
  refine (alloc_value (p := .null) hst rfl fun _ => nofun).mono ?_ fun _ _ he => he
  rintro x r' ⟨hm, hx⟩
  exact .of_moved hm hx hflow

theorem evalSingle_sound (hkind : node.kind = .single)
    (hn : node.EvalRule D.admits D.evaluable) (hst : State D A K [] scope r)
    (hflow : r.flow = .start) :
    Ensures (evalSingle node scope) r
      (fun x r' => Moved D A K noScope [x] scope r r' ∧ r'.heap.Held x)
      (FailPost D A K noScope [] scope r) := by
  have hres : r.flow.result = none := by rw [hflow]; rfl
  unfold Node.EvalRule at hn
  rw [hkind] at hn
  unfold evalSingle
  rcases htoken : node.token with _ | token
  · rw [htoken] at hn
    exact .refl hst hres hn
  simp only [htoken] at hn ⊢
  cases htk : token.kind with
  | decimal x => exact alloc_value hst rfl fun _ => nofun
  | string s => exact alloc_value hst rfl fun _ => nofun
  | dummy => exact alloc_value hst rfl fun _ => nofun
  | «variable» =>
    rw [Ensures.bind_iff, Ensures.get_iff]
    split
    · rename_i id hid
      obtain ⟨hst', hx⟩ := hst.findVariable hid
      exact ⟨⟨.refl, hst', rfl⟩, hx⟩
    · have hc : (Cause.undefinedVariable token.text).Ordinary := ⟨nofun, nofun⟩
      exact located_iff.mpr (FailPost.refl hst hres (D.ordinary hc)).locate
  | _ =>
    have hvalue : token.isValue ≠ true := by simp [Token.isValue, htk]
    exact located_iff.mpr (FailPost.refl hst hres (hn.resolve_left hvalue)).locate

-- An `exit` interrupts while variables wait.
theorem giveUp_sound (hp : p.Fit D) {ids : List VarId}
    (hr : BesidePost D A K xs scope r none r') (hids : ∀ y, y ∈ xs ↔ y ∈ ids) :
    Ensures (p.giveUp ids) r' (fun _ r'' => EvalPost D A K scope r none r'')
      (FailPost D A K noScope [] scope r) := by
  obtain ⟨hf, hst, hcar, hkind⟩ := hr
  have hst' : State D A K (r'.flow.result.toList ++ ids) scope r' :=
    hst.same fun y => by rw [List.mem_append, List.mem_append, hids]
  refine (hp.giveUp hst' hcar hkind).mono ?_ fun _ _ he => he.trans hf
  rintro _ r'' ⟨hm, hcar'⟩
  exact ⟨hf.trans hm.frame, by rw [hm.flow]; exact hm.state, hcar', by rw [hm.flow, hkind]⟩

theorem itemsBy_sound (hself : self.Sound D) (hp : p.Fit D) (items : List Node)
    (hn : ∀ n ∈ items, D.evaluable n) {l : Option VarId}
    (hst : State D A K l.toList scope r) (hlast : ∀ x ∈ l, r.heap.Held x)
    (hflow : r.flow = .start) :
    Ensures (itemsBy p self scope l items) r (EvalPost D A K scope r)
      (FailPost D A K noScope [] scope r) := by
  induction items generalizing l r with
  | nil =>
    unfold itemsBy
    cases l with
    | none => exact allocNull_sound hst hflow
    | some x => exact ⟨.refl, hst, hlast x rfl, hflow⟩
  | cons item rest ih =>
    have heval := hself.eval_beside (hn item (List.mem_cons_self ..)) hst hflow
    have hrest : ∀ n ∈ rest, D.evaluable n := fun n h => hn n (List.mem_cons_of_mem _ h)
    unfold itemsBy
    rw [Ensures.bind_iff]
    refine (onFailure_ensures heval fun r' hst' => ?_).mono ?_ fun _ _ he => he
    · exact (release_option (by simpa using hst')).mono (fun _ _ hq => hq.1) fun _ _ he => he
    rintro (_ | x) r₁ hr
    · rw [Ensures.bind_iff]
      exact giveUp_sound hp hr fun _ => .rfl
    obtain ⟨hf, hst₁, hx, hflow₁⟩ := hr
    -- The value before is let go, unless the new one is the same variable.
    by_cases hsame : l = some x
    · subst hsame
      have hst₂ : State D A K [x] scope r₁ := hst₁.same fun y => by simp
      simp only [bne_self_eq_false, Bool.false_eq_true, if_false]
      exact (ih hrest (l := some x) hst₂ (by simpa using hx) hflow₁).mono
        (fun _ _ hq => hq.trans hf) fun _ _ he => he.trans hf
    · have hst₂ : State D A K (l.toList ++ [x]) scope r₁ :=
        hst₁.same fun y => by simp [or_comm]
      simp only [bne_iff_ne, ne_eq, hsame, not_false_eq_true, if_true]
      rw [Ensures.bind_iff]
      refine (release_option (P := noScope) hst₂).mono ?_ fun _ _ he => he
      rintro _ r₂ ⟨hm, hstay⟩
      have hx₂ : r₂.heap.Held x := (hstay x hx fun h => hsame h).held hx
      have hf₂ := hf.trans hm.frame
      exact (ih hrest (l := some x) hm.state (by simpa using hx₂) (hm.flow.trans hflow₁)).mono
        (fun _ _ hq => hq.trans hf₂) fun _ _ he => he.trans hf₂

theorem operandsBy_sound (hself : self.Sound D) (hp : p.Fit D) (nodes : List Node)
    (hn : ∀ n ∈ nodes, D.evaluable n) {operands : List VarId}
    (hst : State D A K operands scope r) (hlast : ∀ x ∈ operands.head?, r.heap.Held x)
    (hflow : r.flow = .start) :
    Ensures (operandsBy p self scope operands nodes) r
      (fun result r' =>
        match result with
        | some ops => Frame K noScope r r' ∧ State D A K ops scope r' ∧ r'.flow = .start ∧
            (∀ x ∈ ops.head?, r'.heap.Held x) ∧ ops.length = operands.length + nodes.length
        | none => EvalPost D A K scope r none r')
      (FailPost D A K noScope [] scope r) := by
  induction nodes generalizing operands r with
  | nil => exact ⟨.refl, hst, hflow, hlast, rfl⟩
  | cons node rest ih =>
    have heval := hself.eval_beside (hn node (List.mem_cons_self ..)) hst hflow
    unfold operandsBy
    rw [Ensures.bind_iff]
    refine (onFailure_ensures heval fun r' hst' => ?_).mono ?_ fun _ _ he => he
    · exact (releaseAll_ensures operands.reverse ((by simpa using hst'.same fun y => List.mem_reverse.symm) : State D A K (operands.reverse ++ []) scope r')).mono
        (fun _ _ hq => hq.1) fun _ _ he => he
    rintro (_ | x) r₁ hr
    · rw [Ensures.bind_iff]
      exact giveUp_sound hp hr fun _ => List.mem_reverse.symm
    obtain ⟨hf, hst₁, hx, hflow₁⟩ := hr
    have hinside : r₁.flow.insideExpression = .ok () := by
      rw [hflow₁]
      rfl
    rw [Ensures.bind_iff, flow_iff, Ensures.bind_iff, ofExcept_ok hinside]
    refine (ih (fun n h => hn n (List.mem_cons_of_mem _ h)) hst₁ (by simpa using hx) hflow₁).mono ?_
      fun _ _ he => he.trans hf
    rintro (_ | ops) r₂ hq
    · exact hq.trans hf
    · obtain ⟨hf₂, hst₂, hflow₂, hheld, hlen⟩ := hq
      refine ⟨hf.trans hf₂, hst₂, hflow₂, hheld, ?_⟩
      simp only [List.length_cons] at hlen ⊢
      omega

-- The operands are let go of, and what is kept stays.
theorem releaseOperands_ensures {keep : Option VarId} (operands : List VarId)
    (hst : State D A K (keep.toList ++ operands) scope r) (hkeep : ∀ x ∈ keep, r.heap.Held x) :
    Ensures (operands.forM fun id => if some id = keep then pure () else release id) r
      (fun _ r' => Moved D A K noScope keep.toList scope r r' ∧ ∀ x ∈ keep, r'.heap.Held x) E := by
  let I : List VarId → Run → Prop := fun rest r' =>
    Moved D A K noScope (keep.toList ++ rest) scope r r' ∧ ∀ x ∈ keep, r'.heap.Held x
  refine (Ensures.forM I ?_ operands r ⟨⟨.refl, hst, rfl⟩, hkeep⟩).mono ?_ fun _ _ he => he
  · rintro id rest r₁ ⟨hm, hheld⟩
    split
    · rename_i hid
      exact ⟨⟨hm.frame, hm.state.same fun y => by simp [← hid], hm.flow⟩, hheld⟩
    · rename_i hid
      have hst₁ : State D A K (id :: (keep.toList ++ rest)) scope r₁ :=
        hm.state.same fun y => by simp [or_left_comm]
      refine (release_ensures (P := noScope) hst₁).mono ?_ fun _ _ he => he
      rintro _ r₂ ⟨hm₂, hstay⟩
      refine ⟨⟨hm.frame.trans hm₂.frame, hm₂.state, hm₂.flow.trans hm.flow⟩, fun x hx => ?_⟩
      refine (hstay x (hheld x hx) ?_).held (hheld x hx)
      rintro rfl
      exact hid hx.symm
  · rintro _ r' ⟨hm, hheld⟩
    exact ⟨⟨hm.frame, by simpa using hm.state, hm.flow⟩, hheld⟩

theorem operatorBy_sound (hself : self.Sound D) (hp : p.Fit D) {op : Operator}
    {children : List Node} (hn : ∀ n ∈ children, D.evaluable n)
    (hcount : ∀ wanted, op.arity? = some wanted → wanted ≠ children.length →
      D.admits (.operandCount op wanted children.length))
    (hst : State D A K [] scope r) (hflow : r.flow = .start) :
    Ensures (operatorBy p self op children scope) r (EvalPost D A K scope r)
      (FailPost D A K noScope [] scope r) := by
  rw [operatorBy, Ensures.bind_iff]
  refine (operandsBy_sound hself hp children hn hst (by simp) hflow).mono ?_ fun _ _ he => he
  rintro (_ | reversed) r₁ hq
  · exact hq
  obtain ⟨hf, hst₁, hflow₁, hheld, hlen⟩ := hq
  have hready : Operation.Ready K r₁.heap reversed.reverse := by
    refine ⟨fun x hx => hst₁.safe x (List.mem_reverse.mp hx), fun x hx => hheld x ?_⟩
    rwa [List.getLast?_reverse] at hx
  rw [Ensures.bind_iff, attempt_iff, onHeap_iff]
  refine (hp.apply hst₁.sound.heap hst₁.closed hready).mono ?_ ?_
  · rintro x h hgives
    have hst₂ : State D A K ((some x).toList ++ reversed.reverse) scope (r₁.withHeap h) := by
      refine hst₁.step hgives.step (fun y hy => by simp [hy]) (fun y hy _ => by simp [hy]) ?_
      intro y hy
      rcases List.mem_append.mp hy with hy | hy
      · cases List.mem_singleton.mp hy
        exact hgives.safe
      · exact (hst₁.safe y (List.mem_reverse.mp hy)).of_keeps hgives.step.keeps
    rw [Ensures.bind_iff]
    refine (releaseOperands_ensures _ hst₂ fun y hy => ?_).mono ?_ fun _ _ he => he
    · cases hy
      exact hgives.held
    · rintro _ r₂ ⟨hm, hx⟩
      refine ⟨(hf.trans (.of_step hgives.step)).trans hm.frame, hm.state, hx x rfl, ?_⟩
      exact hm.flow.trans hflow₁
  · rintro e h ⟨rfl, hcause⟩
    refine Ensures.bind_iff.mpr ?_
    have hst₂ : State D A K ((none : Option VarId).toList ++ reversed.reverse) scope r₁ :=
      hst₁.same fun y => by simp
    refine (releaseOperands_ensures _ hst₂ nofun).mono ?_ fun _ _ he => he
    · rintro _ r₂ ⟨hm, -⟩
      refine ⟨hf.trans hm.frame, hm.state, ?_, ?_⟩
      · exact (congrArg Flow.result (hm.flow.trans hflow₁)).trans rfl
      · rcases hcause with hc | ⟨wanted, harity, hne, hc⟩
        · exact hc
        · have hlen' : reversed.reverse.length = children.length := by simpa using hlen
          rw [hc, hlen']
          exact hcount wanted harity (hlen' ▸ hne)

theorem pushItems_sound (hself : self.Sound D) (items : List Node)
    (hn : ∀ n ∈ items, D.evaluable n) {array : VarId} (hst : State D A K [array] scope r)
    (hopen : r.heap.Open array) (hflow : r.flow = .start) :
    Ensures (pushItems self scope array items) r (EvalPost D A K scope r)
      (FailPost D A K noScope [] scope r) := by
  induction items generalizing r with
  | nil => 
    refine ⟨.refl, hst, ?_, hflow⟩
    obtain ⟨v, hv, ho, -⟩ := hopen
    exact ⟨v, hv, .inl ho⟩
  | cons item rest ih =>
    have hdetached : r.heap.Detached array := hopen.imp fun _ hv => ⟨hv.1, hv.2.1⟩
    have htemp : r.heap.Temps K array := .inr ⟨array, hdetached, .refl⟩
    -- The array waits while the item is evaluated and made a temporary.
    have heval := (hself.eval (hn item (List.mem_cons_self ..)) hst.protect hflow).mono
      (fun _ _ hq => hq) fun _ _ he => he.unprotect hst
    unfold pushItems
    rw [Ensures.bind_iff]
    refine (onFailure_ensures heval fun r' hst' => ?_).mono ?_ fun _ _ he => he
    · exact (release_ensures hst').mono (fun _ _ hq => hq.1) fun _ _ he => he
    rintro (_ | value) r₁ ⟨hf, hst₁, hrest⟩
    · obtain ⟨hcar, hkind⟩ := hrest
      have hst₂ := hst.unprotect hst₁ hf.keeps
      have hst₃ : State D A K (array :: r₁.flow.result.toList) scope r₁ :=
        hst₂.same fun y => by simp [or_comm]
      rw [Ensures.bind_iff]
      refine (release_ensures (P := noScope) hst₃).mono ?_ fun _ _ he => he
      rintro _ r₂ ⟨hm, hstay⟩
      refine ⟨hf.unprotect.trans hm.frame, by rw [hm.flow]; exact hm.state, fun x hx => ?_,
        by rw [hm.flow, hkind]⟩
      rw [hm.flow] at hx ⊢
      refine (hcar x hx).imp_left fun hheld => (hstay x hheld ?_).held hheld
      rintro rfl
      have hfrozen := hst₁.safe x (by simpa using hx) htemp
      exact hfrozen.not_detached ((hf.keeps.ownedBy htemp).mpr hdetached)
    · obtain ⟨hheld, hflow₁⟩ := hrest
      rw [Ensures.bind_iff]
      refine (own_ensures (P := noScope) hst₁ hheld).mono ?_ fun _ _ he => he
      rintro y r₂ ⟨hm, hd, hk⟩
      have hkeeps := hf.keeps.trans hm.frame.keeps
      have hst₂ : State D A K [y, array] scope r₂ := hst.unprotect hm.state hkeeps
      have hopen₂ : r₂.heap.Open array := by
        unfold Heap.Open
        rw [hkeeps array htemp]
        exact hopen
      have hne : y ≠ array := by
        rintro rfl
        exact hk htemp
      rw [Ensures.bind_iff, onHeap_iff]
      refine (Heap.pushElement_ensures hst₂.sound.heap hst₂.closed hopen₂ ?_ hd (fun h => hk (.inl h)) hne).mono
        ?_ fun _ _ he => he
      · exact hst₂.not_detached (by simp) (hopen₂.imp fun _ hv => ⟨hv.1, hv.2.1⟩)
      rintro _ h ⟨hstep, hopen₃, hnd⟩
      have hf₃ : Frame K noScope r (r₂.withHeap h) :=
        (hf.unprotect.trans (hm.frame.mono (fun _ => .inl) fun _ hs => hs)).trans (.of_step hstep)
      exact (ih (fun n h => hn n (List.mem_cons_of_mem _ h)) ((hst₂.step_same hstep).drop hnd) hopen₃
        (hm.flow.trans hflow₁)).mono (fun _ _ hq => hq.trans hf₃) fun _ _ he => he.trans hf₃

theorem buildArray_sound (hself : self.Sound D) {items : List Node}
    (hn : ∀ n ∈ items, D.evaluable n) (hst : State D A K [] scope r) (hflow : r.flow = .start) :
    Ensures (buildArray self items scope) r (EvalPost D A K scope r)
      (FailPost D A K noScope [] scope r) := by
  have ht := Heap.temporary_added (p := .array #[]) hst.sound.heap (fun _ => hst.closed.live) rfl
    fun _ => nofun
  have hk : ¬K (r.heap.fresh (.temporary (.array #[]))) := by
    intro hk
    obtain ⟨v, hv⟩ := hst.closed.live hk
    rw [ht.fresh] at hv
    cases hv
  rw [buildArray, Ensures.bind_iff, onHeap_iff, Heap.alloc_iff rfl]
  have hst₁ := hst.step_add ht.step fun hx => absurd hx hk
  have hf : Frame K noScope r (r.withHeap (r.heap.added (.temporary (.array #[])))) :=
    .of_step ht.step
  refine (pushItems_sound hself items hn hst₁ ?_ hflow).mono (fun _ _ hq => hq.trans hf)
    fun _ _ he => he.trans hf
  refine ⟨.temporary (.array #[]), ?_, rfl, rfl, #[], rfl⟩
  exact (hst.sound.heap.forest.var?_added _ _).trans (if_pos rfl)

end Interpreter

namespace Exec

-- The flow of the part is seen from outside; failures leave the outer one.
theorem withFreshFlow_ensures {part : Exec Unit} {Q : Flow → Run → Prop}
    (hpart : Ensures part { r with flow := .start }
      (fun _ r' => Q r'.flow { r' with flow := r.flow })
      (fun e r' => match e with
        | .failure f => E (.failure f) { r' with flow := r.flow }
        | .outOfFuel => E .outOfFuel r')) :
    Ensures (withFreshFlow part) r Q E := by
  rw [withFreshFlow, Ensures.bind_iff, flow_iff, Ensures.bind_iff, setFlow_iff, Ensures.bind_iff,
    attempt_iff]
  refine hpart.mono (fun _ r' hq => hq) ?_
  rintro (f | _) r' he <;> exact he

end Exec

namespace Interpreter

open Exec

-- A call with a flow of its own, which is over then.
theorem call_sound (hself : self.Sound D) {f : Function} {a : Arguments} (hf : f.Fit D)
    (hargs : a.Fit D K scope r) (hst : State D A K [] scope r) (hflow : r.flow = .start) :
    Ensures (withFreshFlow (self.call f a scope)) r
      (fun ended r' => Moved D A K noScope ended.result.toList scope r r' ∧
        (∀ x ∈ ended.result, r'.heap.Held x ∨ ended.kind = .exiting ∧ D.Loose) ∧
        (ended.kind = .next ∨ ended.kind = .exiting))
      (FailPost D A K noScope [] scope r) := by
  have hr : ({ r with flow := .start } : Run) = r := by rw [← hflow]
  refine withFreshFlow_ensures ?_
  rw [hr]
  refine (hself.call hf hargs hst hflow).mono ?_ ?_
  · rintro _ r' hpost
    exact ⟨⟨hpost.frame.trans (.of_machine rfl rfl), hpost.state.congr rfl, rfl⟩, hpost.carries,
      hpost.kind⟩
  · rintro (f | _) r' he
    · obtain ⟨hf, hst', -, hc⟩ := he
      exact ⟨hf.trans (.of_machine rfl rfl), hst'.congr rfl, by rw [hflow]; rfl, hc⟩
    · trivial

-- An `exit` that goes on.
theorem EvalPost.of_exit {result : Option VarId} (hm : Moved D A K noScope result.toList scope r r')
    (hx : ∀ x ∈ result, r'.heap.Held x ∨ D.Loose) :
    EvalPost D A K scope r none { r' with flow := ⟨.exiting, result⟩ } :=
  ⟨hm.frame.trans (.of_machine rfl rfl), hm.state.congr rfl,
    fun x h => (hx x h).imp_right fun hl => ⟨rfl, hl⟩, rfl⟩

theorem evalCall_sound (hself : self.Sound D)
    (hn : match node.children with
      | [_, args] => ∀ c ∈ args.children, D.evaluable c
      | _ => D.admits .malformedCall)
    (hst : State D A K [] scope r) (hflow : r.flow = .start) :
    Ensures (evalCall self node scope) r (EvalPost D A K scope r)
      (FailPost D A K noScope [] scope r) := by
  have hres : r.flow.result = none := by rw [hflow]; rfl
  unfold evalCall
  split
  · rename_i callee args hchildren
    rw [hchildren] at hn
    split
    · exact .refl hst hres (D.ordinary (c := .calleeNotNamed) ⟨nofun, nofun⟩)
    · rename_i name _
      rw [Ensures.bind_iff, Ensures.get_iff]
      split
      · exact .refl hst hres (D.ordinary (c := .undefinedFunction name) ⟨nofun, nofun⟩)
      · rename_i f hfind
        rw [Ensures.bind_iff]
        refine (call_sound hself (hst.findFunction hfind) (a := .nodes args.children) hn hst hflow).mono ?_ fun _ _ he => he
        rintro ⟨kind, result⟩ r₁ ⟨hm, hheld, hkind⟩
        have hflow₁ : r₁.flow = .start := hm.flow.trans hflow
        simp only at hm hheld hkind ⊢
        split
        · have hpost := EvalPost.of_exit hm fun x hx => (hheld x hx).imp_right And.right
          rw [Ensures.bind_iff, setKind_iff, Ensures.bind_iff, hflow₁]
          cases result with
          | none => exact hpost
          | some x => exact (setResult_start rfl).mpr hpost
        · rename_i hexit
          cases result with
          | none =>
            exact (allocNull_sound hm.state hflow₁).mono (fun _ _ hq => hq.trans hm.frame)
              fun _ _ he => he
          | some x =>
            refine .of_moved hm ((hheld x rfl).resolve_right fun h => hexit ?_) hflow
            simp [Flow.isExit, h.1]
  · rename_i hshape
    split at hn
    · exact absurd ‹_› (hshape _ _)
    · exact .refl hst hres hn

theorem expressionBy_sound (hself : self.Sound D) (hp : p.Fit D) (hkind : node.kind = .expression)
    (hn : node.EvalRule D.admits D.evaluable) (hst : State D A K [] scope r)
    (hflow : r.flow = .start) :
    Ensures (expressionBy p self node scope) r (EvalPost D A K scope r)
      (FailPost D A K noScope [] scope r) := by
  have hres : r.flow.result = none := by rw [hflow]; rfl
  unfold Node.EvalRule at hn
  rw [hkind] at hn
  unfold expressionBy
  rcases htoken : node.token with _ | token
  · simp only
    rw [Ensures.bind_iff]
    refine (alloc_value (p := .numeric 1.0) hst rfl fun _ => nofun).mono ?_ fun _ _ he => he
    rintro x r' ⟨hm, hx⟩
    exact .of_moved hm hx hflow
  simp only [htoken] at hn ⊢
  rcases hop : token.operator? with _ | op
  · simp only [hop] at hn
    exact .refl hst hres hn
  simp only [hop] at hn ⊢
  rw [located_iff]
  split at hn
  · cases ‹some op = none›
  · cases ‹some op = _›
    exact (itemsBy_sound hself hp _ hn (l := none) hst nofun hflow).mono (fun _ _ hq => hq)
      fun _ _ he => he.locate
  · cases ‹some op = _›
    exact (buildArray_sound hself hn hst hflow).mono (fun _ _ hq => hq) fun _ _ he => he.locate
  · cases ‹some op = _›
    exact (evalCall_sound hself hn hst hflow).mono (fun _ _ hq => hq) fun _ _ he => he.locate
  · rename_i op' hparen hbracket hcall heq
    cases heq
    refine Ensures.mono (F := FailPost D A K noScope [] scope r) ?_ (fun _ _ hq => hq)
      fun _ _ he => he.locate
    split
    · exact absurd rfl hparen
    · exact absurd rfl hbracket
    · exact absurd rfl hcall
    · exact operatorBy_sound hself hp hn.1 hn.2 hst hflow

theorem nodeBy_sound (hself : self.Sound D) (hp : p.Fit D) (hn : D.evaluable node)
    (hst : State D A K [] scope r) (hflow : r.flow = .start) :
    Ensures (nodeBy p self node scope) r (EvalPost D A K scope r)
      (FailPost D A K noScope [] scope r) := by
  have hrule := D.evalRule hn
  unfold nodeBy
  split
  · rename_i hkind
    rw [Ensures.bind_iff]
    refine (evalSingle_sound hkind hrule hst hflow).mono ?_ fun _ _ he => he
    rintro x r' ⟨hm, hx⟩
    exact .of_moved hm hx hflow
  · rename_i hkind
    exact expressionBy_sound hself hp hkind hrule hst hflow
  · rename_i hsingle hexpr
    refine .refl hst (by rw [hflow]; rfl) ?_
    unfold Node.EvalRule at hrule
    split at hrule
    · exact absurd ‹_› hsingle
    · exact absurd ‹_› hexpr
    · exact hrule

end Interpreter

end FinLang

import FinLang.Proofs.Machine.Leaving

namespace FinLang

variable {d : Departure} {N : Prop} {r r₁ r' : Run} {n scope caller : ScopeId} {i j : Interpreter}
  {nodes : List Node} {name : String} {params : List String} {args : Arguments} {f : Function}

-- A part that leaves the flow alone and binds no functions.
theorem Departs.regular_bind {α β : Type} {T : β → Run → Prop} {S : Run → β → Run → Prop}
    {x : Exec α} {k l : α → Exec β} (hr : d.Ready r) (hx : Aside x) (hm : Regular (.names n) x)
    (hk : ∀ a r', d.Ready r' → r'.machine.depth = r.machine.depth →
      Departs d N T S (k a) (l a) r') : Departs d N T S (x >>= k) (x >>= l) r :=
  .aside_bind hx hr.stays (hm r hr.upright.fine) fun a r' hm hflow =>
    hk a r' (hr.moves hm (fun _ => False.elim) hflow) hm.depth

namespace Library

open Exec

theorem lookup_ensures :
    Ensures (readScopes (·.lookup scope)) r (fun sc r' => r' = r ∧ r.scope? scope = some sc)
      fun _ _ => True := by
  rcases hsc : r.scope? scope with _ | sc
  · have hstale : r.machine.store.scopes.lookup scope = .error (.of (.staleScope scope)) := by
      simp [Scopes.lookup, hsc]
    exact Ensures.bind_iff.mpr ((ofExcept_error hstale).mpr trivial)
  · exact (readScopes_lookup hsc).mpr ⟨rfl, rfl⟩

theorem argument_aside : Aside (argument scope name) := by
  refine Aside.readScopes.bind fun _ => ?_
  split
  · exact .pure
  · exact .fail

theorem callingScope_aside : Aside (callingScope scope) :=
  Aside.readScopes.bind fun _ => Aside.get.bind fun _ => .pure

theorem imageSide_aside : Aside (imageSide scope name) := by
  refine .bind argument_aside fun _ => Aside.readHeap.bind fun _ => ?_
  split
  · split
    · exact .fail
    · exact .pure
  · exact .fail

theorem finish_jumpless {result : Option VarId} : Jumpless (finish result) :=
  Jumpless.setNext.bind fun _ => .setResults

theorem finishWith_jumpless {p : Payload} : Jumpless (finishWith p) :=
  Aside.onHeap.jumpless.bind fun _ => finish_jumpless

theorem print_jumpless : Jumpless (print scope) :=
  Aside.readScopes.jumpless.bind fun _ => (Aside.mapM (fun _ => .readHeap) _).jumpless.bind fun _ =>
    Aside.modifyMachine.jumpless.bind fun _ => finish_jumpless

theorem extArgCount_jumpless : Jumpless (extArgCount scope) := by
  refine .bind (Aside.jumpless callingScope_aside) fun outer => ?_
  cases outer with
  | none => exact Aside.pure.jumpless.bind fun _ => finishWith_jumpless
  | some s =>
    exact Aside.readScopes.jumpless.bind fun _ => Aside.pure.jumpless.bind fun _ =>
      finishWith_jumpless

theorem extArg_jumpless : Jumpless (extArg scope) := by
  refine .bind (Aside.jumpless argument_aside) fun _ => Aside.readHeap.jumpless.bind fun _ => ?_
  split
  · exact Aside.fail.jumpless
  refine .bind (Aside.jumpless callingScope_aside) fun outer => ?_
  cases outer with
  | none => exact Aside.fail.jumpless
  | some s =>
    refine Aside.readScopes.jumpless.bind fun _ => ?_
    split
    · exact finish_jumpless
    · exact Aside.fail.jumpless

theorem image_jumpless : Jumpless (image scope) := by
  refine .bind (Aside.jumpless imageSide_aside) fun _ => .bind (Aside.jumpless imageSide_aside) fun _ => ?_
  dsimp only
  split
  · exact Aside.fail.jumpless.bind fun _ => finishWith_jumpless
  · exact finishWith_jumpless

-- What is handed on is bound in the scope of this very call. An `exit` goes on behind it.
theorem call_departs (h : Interpreter.Parts d i j) (hr : d.Ready r) :
    Departs d (d.level = none) (fun _ _ => True)
      (fun r₁ _ r' => r'.flow.kind = .exiting ∧ r₁.Unwinds r') (call i scope) (call j scope) r := by
  unfold call
  refine .regular_bind (n := scope) hr argument_aside argument_regular fun id r₁ hr₁ _ => ?_
  refine .regular_bind (n := scope) hr₁ .readHeap .readHeap fun name r₂ hr₂ _ => .get_bind ?_
  split
  · exact .fail hr₂.stays
  rename_i f hfind
  refine .aside_bind .readScopes hr₂.stays lookup_ensures ?_
  rintro sc r₂ ⟨rfl, hsc⟩ -
  have hin : ∀ x ∈ extArgs sc, ∃ name, (name, x) ∈ sc.vars := fun _ => mem_extArgs
  have hfit : (Arguments.values (extArgs sc)).Fit .lenient (r₂.heap.Temps nothing) scope r₂ :=
    fun x hx => by
      obtain ⟨name, hx⟩ := hin x hx
      exact ⟨hr₂.upright.fine.apart_of_bound hsc hx _
        (Heap.Hidden.temps hr₂.upright.fine.sound.heap), sc, name, hsc, hx⟩
  have hbound : (Arguments.values (extArgs sc)).Bound r₂ := fun x hx =>
    have ⟨name, hx⟩ := hin x hx
    ⟨scope, sc, name, hsc, hx⟩
  refine (h.freshCall hr₂ (hr₂.upright.fit_of_find hfind) hfit hbound).bind ?_ ?_
  · rintro ended r₃ ⟨hstays, -⟩
    split
    · exact (Departs.of_jumpless (S := fun _ _ _ => False) .setResults hstays).bind
        (fun _ _ _ => .setKind) fun _ _ _ _ _ => False.elim
    · exact .of_jumpless finish_jumpless hstays
  · rintro r₃ ⟨kind, result⟩ r₄ - - ⟨hflow, hkind, hu⟩
    cases hkind
    simp only [Flow.isExit, beq_self_eq_true, if_true]
    rw [Ensures.bind_iff]
    exact (setResults_start (by rw [hflow]; rfl)).mpr (setKind_iff.mpr ⟨rfl, hu⟩)

theorem run_departs (h : Interpreter.Parts d i j) (hr : d.Ready r) (native : Native) :
    Departs d (d.level = none) (fun _ _ => True)
      (fun r₁ _ r' => r'.flow.kind = .exiting ∧ r₁.Unwinds r') (run i scope native)
      (run j scope native) r := by
  have hread : ∀ {α : Type} {look : VarId → Heap → Except Failure α} {k : α → Exec Unit},
      (∀ a, Jumpless (k a)) → Jumpless (do
        let x ← argument scope "x"
        let found ← readHeap (look x)
        k found) := fun hk =>
    .bind (Aside.jumpless argument_aside) fun _ => Aside.readHeap.jumpless.bind hk
  cases native with
  | print => exact .of_jumpless print_jumpless hr.stays
  | len => exact .of_jumpless (hread fun _ => finishWith_jumpless) hr.stays
  | typeOf => exact .of_jumpless (hread fun _ => finishWith_jumpless) hr.stays
  | extArgCount => exact .of_jumpless extArgCount_jumpless hr.stays
  | extArg => exact .of_jumpless extArg_jumpless hr.stays
  | call => exact call_departs h hr
  | callDepth => exact .of_jumpless (Aside.get.jumpless.bind fun _ => finishWith_jumpless) hr.stays
  | image => exact .of_jumpless image_jumpless hr.stays
  | math f =>
    exact .of_jumpless (hread fun _ => Aside.ofExcept.jumpless.bind fun _ => finishWith_jumpless) hr.stays
  | signal kind => exact .setKind

end Library

namespace Exec

-- At the end of a body a `return` is done, and an `exit` goes on.
theorem leaveBody_departs {S : Run → Unit → Run → Prop} :
    Departs d N (fun _ _ => True) S leaveBody leaveBody r := by
  refine .same ?_
  rw [leaveBody, Ensures.bind_iff, flow_iff, Ensures.bind_iff]
  rcases hleave : r.flow.leaveBody with e | fl
  · refine (ofExcept_error rfl).mpr ⟨⟨_, rfl⟩, fun _ hexit => ?_⟩
    simp [Flow.leaveBody, hexit] at hleave
  · exact (ofExcept_ok rfl).mpr (setFlow_iff.mpr trivial)

theorem leaveBody_out {E : Halt → Run → Prop} (hout : d.Out r r') :
    Ensures leaveBody r' (fun _ r'' => r''.flow.kind = d.settled ∧ r.Unwinds r'') E := by
  obtain ⟨hkind, hu⟩ := hout
  rcases hd : d.level with _ | n
  · rw [Departure.kind, hd] at hkind
    rw [Departure.settled, hd]
    exact (leaveBody_iff (.inr hkind)).mpr ⟨hkind, hu⟩
  · rw [Departure.kind, hd] at hkind
    have hleave : r'.flow.leaveBody = .ok (r'.flow.withKind .next) := by
      simp [Flow.leaveBody, show r'.flow.kind = .returning from hkind]
    rw [leaveBody, Ensures.bind_iff, flow_iff, Ensures.bind_iff, ofExcept_ok hleave, Departure.settled,
      hd]
    exact setFlow_iff.mpr ⟨rfl, ⟨hu.fine.sound, hu.fine.depth⟩, hu.recedes.congr, hu.hands⟩

end Exec

namespace Interpreter

open Exec

theorem bindValues_aside (ids : List VarId) {k : Nat} : Aside (bindValues params n k ids) := by
  induction ids generalizing k with
  | nil => exact .pure
  | cons value rest ih => exact Aside.onHeap.bind fun _ => Aside.onStore.bind fun _ => ih

section Bodies

variable (h : Parts d i j) (hr : d.Ready r)
include h hr

-- An `exit` in an argument leaves the call before its body begins.
theorem bindNodes_departs {k : Nat} :
    Departs d (d.level = none) (fun bound r' => bound = true → d.Ready r' ∧
        r'.machine.depth = r.machine.depth)
      (fun r₁ bound r' => bound = false ∧ r'.flow.kind = .exiting ∧ r₁.Unwinds r')
      (bindNodes i params caller n k nodes) (bindNodes j params caller n k nodes) r := by
  induction nodes generalizing k r with
  | nil => exact .pure fun _ => ⟨hr, rfl⟩
  | cons node rest ih =>
    unfold bindNodes declareIn
    refine (h.value hr).bind ?_ ?_
    · rintro (_ | x) r₁ ⟨hstays, hv⟩
      · exact .pure (by simp)
      · have hr₁ := hv.ready hr
        simp only [← bind_assoc]
        refine .aside_bind (Aside.own.bind fun _ => .onStore) hstays
          (own_declare_moves (P := .names n) hr.upright.fine (hv.value x rfl).1 rfl trivial
            (hv.value x rfl).2.1) fun _ r₂ hm hflow => ?_
        have hr₂ : d.Ready r₂ := hr.moves hm (fun _ => False.elim)
          (hflow.trans (hr₁.flow.trans hr.flow.symm))
        exact (ih hr₂).imp fun _ _ hb hbound => (hb hbound).imp_right fun hd => hd.trans hm.depth
    · rintro r₁ _ r₂ - - ⟨rfl, hexit, hu⟩
      exact ⟨rfl, hexit, hu⟩

theorem bindArguments_departs (hargs : args.Bound r) :
    Departs d (d.level = none) (fun bound r' => bound = true → d.Ready r' ∧
        r'.machine.depth = r.machine.depth)
      (fun r₁ bound r' => bound = false ∧ r'.flow.kind = .exiting ∧ r₁.Unwinds r')
      (bindArguments i params args caller n) (bindArguments j params args caller n) r := by
  have hmissing : ∀ {r₁ : Run} (names : List String), d.Ready r₁ →
      r₁.machine.depth = r.machine.depth →
      Departs d (d.level = none) (fun bound r' => bound = true → d.Ready r' ∧
          r'.machine.depth = r.machine.depth)
        (fun r₁ bound r' => bound = false ∧ r'.flow.kind = .exiting ∧ r₁.Unwinds r')
        (do bindMissing n names; return true) (do bindMissing n names; return true) r₁ :=
    fun names hr₁ hdepth => .regular_bind hr₁
      (.forM (fun _ => Aside.onHeap.bind fun _ => .onStore) names)
      (bindMissing_regular rfl (fun _ => trivial) names)
      fun _ _ hr₂ hdepth₂ => .pure fun _ => ⟨hr₂, hdepth₂.trans hdepth⟩
  unfold bindArguments
  cases args with
  | nodes nodes =>
    refine (bindNodes_departs h hr).bind ?_ ?_
    · rintro bound r₁ hbound
      split
      · exact hmissing _ (hbound ‹_›).1 (hbound ‹_›).2
      · exact .pure nofun
    · rintro r₁ _ r₂ - - ⟨rfl, hexit, hu⟩
      exact ⟨rfl, hexit, hu⟩
  | values ids =>
    refine .aside_bind (bindValues_aside ids) hr.stays
      (bindValues_moves (P := .names n) rfl (fun _ => trivial) ids hr.upright.fine hargs)
      fun _ r₁ hm hflow => hmissing _ (hr.moves hm (fun _ => False.elim) hflow) hm.depth

-- The body of a function ends with the `return`, and an `exit` goes on behind it.
theorem runBody_departs (fuel : Nat) (hf : f.Fit .lenient) :
    Departs d (d.Here r) (fun _ _ => True) (fun r₁ _ r' => r'.flow.kind = d.settled ∧ r₁.Unwinds r')
      (runBody i fuel f n) (runBody j fuel f n) r := by
  unfold runBody
  rcases hbody : f.body with block | native
  · simp only [Function.Fit, hbody] at hf
    exact (runList_departs h fuel hf hr).bind (fun _ _ _ => leaveBody_departs)
      fun _ _ _ _ _ hout => leaveBody_out hout
  · have hrun : Departs d (d.Here r) (fun _ _ => True) (fun r₁ _ => d.Out r₁)
        (Library.run i n native) (Library.run j n native) r :=
      (Library.run_departs h hr native).mono Departure.Here.of_none (fun _ _ h => h) fun _ _ _ _ hd h =>
        ⟨h.1.trans (Departure.kind_of_none hd).symm, h.2⟩
    exact hrun.bind (fun _ _ _ => leaveBody_departs) fun _ _ _ _ _ hout => leaveBody_out hout

theorem invoke_departs (fuel : Nat) (hf : f.Fit .lenient) (hargs : args.Bound r) :
    Departs d (d.Here r) (fun _ _ => True) (fun r₁ _ r' => r'.flow.kind = d.settled ∧ r₁.Unwinds r')
      (invoke i fuel f args caller n) (invoke j fuel f args caller n) r := by
  rw [invoke_eq, invoke_eq]
  have hbound : Departs d (d.Here r)
      (fun bound r' => bound = true → d.Ready r' ∧ r'.machine.depth = r.machine.depth)
      (fun r₁ bound r' => bound = false ∧ r'.flow.kind = d.settled ∧ r₁.Unwinds r')
      (bindArguments i f.params args caller n) (bindArguments j f.params args caller n) r :=
    (bindArguments_departs h hr hargs).mono Departure.Here.of_none (fun _ _ h => h) fun _ _ _ _ hd h =>
      ⟨h.1, h.2.1.trans (Departure.settled_of_none hd).symm, h.2.2⟩
  refine hbound.bind ?_ ?_
  · rintro bound r₁ hready
    split
    · obtain ⟨hr₁, hdepth⟩ := hready ‹_›
      exact (runBody_departs h hr₁ fuel hf).mono (fun h => h.of_depth hdepth) (fun _ _ h => h)
        fun _ _ _ _ _ h => h
    · exact .pure trivial
  · rintro r₁ _ r₂ - - ⟨rfl, hout⟩
    exact hout

end Bodies

-- The scope of a call has no functions yet.
theorem openCall_upright (hr : r.Upright) (hflow : r.flow = .start) :
    Ensures (onStore do
      let scope ← Store.createChild caller f.name
      Store.setBelongsTo scope f
      return scope) r
      (fun n r' => Opened n r r' ∧ r'.Upright ∧ ∃ sc, r.scope? caller = some sc)
      (fun _ _ => True) := by
  refine ((openCall_opened hr.fine).and (openCall_ensures (hr.state caller) (by rw [hflow]; rfl))).mono
    ?_ fun _ _ _ => trivial
  rintro n r' ⟨ho, he, -, hlive, -⟩
  exact ⟨ho, ⟨ho.fine, (ho.follows hr.fine).anchored hr.anchored, he.state.reach.fit (.inl trivial)⟩,
    hlive⟩

theorem enterCall_departs {x y : ScopeId → Exec Unit} (hr : r.Upright) (hflow : r.flow = .start)
    (hlevel : ∀ n ∈ d.level, n ≤ r.machine.depth + 1)
    (hbody : ∀ n r₁, Opened n r r₁ → (∃ sc, r.scope? caller = some sc) → d.Ready r₁.deeper →
      Departs d (d.Here r₁.deeper) (fun _ => d.Stays)
        (fun r₀ _ r' => r'.flow.kind = d.settled ∧ r₀.Unwinds r') (x n) (y n) r₁.deeper)
    (hmoves : ∀ n r₁, Opened n r r₁ → r₁.deeper.Fine →
      Ensures (y n) r₁.deeper (fun _ r' => Moves (.any n) r₁.deeper r')
        (Halted (Moves (.any n)) r₁.deeper)) :
    Departs d (∀ n ∈ d.level, n = r.machine.depth + 1) (fun _ => d.Stays)
      (fun r₀ _ r' => r'.flow.kind = d.settled ∧ r₀.Unwinds r')
      (enterCall f caller x) (enterCall f caller y) r := by
  have hstays : d.Stays r := .of_kind (k := .next) (by rw [hflow]; rfl) nofun
  unfold Interpreter.enterCall
  refine .get_bind ?_
  simp only
  split
  · exact (Departs.fail (T := fun _ _ => False) (S := fun _ _ _ => False) hstays).bind
      (fun _ _ => False.elim) fun _ _ _ _ _ => False.elim
  rename_i hlimit
  refine .aside_bind .onStore hstays (openCall_upright hr hflow) ?_
  rintro n r₁ ⟨ho, hu, hlive⟩ hflow₁
  have hr₁ : d.Ready r₁.deeper := by
    refine ⟨⟨⟨hu.fine.sound, ?_⟩, hu.anchored, hu.fit⟩, hflow₁.trans hflow, fun n hn => ?_⟩
    · show r₁.machine.depth + 1 ≤ r₁.machine.config.maxCallDepth
      rw [ho.config, ho.depth]
      omega
    · exact Nat.le_trans (hlevel n hn) (Nat.le_of_eq (congrArg (· + 1) ho.depth.symm))
  refine .modifyMachine_bind ?_
  refine (((hbody n r₁ ho hlive hr₁).given (hmoves n r₁ ho hr₁.upright.fine)).mono
    (fun h n hn => (h n hn).trans (congrArg (· + 1) ho.depth)) (fun _ _ h => h)
    fun _ _ _ _ _ h => h).attempt_bind ?_ ?_ ?_
  · rintro _ r₂ ⟨hstays, -⟩
    exact .jumpless (Aside.modifyMachine.jumpless.bind fun _ => .leaveScope _) hstays
  · intro e r₂ hstays
    have hfails : Fails (do
        modifyMachine fun m => { m with depth := m.depth - 1 }
        leaveScope n (.error e)) := .bind fun _ => .leaveScope
    have hjumpless : Jumpless (do
        modifyMachine fun m => { m with depth := m.depth - 1 }
        leaveScope n (.error e)) := Aside.modifyMachine.jumpless.bind fun _ => .leaveScope _
    exact ((hfails r₂).and (hjumpless r₂)).mono (fun _ _ h => h.1) fun _ _ h =>
      ⟨h.2.1, hstays.of_jumpless h.2.2⟩
  · rintro r₀ _ r₂ - - ⟨⟨hkind, hunwinds⟩, hm⟩
    rw [Ensures.bind_iff]
    refine Ensures.modify_iff.mpr ?_
    refine (leaveScope_unwinds (r := r₂.higher) (ho.moves hr.fine hm.of_deeper rfl) hr.fine
      hr.anchored hunwinds.hands.held).mono ?_ fun _ _ he => he
    rintro _ r₃ ⟨hu₃, hkind₃⟩
    exact ⟨hkind₃.trans hkind, hunwinds.trans hu₃.of_higher⟩

end Interpreter

end FinLang

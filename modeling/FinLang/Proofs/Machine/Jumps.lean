import FinLang.Proofs.Machine.Crossing

namespace FinLang

variable {α β : Type} {d : Departure} {N : Prop} {T : α → Run → Prop} {S S' : Run → α → Run → Prop}
  {U : β → Run → Prop} {V : Run → β → Run → Prop} {p : Point} {x y : Exec α} {r r₁ r' : Run}

theorem Departure.strict_iff : d.strict p r = true ↔ d.ok p r = true ∧ d.leaves r = false := by
  simp [strict]

namespace Exec

theorem pass_bind_ok {ok : Point → Run → Bool} {k : Unit → Exec β} {Q : β → Run → Prop}
    {E : Halt → Run → Prop} (h : ok p r = true) :
    Ensures (pass ok p >>= k) r Q E ↔ Ensures (k ()) r Q E := by
  rw [Ensures.bind_iff, pass, Ensures.bind_iff, Ensures.get_iff, if_pos h]
  rfl

theorem pass_bind_refused {ok : Point → Run → Bool} {k : Unit → Exec β} {Q : β → Run → Prop}
    {E : Halt → Run → Prop} (h : ok p r = false) :
    Ensures (pass ok p >>= k) r Q E ↔ E .outOfFuel r := by
  rw [Ensures.bind_iff, pass, Ensures.bind_iff, Ensures.get_iff, if_neg (by simp [h])]
  rfl

end Exec

namespace Departs

theorem pass_bind {f g : Unit → Exec β}
    (hon : d.ok p r = true → d.leaves r = false → Departs d N U V (f ()) (g ()) r)
    (hleft : d.Left r → N ∧ Ensures (Exec.pass d.ok p >>= g) r (V r) (d.Ends r)) :
    Departs d N U V (Exec.pass d.strict p >>= f) (Exec.pass d.ok p >>= g) r := by
  by_cases hstrict : d.strict p r = true
  · obtain ⟨hok, hl⟩ := Departure.strict_iff.1 hstrict
    have hrun : (Exec.pass d.ok p).run.run r = (.ok (), r) := by
      have h : Ensures (Exec.pass d.ok p) r (fun _ r' => r' = r) fun _ _ => False := by
        rw [Exec.pass, Ensures.bind_iff, Ensures.get_iff, if_pos hok]
        exact Ensures.pure_iff.mpr rfl
      obtain ⟨_, _, h, rfl⟩ := h.exists_run
      exact h
    refine (Exec.pass_bind_ok hstrict).mpr (Ensures.mono (hon hok hl) (fun a r' h => ?_) ?_)
    · exact ⟨(run_bind_of_ok hrun).trans h.1, h.2⟩
    · rintro (e | _) r' h
      · exact ⟨(run_bind_of_ok hrun).trans h.1, h.2⟩
      · exact fun hl => (h hl).imp_right (Exec.pass_bind_ok hok).mpr
  · exact (Exec.pass_bind_refused (Bool.eq_false_iff.mpr hstrict)).mpr hleft

-- A part that is looked at in front and behind. The jump is seen behind it first, since nothing that
-- has failed has made one.
theorem watch {P : α → Run → Prop} (hr : d.leaves r = false)
    (hx : d.ok p r = true → Departs d N T S x y r)
    (hy : d.ok p r = true → Ensures y r P Emptied)
    (hhere : ∀ a r', P a r' → d.Left r' → N ∧ (d.ok p r' = true → S' r' a r'))
    (hback : ∀ r₁ a r', d.Left r₁ → N → S r₁ a r' → r₁.Recedes r' ∧
      (d.level = none → r'.flow.kind = .exiting) ∧ (d.ok p r' = true → S' r₁ a r')) :
    Departs d N (fun _ => d.Stays) S' (Exec.watch d.strict p x) (Exec.watch d.ok p y) r := by
  have hstop : ∀ {r₁ r' : Run}, r₁.Recedes r' → (d.level = none → r'.flow.kind = .exiting) →
      d.ok p r' = false → d.Ends r₁ .outOfFuel r' := fun hrec hexit hno =>
    ⟨rfl, hrec, hexit, p, hno⟩
  refine pass_bind (fun hok _ => ?_) fun hl => ?_
  swap
  · cases hr.symm.trans hl.leaves
  refine (hx hok).attempt_bind_of (hy hok) (fun a r' _ hP => ?_) (fun e r' hs hres => ?_)
    fun r₁ a r' hl hn h => ?_
  · refine pass_bind (fun _ hleaves => .pure (Departure.stays_of_leaves hleaves)) fun hl => ?_
    obtain ⟨hn, hS⟩ := hhere a r' hP hl
    refine ⟨hn, ?_⟩
    rcases hok' : d.ok p r' with _ | _
    · exact (Exec.pass_bind_refused hok').mpr (hstop .refl hl.exiting hok')
    · exact (Exec.pass_bind_ok hok').mpr (hS hok')
  · refine pass_bind (fun _ _ => .same ⟨⟨_, rfl⟩, hs⟩) fun hl => ?_
    cases (hs.leaves_eq hres).symm.trans hl.leaves
  · obtain ⟨hrec, hexit, hS⟩ := hback r₁ a r' hl hn h
    rcases hok' : d.ok p r' with _ | _
    · exact (Exec.pass_bind_refused hok').mpr (hstop hrec hexit hok')
    · exact (Exec.pass_bind_ok hok').mpr (hS hok')

end Departs

namespace Departure

variable {v : Option VarId} {node : Node} {scope : ScopeId}

-- Behind an expression nothing but an `exit` has been made.
theorem Left.valued (hl : d.Left r') (hr : d.Ready r) (hv : r.Valued v r') :
    d.level = none ∧ (d.ok p r' = true → r'.Interrupts v r') := by
  have hnone : v = none := by
    rcases v with _ | x
    · rfl
    · cases (hv.ready hr).leaves_eq.symm.trans hl.leaves
  have hexit := hv.exit hnone
  have hlevel : d.level = none := by
    rcases hd : d.level with _ | n
    · rfl
    · cases (hl.level_eq n hd).2.symm.trans hexit
  exact ⟨hlevel, fun hok => ⟨hnone, hexit, .refl hv.upright.fine (hl.held hlevel hok)⟩⟩

theorem Left.executed (hl : d.Left r') (he : r.Executed r') :
    d.Here r ∧ (d.ok p r' = true → d.Out r' r') := by
  refine ⟨fun n hn => (hl.level_eq n hn).1.symm.trans he.depth, fun hok =>
    ⟨hl.kind_eq, .refl he.upright.fine ?_⟩⟩
  rcases hd : d.level with _ | n
  · exact hl.held hd hok
  · exact he.held (hl.level_eq n hd).2

theorem Left.called (hl : d.Left r') (hf : r'.Fine)
    (hkind : r'.flow.kind = .next ∨ r'.flow.kind = .exiting) :
    d.level = none ∧ (d.ok p r' = true → r'.flow.kind = d.settled ∧ r'.Unwinds r') := by
  have hexit := hkind.resolve_left hl.ne_next
  have hlevel : d.level = none := by
    rcases hd : d.level with _ | n
    · rfl
    · cases (hl.level_eq n hd).2.symm.trans hexit
  exact ⟨hlevel, fun hok => ⟨hexit.trans (settled_of_none hlevel).symm, .refl hf (hl.held hlevel hok)⟩⟩

end Departure

theorem CallPost.fine {D : Discipline} {A P : ScopeId → Prop} {K : VarId → Prop} {scope : ScopeId}
    (hp : CallPost D A K P scope r r') (hf : r.Fine) : r'.Fine :=
  ⟨hp.state.sound, by rw [hp.frame.depth, hp.frame.config]; exact hf.depth⟩

namespace Interpreter

open Exec

-- The body of a call, in the scope that has been opened for it.
theorem invoke_called {self : Interpreter} {f : Function} {args : Arguments} {caller n : ScopeId}
    {K : VarId → Prop} (hs : self.Sound .lenient) (fuel : Nat) (hf : f.Fit .lenient)
    (hargs : args.Fit .lenient K caller r) (ho : Opened n r r₁)
    (hlive : ∃ sc, r.scope? caller = some sc) (hu : r₁.deeper.Upright)
    (hflow : r₁.deeper.flow = .start) :
    Ensures (invoke self fuel f args caller n) r₁.deeper
      (fun _ r' => r'.Fine ∧ (r'.flow.kind = .next ∨ r'.flow.kind = .exiting)) Emptied := by
  have hheap := hu.fine.sound.heap
  have hne : caller ≠ n := by
    rintro rfl
    obtain ⟨sc, hsc⟩ := hlive
    cases ho.fresh.symm.trans hsc
  have hscope : r₁.deeper.scope? caller = r.scope? caller := ho.others caller hne
  have hargs₁ : args.Fit .lenient (r₁.deeper.heap.Temps nothing) caller r₁.deeper := by
    cases args with
    | nodes nodes => exact hargs
    | values ids =>
      intro x hx
      obtain ⟨-, sc, name, hsc, hin⟩ := hargs x hx
      exact ⟨hu.fine.apart_of_bound (hscope.trans hsc) hin _ (.temps hheap), sc, name,
        hscope.trans hsc, hin⟩
  have hown : ∀ x, r₁.deeper.heap.Temps nothing x → ¬r₁.deeper.heap.OwnedBy x (.scope n) :=
    fun x hx => by
      obtain ⟨y, hy, hb⟩ := hx.resolve_left id
      exact hheap.not_scope_of_below hy hb n
  obtain ⟨sc, hsc⟩ := ho.live
  exact (invoke_sound hs fuel hf (hu.state n) hflow trivial (hscope ▸ hlive) hne hargs₁
    ⟨sc, hsc, fun _ => False.elim⟩ hown).mono (fun _ _ hp => ⟨hp.fine hu.fine, hp.kind⟩)
      fun _ _ he => he.emptied

variable (d)

-- However the jump is nested, the run that goes on behind it only leaves what is around it.
theorem watched_parts (fuel : Nat) : Parts d (watched d.strict fuel) (watched d.ok fuel) := by
  have hloose : Discipline.lenient.Loose := fun _ => trivial
  induction fuel with
  | zero =>
    exact
      { sound := watched_sound hloose d.ok 0
        orderly := watched_orderly d.ok 0
        eval := fun hr => .outOfFuel (by rw [hr.flow]; rfl)
        exec := fun _ hr => .outOfFuel (by rw [hr.flow]; rfl)
        call := fun _ _ _ _ hflow _ => .outOfFuel (by rw [hflow]; rfl) }
  | succ fuel ih =>
    refine ⟨watched_sound hloose d.ok _, watched_orderly d.ok _, fun {r node scope} hr => ?_,
      fun {r node scope} hn hr => ?_, fun {r f args caller} hf hfit hargs hu hflow hlevel => ?_⟩
    · have hnode : Discipline.lenient.evaluable node := trivial
      have hsound := nodeBy_sound ih.sound (Handling.plain_fit hloose) hnode
        (hr.upright.state scope) hr.flow
      rw [nodeBy_plain] at hsound
      refine .watch (P := r.Valued) hr.leaves_eq (fun _ => evalNode_departs ih hr) (fun _ => ?_) ?_ ?_
      · exact ((evalNode_evaluated ih.orderly hr.upright.fine).and hsound).mono
          (fun _ _ h => hr.upright.valued h.1 h.2) fun _ _ he => he.2.emptied
      · exact fun v r' hv hl => hl.valued hr hv
      · rintro r₁ v r' hl hd ⟨hempty, hexit, hdrifts⟩
        exact ⟨hdrifts.recedes, fun _ => hexit, fun hok => ⟨hempty, hexit, hdrifts.unwinds fun hsome =>
          hl.kept hd hsome _ r' hok hexit⟩⟩
    · refine .watch (P := fun _ => r.Executed) hr.leaves_eq (fun _ => execNode_departs ih fuel hn hr)
        (fun hok => ?_) ?_ ?_
      · exact ((execNode_regular ih.orderly fuel hok r hr.upright.fine).and
          (execNode_sound ih.sound fuel hn (hr.upright.state scope) hr.flow)).mono
            (fun _ _ h => hr.upright.executed h.1 h.2) fun _ _ he => he.2.emptied
      · exact fun _ r' he hl => hl.executed he
      · rintro r₁ _ r' - - hout
        exact ⟨hout.unwinds.recedes, fun hd => hout.kind.trans (Departure.kind_of_none hd), fun _ => hout⟩
    · have hback : ∀ {p : Point} {N : Prop} (r₁ : Run) (u : Unit) (r' : Run), d.Left r₁ → N →
          r'.flow.kind = d.settled ∧ r₁.Unwinds r' → r₁.Recedes r' ∧
            (d.level = none → r'.flow.kind = .exiting) ∧
              (d.ok p r' = true → r'.flow.kind = d.settled ∧ r₁.Unwinds r') :=
        fun r₁ _ r' _ _ h =>
          ⟨h.2.recedes, fun hd => h.1.trans (Departure.settled_of_none hd), fun _ => h⟩
      have hstart : d.leaves r = false :=
        Departure.Stays.leaves_eq (.of_kind (k := .next) (by rw [hflow]; rfl) nofun) (by rw [hflow]; rfl)
      refine .watch (P := fun _ r' => r'.Fine ∧ (r'.flow.kind = .next ∨ r'.flow.kind = .exiting)) hstart
        (fun _ => enterCall_departs hu hflow hlevel (fun n r₁ ho hlive hr₁ => ?_) fun n r₁ ho hdeep => ?_)
        (fun _ => ?_) (fun _ r' hp hl => ?_) hback
      · refine .watch hr₁.leaves_eq (fun _ => invoke_departs ih hr₁ fuel hf (hargs.deeper ho))
          (fun _ => invoke_called ih.sound fuel hf hfit ho hlive hr₁.upright hr₁.flow)
          (fun _ r' hp hl => ?_) hback
        exact (hl.called hp.1 hp.2).imp_left .of_none
      · exact watch_halted hdeep (fun _ => invoke_moves ih.orderly fuel hdeep (hargs.deeper ho))
          (fun _ _ hm => hm.follows hdeep) fun _ hm => hm.follows hdeep
      · exact (watchedCall_sound ih.sound fuel hf hfit (hu.state caller) hflow).mono
          (fun _ _ hp => ⟨hp.fine hu.fine, hp.kind⟩) fun _ _ he => he.emptied
      · exact (hl.called hp.1 hp.2).imp_left fun hd n hn => by
          rw [hd] at hn
          cases hn

end Interpreter

end FinLang

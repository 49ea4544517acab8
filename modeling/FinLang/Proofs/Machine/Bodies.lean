import FinLang.Proofs.Machine.Regular

namespace FinLang

variable {α β : Type} {P : Permit} {ok : Point → Run → Bool} {n scope caller : ScopeId}
  {r r₀ r' : Run} {x : VarId} {name : String} {self : Interpreter} {nodes : List Node}

-- What a scope may bind that nothing is known of.
def Permit.any (scope : ScopeId) : Permit :=
  ⟨scope, fun _ => True, fun _ => True⟩

theorem Moves.any (hm : Moves P r r') : Moves (.any P.scope) r r' where
  fine := hm.fine
  config := hm.config
  depth := hm.depth
  others := hm.others
  own := by
    obtain ⟨vars, funcs, heq, -⟩ := hm.own
    exact ⟨vars, funcs, heq, fun _ _ => trivial, fun _ _ => trivial⟩
  guards := hm.guards
  links := hm.links

theorem Arguments.Bound.moves {args : Arguments} (ha : args.Bound r) (hm : Moves P r r') :
    args.Bound r' := by
  cases args with
  | nodes ns => trivial
  | values ids =>
    intro x hx
    obtain ⟨s, sc, name, hsc, hin⟩ := ha x hx
    obtain ⟨sc', hsc', hin'⟩ := hm.bound hsc hin
    exact ⟨s, sc', name, hsc', hin'⟩

theorem Arguments.Bound.deeper {args : Arguments} (ha : args.Bound r) (ho : Opened n r r') :
    args.Bound r'.deeper := by
  cases args with
  | nodes ns => trivial
  | values ids =>
    intro x hx
    obtain ⟨s, sc, name, hsc, hin⟩ := ha x hx
    refine ⟨s, sc, name, (ho.others s ?_).trans hsc, hin⟩
    rintro rfl
    cases ho.fresh.symm.trans hsc

theorem Moves.of_deeper (hm : Moves P r.deeper r') : Moves P r r'.higher := by
  have hdepth : r'.machine.depth = r.machine.depth + 1 := hm.depth
  refine ⟨⟨hm.fine.sound, ?_⟩, hm.config, ?_, hm.others, hm.own, hm.guards, hm.links⟩
  · exact Nat.le_trans (Nat.sub_le ..) hm.fine.depth
  · show r'.machine.depth - 1 = r.machine.depth
    omega

namespace Regular

theorem any {part : Exec α} (hp : Regular P part) : Regular (.any P.scope) part :=
  fun r hf => (hp r hf).mono (fun _ _ hm => hm.any) fun _ _ he => he.mono fun _ hm => hm.any

end Regular

namespace Library

open Exec

theorem argument_regular : Regular P (argument scope name) := by
  unfold argument
  refine .bind Regular.readScopes fun sc => ?_
  split
  · exact .pure
  · exact .fail

-- A scope that is looked up is there.
theorem lookup_moves {k : Scope → Exec α} (hf : r.Fine)
    (hk : ∀ sc, r.scope? scope = some sc →
      Ensures (k sc) r (fun _ r' => Moves P r r') (Halted (Moves P) r)) :
    Ensures (readScopes (·.lookup scope) >>= k) r (fun _ r' => Moves P r r')
      (Halted (Moves P) r) := by
  rw [Ensures.bind_iff]
  rcases hsc : r.scope? scope with _ | sc
  · have hstale : r.machine.store.scopes.lookup scope = .error (.of (.staleScope scope)) := by
      simp [Scopes.lookup, hsc]
    exact Ensures.bind_iff.mpr ((ofExcept_error hstale).mpr (Moves.refl hf))
  · exact (readScopes_lookup hsc).mpr (hk sc hsc)

-- The end of a native function.
theorem finish_moves {result : Option VarId} (hf : r₀.Fine) (h : Calm r₀ r)
    (hx : ∀ x ∈ result, r₀.Apart x) :
    Ensures (finish result) r (fun _ r' => Moves P r₀ r') (Halted (Moves P) r₀) := by
  rw [finish, Ensures.bind_iff, setKind_iff]
  exact (setResults_calm hf (h.withKind hf) hx).mono (fun _ _ hc => hc.moves) fun _ _ he => he

theorem finishWith_regular {p : Payload} (hp : p.elements = #[]) (hl : ∀ t, p ≠ .link t) :
    Regular P (finishWith p) := by
  intro r hf
  rw [finishWith, Ensures.bind_iff]
  refine (alloc_quiet hf hp hl).mono ?_ fun _ _ he => he
  rintro x r₁ ⟨hq, hx, -⟩
  exact finish_moves hf hq.calm fun y hy => Option.some.inj hy ▸ hx

theorem emit_regular {line : String} : Regular P (modifyMachine (·.emit line)) := by
  intro r hf
  refine Ensures.modify_iff.mpr (Calm.moves ?_)
  simp only
  generalize hm : r.machine.emit line = m
  have hstore : m.store = r.machine.store := hm ▸ Machine.store_emit
  have hdepth : m.depth = r.machine.depth := hm ▸ Machine.depth_emit
  have hconfig : m.config = r.machine.config := hm ▸ Machine.config_emit
  obtain ⟨config, store, root, depth, output, console⟩ := m
  cases hstore
  cases hdepth
  cases hconfig
  exact ⟨⟨hf.sound, hf.depth⟩, rfl, rfl, fun _ => rfl, fun _ _ hc => ⟨.refl, hc⟩, .refl⟩

theorem mapM_regular {f : VarId → Exec α} (h : ∀ x, Regular P (f x)) (ids : List VarId) :
    Regular P (ids.mapM f) := by
  induction ids with
  | nil => exact .pure
  | cons x rest ih =>
    rw [List.mapM_cons]
    exact (h x).bind fun _ => ih.bind fun _ => .pure

theorem print_regular : Regular P (print scope) :=
  .bind Regular.readScopes fun _ => (mapM_regular (fun _ => .readHeap) _).bind fun _ =>
    .bind emit_regular fun _ _ hf => finish_moves hf (.refl hf) nofun

theorem callingScope_regular : Regular P (callingScope scope) :=
  .bind Regular.readScopes fun _ => Regular.get.bind fun _ => .pure

theorem extArgCount_regular : Regular P (extArgCount scope) := by
  refine .bind callingScope_regular fun outer => ?_
  cases outer with
  | none => exact Regular.bind .pure fun _ => finishWith_regular rfl nofun
  | some s =>
    simp only
    exact .bind Regular.readScopes fun _ => Regular.bind .pure fun _ => finishWith_regular rfl nofun

-- The variable that is given back is bound in the calling scope.
theorem extArg_regular : Regular P (extArg scope) := by
  refine .bind argument_regular fun id => Regular.readHeap.bind fun number => ?_
  split
  · exact .fail
  refine .bind callingScope_regular fun outer => ?_
  cases outer with
  | none => exact .fail
  | some s =>
    intro r hf
    refine lookup_moves hf fun sc hsc => ?_
    split
    · rename_i var hvar
      refine finish_moves hf (.refl hf) fun y hy => Option.some.inj hy ▸ ?_
      exact hf.apart_of_bound hsc (mem_of_lookup hvar)
    · exact Moves.refl hf

-- What is handed on is bound in the scope of this very call.
theorem call_regular (hself : self.Orderly ok) : Regular P (call self scope) := by
  refine .bind argument_regular fun id => Regular.readHeap.bind fun name => ?_
  intro r hf
  rw [Ensures.bind_iff, Ensures.get_iff]
  split
  · exact Moves.refl hf
  rename_i f hfind
  refine lookup_moves hf fun sc hsc => ?_
  have hargs : (Arguments.values (extArgs sc)).Bound r := by
    intro x hx
    obtain ⟨name, hin⟩ := mem_extArgs hx
    exact ⟨scope, sc, name, hsc, hin⟩
  rw [Ensures.bind_iff]
  refine (Interpreter.freshCall_quiet hself hf hargs).mono ?_ fun _ _ he =>
    he.mono fun _ hc => hc.moves
  rintro ended r₁ ⟨hq, hx⟩
  split
  · rw [Ensures.bind_iff]
    refine (setResults_calm hf hq.calm hx).mono (fun _ r₂ hc => ?_) fun _ _ he => he
    exact setKind_iff.mpr (hc.withKind hf).moves
  · exact finish_moves hf hq.calm hx

theorem callDepth_regular : Regular P (callDepth scope) :=
  Regular.get.bind fun _ => finishWith_regular rfl nofun

theorem imageSide_regular : Regular P (imageSide scope name) := by
  refine .bind argument_regular fun id => Regular.readHeap.bind fun x => ?_
  split
  · split
    · exact .fail
    · exact .pure
  · exact .fail

theorem image_regular : Regular P (image scope) := by
  refine .bind imageSide_regular fun width => .bind imageSide_regular fun height => ?_
  split
  · exact Regular.fail.bind fun _ => finishWith_regular rfl nofun
  · exact finishWith_regular rfl nofun

theorem run_regular (hself : self.Orderly ok) (native : Native) :
    Regular P (run self scope native) := by
  cases native with
  | print => exact print_regular
  | len =>
    exact .bind argument_regular fun _ => Regular.readHeap.bind fun _ => finishWith_regular rfl nofun
  | typeOf =>
    exact .bind argument_regular fun _ => Regular.readHeap.bind fun _ => finishWith_regular rfl nofun
  | extArgCount => exact extArgCount_regular
  | extArg => exact extArg_regular
  | call => exact call_regular hself
  | callDepth => exact callDepth_regular
  | image => exact image_regular
  | math f =>
    exact .bind argument_regular fun _ => Regular.readHeap.bind fun _ => Regular.ofExcept.bind fun _ =>
      finishWith_regular rfl nofun
  | signal kind => exact .setKind

end Library

namespace Interpreter

open Exec

variable {params : List String} {i : Nat} {args : Arguments} {f : Function}

theorem bindNodes_regular (hself : self.Orderly ok) :
    Regular (.any n) (bindNodes self params caller n i nodes) := by
  induction nodes generalizing i with
  | nil => exact .pure
  | cons node rest ih =>
    unfold bindNodes declareIn
    refine .eval_bind hself .pure fun x => ?_
    exact Uses.declare_bind rfl trivial (ih (i := i + 1))

theorem bindMissing_regular (hP : P.scope = n) (hname : ∀ s, P.name s) (names : List String) :
    Regular P (bindMissing n names) := by
  unfold bindMissing
  induction names with
  | nil => exact .pure
  | cons name rest ih =>
    simp only [List.forM_eq_forM, List.forM_cons, bind_assoc] at ih ⊢
    exact .null_declare_bind hP (hname name) ih

theorem bindValues_moves (hP : P.scope = n) (hname : ∀ s, P.name s) (ids : List VarId) (hf : r.Fine)
    (hids : (Arguments.values ids).Bound r) :
    Ensures (bindValues params n i ids) r (fun _ r' => Moves P r r') (Halted (Moves P) r) := by
  induction ids generalizing r i with
  | nil => exact Moves.refl hf
  | cons value rest ih =>
    obtain ⟨s, sc, old, hsc, hin⟩ := hids value (List.mem_cons_self ..)
    unfold bindValues declareIn
    rw [← bind_assoc, Ensures.bind_iff]
    refine (link_declare_moves hf hP (hname _) hsc hin).mono ?_ fun _ _ he => he
    rintro _ r₁ hm
    have hrest : (Arguments.values rest).Bound r := fun x hx => hids x (List.mem_cons_of_mem _ hx)
    exact (ih hm.fine (hrest.moves hm)).mono (fun _ _ h => hm.trans hf h) fun _ _ he =>
      he.later (hm.follows hf) fun _ => hm.trans hf

theorem bindArguments_moves (hself : self.Orderly ok) (hf : r.Fine) (hargs : args.Bound r) :
    Ensures (bindArguments self params args caller n) r (fun _ r' => Moves (.any n) r r')
      (Halted (Moves (.any n)) r) := by
  unfold bindArguments
  cases args with
  | nodes nodes =>
    refine Regular.bind (P := .any n) (bindNodes_regular hself) (fun bound => ?_) r hf
    split
    · exact (bindMissing_regular (P := .any n) rfl (fun _ => trivial) _).bind fun _ => .pure
    · exact .pure
  | values ids =>
    refine Ensures.bind_iff.mpr ((bindValues_moves (P := .any n) rfl (fun _ => trivial) ids hf hargs).mono
      ?_ fun _ _ he => he)
    rintro _ r₁ hm
    have hmissing := bindMissing_regular (P := .any n) rfl fun _ => trivial
    exact ((hmissing _).bind fun _ => Regular.pure).later hf hm

theorem invoke_moves (hself : self.Orderly ok) (fuel : Nat) (hf : r.Fine) (hargs : args.Bound r) :
    Ensures (invoke self fuel f args caller n) r (fun _ r' => Moves (.any n) r r')
      (Halted (Moves (.any n)) r) := by
  rw [invoke, Ensures.bind_iff]
  refine (bindArguments_moves hself hf hargs).mono ?_ fun _ _ he => he
  rintro bound r₁ hm
  refine Regular.later (P := .any n) ?_ hf hm
  split
  · cases f.body with
    | native native => exact (Library.run_regular hself native).bind fun _ => .leaveBody
    | script block =>
      have hlist : Regular (.of ok n) (runList self fuel block.children n) :=
        runList_regular hself fuel
      exact hlist.any.bind fun _ => .leaveBody
  · exact .pure

theorem openCall_opened (hf : r.Fine) :
    Ensures (onStore do
      let scope ← Store.createChild caller f.name
      Store.setBelongsTo scope f
      return scope) r
      (fun n r' => Opened n r r') (fun e r' => (∃ f, e = .failure f) ∧ r' = r) := by
  rw [onStore_iff, Ensures.bind_iff]
  refine (onStore_iff.mp (createChild_opened hf)).mono ?_ fun _ _ he => he
  rintro n st' ⟨ho, -⟩
  obtain ⟨sc, hsc⟩ := ho.live
  rw [Ensures.bind_iff]
  refine (Store.setBelongsTo_ensures ho.fine.sound hsc).mono ?_ fun _ _ he => he
  rintro _ st'' ⟨hs, hheap, hsc', hothers⟩
  obtain ⟨heap, scopes⟩ := st''
  cases hheap
  exact ⟨⟨hs, hf.depth⟩, rfl, rfl, ho.fresh, ⟨_, hsc'⟩,
    fun s hne => (hothers s hne).trans (ho.others s hne), ho.guards, ho.links⟩

-- At the limit a call is refused, and the run stays as it is.
theorem enterCall_refused {body : ScopeId → Exec Unit}
    (hlimit : r.machine.config.maxCallDepth ≤ r.machine.depth) :
    (enterCall f caller body).run.run r =
      (.error (.failure (.of (.callDepth r.machine.config.maxCallDepth))), r) := by
  have hrefused : Ensures (enterCall f caller body) r (fun _ _ => False) fun e r' =>
      e = .failure (.of (.callDepth r.machine.config.maxCallDepth)) ∧ r' = r := by
    rw [enterCall, Ensures.bind_iff, Ensures.get_iff]
    simp only [hlimit, if_true]
    exact Ensures.bind_iff.mpr ⟨rfl, rfl⟩
  unfold Ensures at hrefused
  split at hrefused
  · exact hrefused.elim
  · obtain ⟨rfl, rfl⟩ := hrefused
    assumption

-- The body runs one level deeper, which the limit allows.
theorem enterCall_calm {body : ScopeId → Exec Unit} (hf : r.Fine)
    (hbody : ∀ n r₁, Opened n r r₁ → r₁.deeper.Fine →
      Ensures (body n) r₁.deeper (fun _ r' => Moves (.any n) r₁.deeper r')
        (Halted (Moves (.any n)) r₁.deeper)) :
    Ensures (enterCall f caller body) r (fun _ r' => Calm r r') (Halted Calm r) := by
  rw [enterCall, Ensures.bind_iff, Ensures.get_iff]
  simp only
  split
  · rw [Ensures.bind_iff]
    exact Calm.refl hf
  rename_i hlimit
  rw [Ensures.bind_iff]
  refine (openCall_opened hf).mono ?_ ?_
  swap
  · rintro _ _ ⟨⟨e, rfl⟩, rfl⟩
    exact Calm.refl hf
  rintro n r₁ ho
  have hdeep : r₁.deeper.Fine := by
    refine ⟨ho.fine.sound, ?_⟩
    show r₁.machine.depth + 1 ≤ r₁.machine.config.maxCallDepth
    rw [ho.config, ho.depth]
    omega
  rw [Ensures.bind_iff]
  refine Ensures.modify_iff.mpr ?_
  rw [Ensures.bind_iff, attempt_iff]
  have hleave : ∀ {r₂ : Run} {ended : Except Failure Unit}, Moves (.any n) r₁.deeper r₂ →
      Ensures (leaveScope n ended) r₂.higher (fun _ r' => Calm r r') (Halted Calm r) := fun hm =>
    leaveScope_calm (ho.moves hf hm.of_deeper rfl) hf
  refine (hbody n r₁ ho hdeep).mono ?_ ?_
  · rintro _ r₂ hm
    exact Ensures.bind_iff.mpr (Ensures.modify_iff.mpr (hleave hm))
  · rintro (e | _) r₂ hm
    · exact Ensures.bind_iff.mpr (Ensures.modify_iff.mpr (hleave hm))
    · obtain ⟨hfine, hconfig, hanchored⟩ := hm
      exact (ho.follows hf).trans ⟨hfine, hconfig, hanchored⟩

end Interpreter

namespace Exec

-- To look at a run does not change it.
theorem watch_halted {R : Run → Run → Prop} {Q : α → Run → Prop} {p : Point} {part : Exec α}
    (hf : r.Fine)
    (hpart : ok p r = true → Ensures part r Q (Halted R r))
    (hq : ∀ a r', Q a r' → r.Follows r') (hr : ∀ r', R r r' → r.Follows r') :
    Ensures (watch ok p part) r Q (Halted R r) := by
  have hpass : ∀ {r' : Run} {k : Exec α}, r.Follows r' → (ok p r' = true → Ensures k r' Q (Halted R r)) →
      Ensures (pass ok p >>= fun _ => k) r' Q (Halted R r) := by
    intro r' k hr' hk
    rw [Ensures.bind_iff, pass, Ensures.bind_iff, Ensures.get_iff]
    split
    · exact hk ‹_›
    · exact hr'
  refine hpass (.refl hf) fun hok => ?_
  rw [Ensures.bind_iff, attempt_iff]
  refine (hpart hok).mono ?_ ?_
  · rintro a r' h
    exact hpass (hq a r' h) fun _ => h
  · rintro (e | _) r' h
    · exact hpass (hr r' h) fun _ => h
    · exact h

end Exec

namespace Interpreter

open Exec

-- An interpreter keeps order whatever its fuel and wherever it is stopped.
theorem watched_orderly (ok : Point → Run → Bool) (fuel : Nat) : (watched ok fuel).Orderly ok := by
  induction fuel with
  | zero => exact ⟨fun hf => .refl hf, fun hf => .refl hf, fun hf _ => .refl hf⟩
  | succ n ih =>
    have hcalm : ∀ {r r' : Run}, r.Fine → Calm r r' → r.Follows r' := fun hf hc => hc.follows hf
    have hmoves : ∀ {P : Permit} {r r' : Run}, r.Fine → Moves P r r' → r.Follows r' := fun hf hm =>
      hm.follows hf
    refine ⟨fun {r node scope} hf => ?_, fun {r node scope} hf => ?_,
      fun {r f args caller} hf hargs => ?_⟩
    · refine watch_halted hf (fun _ => evalNode_evaluated ih hf) (fun v r' hv => ?_)
        fun _ => hcalm hf
      cases v with
      | some x => exact hcalm hf hv.1.calm
      | none => exact hcalm hf hv
    · exact watch_halted hf (fun hok => execNode_regular ih n hok r hf) (fun _ _ => hmoves hf)
        fun _ => hmoves hf
    · refine watch_halted hf (fun _ => enterCall_calm hf fun s r₁ ho hdeep => ?_)
        (fun _ _ => hcalm hf) fun _ => hcalm hf
      exact watch_halted hdeep (fun _ => invoke_moves ih n hdeep (hargs.deeper ho))
        (fun _ _ => hmoves hdeep) fun _ => hmoves hdeep

end Interpreter

end FinLang

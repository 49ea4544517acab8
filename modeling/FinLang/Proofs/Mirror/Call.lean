import FinLang.Proofs.Mirror.Statement

namespace FinLang

open Exec
open Run (Twins)

variable {α β γ δ : Type} {ρ : Renaming} {m m' : Machine} {r r' : Run} {scope : ScopeId}
  {self : Interpreter} {i : γ → δ} {name : String}

-- A scope that is looked up is there.
theorem Exec.lookup_agrees {k : Scope → Exec γ} {k' : Scope → Exec δ} (hr : r.Twins ρ m m' r')
    (hk : ∀ sc, r.scope? scope = some sc → Agrees ρ m m' i (k sc) (k' (sc.rename ρ)) r r') :
    Agrees ρ m m' i (readScopes (·.lookup scope) >>= k) (readScopes (·.lookup (ρ scope)) >>= k') r r' := by
  have hread : Agree (readScopes (·.lookup scope)) (readScopes (·.lookup (ρ scope))) r r'
      (fun sc sc' s s' => sc' = sc.rename ρ ∧ r.scope? scope = some sc ∧ r = s ∧ r' = s')
      (Run.Failed ρ m m') := by
    refine Agree.get_bind_iff.mpr ?_
    simp only [Scopes.lookup, hr.store.scopes.get?]
    cases hsc : r.machine.store.scopes.arena.get? scope with
    | some sc => exact ⟨rfl, hsc, rfl, rfl⟩
    | none => exact ⟨⟨rfl, rfl⟩, hr⟩
  refine hread.bind ?_
  rintro sc _ _ _ ⟨rfl, hsc, rfl, rfl⟩
  exact hk sc hsc

namespace Library

theorem extArgs_rename (sc : Scope) : extArgs (sc.rename ρ) = (extArgs sc).map ρ.handle := by
  have hfrom : ∀ n index, extArgsFrom (sc.rename ρ) index n = (extArgsFrom sc index n).map ρ.handle := by
    intro n
    induction n with
    | zero => exact fun _ => rfl
    | succ n ih =>
      intro index
      rw [extArgsFrom, extArgsFrom, sc.varNamed?_rename]
      cases sc.varNamed? (Function.extArgName index) with
      | none => rfl
      | some id => simp [ih]
  unfold extArgs
  rw [hfrom]
  simp [Scope.rename]

theorem argument_follows : Parallel ρ m m' ρ.handle (argument scope name) (argument (ρ scope) name) := by
  refine lookup_follows.bind fun sc => ?_
  rw [sc.varNamed?_rename]
  cases sc.varNamed? name with
  | some id => exact .pure rfl
  | none => exact fail_follows rfl

theorem finish_follows (result : Option VarId) :
    Parallel ρ m m' id (finish result) (finish (result.map ρ.handle)) :=
  (setKind_follows .next).bind fun _ => setResults_follows result

theorem finishWith_follows {p : Payload} (hp : p.elements = #[]) (hl : ∀ t, p ≠ .link t) :
    Parallel ρ m m' id (finishWith p) (finishWith p) :=
  (alloc_follows hp hl).bind fun x => finish_follows (some x)

theorem callingScope_follows :
    Parallel ρ m m' (Option.map ρ.handle) (callingScope scope) (callingScope (ρ scope)) := by
  refine lookup_follows.bind fun sc => get_bind_follows fun {r r'} hr => ⟨?_, hr⟩
  simp only [Scope.rename]
  cases sc.parent with
  | none => rfl
  | some p => exact Scopes.enclosingCall_mirrors hr.nested hr.store.scopes

-- The same line goes to the same place.
theorem emit_follows (line : String) :
    Parallel ρ m m' id (modifyMachine (·.emit line)) (modifyMachine (·.emit line)) := by
  intro r r' hr
  refine Agree.modify_iff.mpr ⟨rfl, ?_⟩
  obtain ⟨output, console, ⟨ho, hc⟩, ho', hc'⟩ := hr.printed
  have hconfig := hr.config
  by_cases hecho : r.machine.config.echo = true
  · have hline : ∀ {n : Machine}, n.config.echo = true →
        n.emit line = { n with console := n.console.push line } := fun he => if_pos he
    dsimp only
    rw [hline hecho, hline (hconfig ▸ hecho)]
    refine ⟨⟨hr.store, hr.root, hconfig, hr.depth, hr.flow, hr.last, output, console.push line, ⟨ho, ?_⟩,
      ho', ?_⟩, ⟨hr.fine.sound, hr.fine.depth⟩, ⟨hr.fine'.sound, hr.fine'.depth⟩, hr.nested⟩
    · simp [hc]
    · simp [hc']
  · have hline : ∀ {n : Machine}, ¬n.config.echo = true →
        n.emit line = { n with output := n.output.push line } := fun he => if_neg he
    dsimp only
    rw [hline hecho, hline (hconfig ▸ hecho)]
    refine ⟨⟨hr.store, hr.root, hconfig, hr.depth, hr.flow, hr.last, output.push line, console, ⟨?_, hc⟩,
      ?_, hc'⟩, ⟨hr.fine.sound, hr.fine.depth⟩, ⟨hr.fine'.sound, hr.fine'.depth⟩, hr.nested⟩
    · simp [ho]
    · simp [ho']

theorem print_follows : Parallel ρ m m' id (print scope) (print (ρ scope)) := by
  refine lookup_follows.bind fun sc => ?_
  rw [extArgs_rename]
  have hvalues (ids : List VarId) : Parallel ρ m m' (List.map id)
      (ids.mapM fun x => readHeap (·.toValue x))
      ((ids.map ρ.handle).mapM fun x => readHeap (·.toValue x)) := by
    refine .mapM (fun x => ?_) ids
    exact readHeap_follows fun hs hs' hm => hm.toValue hs hs'
  refine (hvalues (extArgs sc)).bind fun values => ?_
  rw [List.map_id]
  exact (emit_follows _).bind fun _ => finish_follows none

theorem extArgCount_follows : Parallel ρ m m' id (extArgCount scope) (extArgCount (ρ scope)) := by
  refine .bind callingScope_follows fun outer => ?_
  have hcount (n : Nat) : Parallel ρ m m' id (finishWith (.numeric (Float.ofNat n)))
      (finishWith (.numeric (Float.ofNat n))) := finishWith_follows rfl nofun
  cases outer with
  | none => exact .bind (g := id) (.pure rfl) hcount
  | some s =>
    refine lookup_follows.bind fun sc => ?_
    rw [extArgs_rename, List.length_map]
    exact .bind (g := id) (.pure rfl) hcount

theorem extArg_follows : Parallel ρ m m' id (extArg scope) (extArg (ρ scope)) := by
  refine .bind argument_follows fun x => .bind (readHeap_follows fun _ _ hm => hm.numeric) fun number => ?_
  rw [id_eq]
  split
  · exact fail_follows rfl
  refine .bind callingScope_follows fun outer => ?_
  cases outer with
  | none => exact fail_follows rfl
  | some s =>
    refine lookup_follows.bind fun sc => ?_
    rw [sc.varNamed?_rename]
    cases sc.varNamed? _ with
    | some var => exact finish_follows (some var)
    | none => exact fail_follows rfl

-- What is handed on is bound in the scope of this very call.
theorem call_follows (hself : self.Blind ρ m m') :
    Parallel ρ m m' id (call self scope) (call self (ρ scope)) := by
  refine .bind argument_follows fun x => .bind (readHeap_follows fun _ _ hm => hm.string) fun name => ?_
  refine get_bind_follows fun {r r'} hr => ?_
  rw [id_eq, Scopes.findFunction_mirrors hr.nested hr.store.scopes]
  rcases r.machine.store.scopes.findFunction scope _ with _ | f
  · exact fail_follows rfl r r' hr
  refine lookup_agrees hr fun sc hsc => ?_
  rw [extArgs_rename]
  have hargs : (Arguments.values (extArgs sc)).Bound r := by
    intro x hx
    obtain ⟨name, hin⟩ := mem_extArgs hx
    exact ⟨scope, sc, name, hsc, hin⟩
  refine (Interpreter.freshCall_agrees hself hr hargs).next fun ended => .ite .rfl (fun _ => ?_) fun _ => ?_
  · exact (setResults_follows ended.result).bind fun _ => setKind_follows .exiting
  · exact finish_follows ended.result

theorem callDepth_follows : Parallel ρ m m' id (callDepth scope) (callDepth (ρ scope)) := by
  refine get_bind_follows fun {r r'} hr => ?_
  simp only
  rw [Scopes.callStack_mirrors hr.nested hr.store.scopes]
  exact finishWith_follows (p := .numeric _) rfl nofun r r' hr

theorem imageSide_follows : Parallel ρ m m' id (imageSide scope name) (imageSide (ρ scope) name) := by
  refine .bind argument_follows fun x => .bind (readHeap_follows fun _ _ hm => hm.numeric) fun number => ?_
  rw [id_eq]
  split
  · exact .ite .rfl (fun _ => fail_follows rfl) fun _ => .pure rfl
  · exact fail_follows rfl

theorem image_follows : Parallel ρ m m' id (image scope) (image (ρ scope)) :=
  .bind imageSide_follows fun _ => .bind imageSide_follows fun _ =>
    .ite .rfl (fun _ => .bind (g := id) (fail_follows rfl) fun _ => finishWith_follows rfl nofun) fun _ =>
      finishWith_follows rfl nofun

theorem lengthOf_alike (p : Payload) : Alike id (lengthOf p) (lengthOf (p.rename ρ)) := by
  cases p with
  | array items => simp [lengthOf, Payload.rename, Alike]
  | _ => first | rfl | exact ⟨rfl, rfl⟩

theorem run_follows (hself : self.Blind ρ m m') (native : Native) :
    Parallel ρ m m' id (run self scope native) (run self (ρ scope) native) := by
  cases native with
  | print => exact print_follows
  | len =>
    exact .bind argument_follows fun _ =>
      .bind (readHeap_follows fun _ _ hm => hm.payload.bind lengthOf_alike) fun _ =>
        finishWith_follows rfl nofun
  | typeOf =>
    exact .bind argument_follows fun _ => .bind (readHeap_follows fun _ _ hm => hm.varType) fun _ =>
      finishWith_follows rfl nofun
  | extArgCount => exact extArgCount_follows
  | extArg => exact extArg_follows
  | call => exact call_follows hself
  | callDepth => exact callDepth_follows
  | image => exact image_follows
  | math f =>
    exact .bind argument_follows fun _ => .bind (readHeap_follows fun _ _ hm => hm.numeric) fun x =>
      .bind (g := id) (ofExcept_follows (.refl (f.apply x))) fun _ => finishWith_follows rfl nofun
  | signal kind => exact setKind_follows kind

end Library

namespace Interpreter

variable {params : List String} {n caller : ScopeId} {index : Nat} {args : Arguments} {f : Function}

theorem bindNodes_follows (hself : self.Blind ρ m m') (nodes : List Node) (index : Nat) :
    Parallel ρ m m' id (bindNodes self params caller n index nodes)
      (bindNodes self params (ρ caller) (ρ n) index nodes) := by
  induction nodes generalizing index with
  | nil => exact .pure rfl
  | cons node rest ih =>
    unfold bindNodes declareIn
    refine (hself.eval node caller).bind fun value => ?_
    cases value with
    | none => exact .pure rfl
    | some x => exact own_declare_follows (ih (index + 1))

theorem bindMissing_follows (names : List String) :
    Parallel ρ m m' id (bindMissing n names) (bindMissing (ρ n) names) := by
  unfold bindMissing declareIn
  induction names with
  | nil => exact .pure rfl
  | cons name rest ih =>
    simp only [List.forM_eq_forM, List.forM_cons, bind_assoc] at ih ⊢
    exact null_declare_follows ih

-- The variables are bound in some scope, and stay so.
theorem bindValues_agrees (ids : List VarId) (hr : r.Twins ρ m m' r')
    (hids : (Arguments.values ids).Bound r) :
    Agrees ρ m m' id (bindValues params n index ids) (bindValues params (ρ n) index (ids.map ρ.handle))
      r r' := by
  induction ids generalizing r r' index with
  | nil => exact ⟨rfl, hr⟩
  | cons value rest ih =>
    obtain ⟨s, sc, old, hsc, hin⟩ := hids value (List.mem_cons_self ..)
    have hrest : (Arguments.values rest).Bound r := fun x hx => hids x (List.mem_cons_of_mem _ hx)
    rw [List.map_cons]
    unfold bindValues declareIn
    rw [← bind_assoc, ← bind_assoc]
    refine Agree.bind (((link_declare_agrees hr hsc hin).left
      (link_declare_moves (P := .any n) hr.fine rfl trivial hsc hin)).mono (fun _ _ _ _ h => h)
      fun _ _ _ _ h => h.1) ?_
    rintro _ _ s s' ⟨⟨-, hs⟩, hm⟩
    exact ih hs (hrest.moves hm)

theorem bindArguments_agrees (hself : self.Blind ρ m m') (hr : r.Twins ρ m m' r')
    (hargs : args.Bound r) :
    Agrees ρ m m' id (bindArguments self params args caller n)
      (bindArguments self params (args.rename ρ) (ρ caller) (ρ n)) r r' := by
  cases args with
  | nodes nodes =>
    refine (bindNodes_follows hself nodes 0).bind (fun bound => ?_) r r' hr
    exact .ite .rfl (fun _ => (bindMissing_follows _).bind fun _ => .pure rfl) fun _ => .pure rfl
  | values ids =>
    refine (bindValues_agrees ids hr hargs).next fun _ => ?_
    rw [List.length_map]
    exact (bindMissing_follows _).bind fun _ => .pure rfl

theorem invoke_agrees (hself : self.Blind ρ m m') (fuel : Nat) (hr : r.Twins ρ m m' r')
    (hargs : args.Bound r) :
    Agrees ρ m m' id (invoke self fuel f args caller n)
      (invoke self fuel f (args.rename ρ) (ρ caller) (ρ n)) r r' := by
  refine (bindArguments_agrees hself hr hargs).next fun bound => .ite .rfl (fun _ => ?_) fun _ => .pure rfl
  cases f.body with
  | native native => exact (Library.run_follows hself native).bind fun _ => leaveBody_follows
  | script block => exact (runList_follows hself fuel block.children).bind fun _ => leaveBody_follows

-- The body runs one level deeper on both sides.
theorem callFunction_agrees (hself : self.Blind ρ m m') (fuel : Nat) (hr : r.Twins ρ m m' r')
    (hargs : args.Bound r) :
    Agrees ρ m m' id (callFunction self fuel f args caller)
      (callFunction self fuel f (args.rename ρ) (ρ caller)) r r' := by
  refine Agree.get_bind_iff.mpr (.ite (by rw [hr.config, hr.depth]) (fun _ => ?_) fun hlimit => ?_)
  · exact ⟨⟨rfl, rfl⟩, hr⟩
  refine Agree.bind (openCall_agrees hr) ?_
  rintro s _ r₁ r₁' ⟨rfl, hr₁, ho⟩
  have hdeep : r₁.machine.depth + 1 ≤ r₁.machine.config.maxCallDepth := by
    rw [ho.config, ho.depth]
    omega
  have hd : r₁.deeper.Twins ρ m m' r₁'.deeper := by
    refine hr₁.deeper ⟨hr₁.fine.sound, hdeep⟩ ⟨hr₁.fine'.sound, ?_⟩
    show r₁'.machine.depth + 1 ≤ r₁'.machine.config.maxCallDepth
    rwa [hr₁.config, hr₁.depth]
  refine Agree.bind (R := fun _ _ t t' => r₁.deeper = t ∧ r₁'.deeper = t') (Agree.modify_iff.mpr ⟨rfl, rfl⟩) ?_
  rintro _ _ _ _ ⟨rfl, rfl⟩
  refine Agree.bind ((attempt_agree ((invoke_agrees hself fuel hd (hargs.deeper ho)).left
    (invoke_moves hself.orderly fuel hd.fine (hargs.deeper ho))) fun he => he.1.1).mono
    (fun _ _ _ _ h => h) fun _ _ _ _ h => h.1) ?_
  have hleave : ∀ {r₂ r₂' : Run} {ended ended' : Except Failure Unit}, Twins ρ m m' r₂ r₂' →
      Moves (.any s) r₁.deeper r₂ → Alike id ended ended' →
      Agrees ρ m m' id
        (do
          modifyMachine fun m => { m with depth := m.depth - 1 }
          leaveScope s ended)
        (do
          modifyMachine fun m => { m with depth := m.depth - 1 }
          leaveScope (ρ s) ended') r₂ r₂' := by
    intro r₂ r₂' ended ended' hr₂ hm hended
    refine Agree.bind (R := fun _ _ t t' => r₂.higher = t ∧ r₂'.higher = t')
      (Agree.modify_iff.mpr ⟨rfl, rfl⟩) ?_
    rintro _ _ _ _ ⟨rfl, rfl⟩
    exact leaveScope_agrees (ho.moves hr.fine hm.of_deeper rfl) hr.fine hr.nested hr₂.higher hended
  rintro (f | _) (f' | _) r₂ r₂' hq
  · exact hleave hq.1.2 hq.2 hq.1.1
  · exact hq.elim
  · exact hq.elim
  · exact hleave hq.1.2 hq.2 rfl

theorem ofFuel_blind (fuel : Nat) : (ofFuel fuel).Blind ρ m m' := by
  induction fuel with
  | zero =>
    exact ⟨watched_all 0 ▸ watched_orderly _ 0, fun _ _ => outOfFuel_follows, fun _ _ => outOfFuel_follows,
      fun hr _ => outOfFuel_follows _ _ hr⟩
  | succ n ih =>
    exact ⟨watched_all (n + 1) ▸ watched_orderly _ (n + 1), fun _ _ => evalNode_follows ih,
      fun _ _ => execNode_follows ih n, fun hr hargs => callFunction_agrees ih n hr hargs⟩

end Interpreter

end FinLang

import FinLang.Proofs.Machine.Entry
import FinLang.Proofs.Mirror.Host

namespace FinLang

open Heap (Keeps)

namespace Function

variable {params : List String} {i j k : Nat}

theorem extArgName_inj : extArgName i = extArgName j ↔ i = j := by
  refine ⟨fun h => ?_, fun h => by rw [h]⟩
  have htext : ("__ext_arg_" ++ i.repr).toList = ("__ext_arg_" ++ j.repr).toList := congrArg _ h
  rw [String.toList_append, String.toList_append] at htext
  have hdigits : Nat.toDigits 10 i = Nat.toDigits 10 j := by
    simpa [Nat.repr] using List.append_cancel_left htext
  rw [← Nat.ofDigitChars_toDigits (b := 10) (n := i) (by omega) (by omega), hdigits,
    Nat.ofDigitChars_toDigits (by omega) (by omega)]

-- The names of the arguments beyond the parameters, as far as there are any.
theorem extArgName_mem_boundNames (hparams : ∀ i, extArgName i ∉ params) :
    extArgName j ∈ boundNames params k ↔ j < k - params.length := by
  simp [boundNames, hparams, extArgName_inj]

theorem getElem?_boundNames (hj : j < k - params.length) :
    (boundNames params k)[params.length + j]? = some (extArgName j) := by
  simp [boundNames, hj]

end Function

namespace Scope

variable {sc : Scope} {name : String} {x : VarId} {index count last : Nat}

theorem isSome_varNamed?_iff : (sc.varNamed? name).isSome ↔ name ∈ sc.vars.map Prod.fst := by
  constructor
  · intro h
    obtain ⟨x, hx⟩ := Option.isSome_iff_exists.mp h
    exact List.mem_map_of_mem (mem_of_lookup hx)
  · intro h
    obtain ⟨⟨_, x⟩, hin, rfl⟩ := List.mem_map.mp h
    exact Option.isSome_iff_exists.mpr (mem_lookup_of_mem hin)

-- Where no name occurs twice, it stands for what it is listed with.
theorem varNamed?_of_mem (hnd : (sc.vars.map Prod.fst).Nodup) (hin : (name, x) ∈ sc.vars) :
    sc.varNamed? name = some x := by
  obtain ⟨before, after, hvars⟩ := List.append_of_mem hin
  rw [hvars, List.map_append, List.nodup_append] at hnd
  refine List.lookup_eq_some_iff.mpr ⟨before, after, hvars, fun b hb => ?_⟩
  exact bne_iff_ne.mpr (Ne.symm (hnd.2.2 b.1 (List.mem_map_of_mem hb) name (by simp)))

end Scope

namespace Library

variable {sc : Scope} {index count last : Nat}

-- The walk along the arguments beyond the parameters ends in front of the first that is missing.
theorem length_extArgsFrom (hle : index ≤ last) (hcount : last ≤ index + count)
    (hbound : ∀ j, index ≤ j → j < last → (sc.varNamed? (Function.extArgName j)).isSome)
    (hlast : sc.varNamed? (Function.extArgName last) = none) :
    (extArgsFrom sc index count).length = last - index := by
  induction count generalizing index with
  | zero =>
    simp only [extArgsFrom, List.length_nil]
    omega
  | succ count ih =>
    unfold extArgsFrom
    by_cases heq : index = last
    · subst heq
      simp [hlast]
    · obtain ⟨x, hx⟩ := Option.isSome_iff_exists.mp (hbound index (Nat.le_refl _) (by omega))
      rw [hx, List.length_cons, ih (by omega) (by omega) fun j hj => hbound j (by omega)]
      omega

end Library

namespace Run

-- A part that ends well, with a value on its way.
def Yields (r : Run) (part : Exec Unit) (value : Value) : Prop :=
  ∃ x r', part.run.run r = (.ok (), r') ∧ r'.flow = ⟨.next, some x⟩ ∧ r'.heap.toValue x = .ok value

-- The body of a call has ended, with a value on its way that does not belong to the call.
structure Returning (r : Run) (n : ScopeId) (value : Value) (x : VarId) : Prop where
  sound : r.store.Sound []
  live : ∃ sc, r.scope? n = some sc
  flow : r.flow = ⟨.next, some x⟩
  holds : r.heap.Holds x value
  away : r.heap.Detached x ∨ ∃ s, s ≠ n ∧ r.heap.OwnedBy x (.scope s)

end Run

variable {value : Value} {n m : ScopeId} {r r' : Run} {x : VarId} {K : VarId → Prop}
  {E : Halt → Run → Prop}

namespace Run.Returning

theorem outlives (hr : r.Returning n value x) : ∀ root, r.heap.OwnedBy root (.scope n) →
    ∀ y, r.heap.Below x y → ¬r.heap.Below root y := by
  rintro root ⟨w, hw, howner⟩ y hy hb
  have hforest := hr.sound.heap.forest
  have hrootw := hforest.root_of_owner hw (by simp [howner])
  rcases hr.away with ⟨v, hv, ho⟩ | ⟨s, hs, v, hv, ho⟩
  · cases hforest.root_unique hrootw (hforest.root_of_owner hv (by simp [ho])) hb hy
    cases hv.symm.trans hw
    cases ho.symm.trans howner
  · cases hforest.root_unique hrootw (hforest.root_of_owner hv (by simp [ho])) hb hy
    cases hv.symm.trans hw
    cases ho.symm.trans howner
    exact hs rfl

-- It is not touched when the scope is left.
theorem leave (hr : r.Returning n value x) :
    Ensures (Exec.leaveScope n (.ok ())) r
      (fun _ r' => r'.flow = ⟨.next, some x⟩ ∧ r'.heap.toValue x = .ok value) E := by
  obtain ⟨v, hv, hshow⟩ := hr.holds
  have hno := hshow.no_link
  obtain ⟨o, ho, hne⟩ : ∃ o, r.heap.owningScope x = .ok o ∧ o ≠ some n := by
    obtain ⟨hdetached, hscope⟩ := Heap.owningScope_of_owner hv
    rcases hr.away with ⟨w, hw, how⟩ | ⟨s, hs, w, hw, how⟩ <;> cases hv.symm.trans hw
    · exact ⟨none, hdetached how, nofun⟩
    · exact ⟨some s, hscope s how, fun he => hs (Option.some.inj he)⟩
  obtain ⟨sc, hsc⟩ := hr.live
  unfold Exec.leaveScope
  simp only
  rw [Ensures.bind_iff, Exec.attempt_iff, Exec.rescueResult, Ensures.bind_iff, Exec.flow_iff, hr.flow]
  rw [Ensures.bind_iff, Exec.readHeap_ok (Heap.resolve_eq_self hv hno), Ensures.bind_iff,
    Exec.readHeap_ok ho, if_neg hne, if_neg (by simp)]
  refine Ensures.pure_iff.mpr ?_
  simp only
  rw [Ensures.bind_iff, Exec.attempt_iff, Exec.onStore_iff]
  refine (Store.destroy_ensures hr.sound hsc).mono ?_ fun _ _ he => he
  rintro _ st hd
  obtain ⟨G, hfreed, hG⟩ := hd.freed
  refine ⟨hr.flow, hd.sound.heap.toValue_of_holds (hr.holds.preserve ?_)⟩
  refine hfreed.preserved hr.sound.heap.forest hv hno fun y hy hg => ?_
  obtain ⟨root, hown, hb⟩ := hG y hg
  exact hr.outlives root hown y hy hb

end Run.Returning

namespace Interpreter

open Exec

theorem closeCall_yields {body : Exec Unit}
    (h : Ensures body r (fun _ r' => ∃ x, r'.Returning n value x) fun _ _ => False) :
    r.Yields (closeCall n body) value := by
  have hclose : Ensures (closeCall n body) r
      (fun _ r' => ∃ x, r'.flow = ⟨.next, some x⟩ ∧ r'.heap.toValue x = .ok value)
      fun _ _ => False := by
    rw [closeCall, Ensures.bind_iff, attempt_iff]
    refine h.mono ?_ fun _ _ => False.elim
    rintro _ r₁ ⟨x, hr⟩
    have hr' : r₁.higher.Returning n value x := ⟨hr.sound, hr.live, hr.flow, hr.holds, hr.away⟩
    refine Ensures.bind_iff.mpr (Ensures.modify_iff.mpr ?_)
    exact hr'.leave.mono (fun _ _ hq => ⟨x, hq⟩) fun _ _ he => he
  obtain ⟨_, r', hrun, x, hflow, hvalue⟩ := hclose.exists_run
  exact ⟨x, r', hrun, hflow, hvalue⟩

theorem callFunction_yields {self : Interpreter} {fuel : Nat} {g : Function} {args : Arguments}
    (hs : r.store.Sound []) (hlive : ∃ sc, r.scope? n = some sc)
    (hdepth : r.machine.depth < r.machine.config.maxCallDepth)
    (h : ∀ m sc r₁, r.Opens g n m sc r₁ → Ensures (invoke self fuel g args n m) r₁
      (fun _ r' => ∃ x, r'.Returning m value x) fun _ _ => False) :
    r.Yields (callFunction self fuel g args n) value := by
  obtain ⟨m, r₁, hopen, sc, ho⟩ := (openCall_opens (f := g) hs hlive).exists_run
  obtain ⟨x, r', hclose, hend⟩ := closeCall_yields (h m sc r₁ ho)
  refine ⟨x, r', ?_, hend⟩
  exact (enterCall_run hdepth).trans ((run_bind_of_ok hopen).trans hclose)

end Interpreter

namespace Library

open Exec

section

variable (hs : r.store.Sound []) (hlive : ∃ sc, r.scope? m = some sc) (hflow : r.flow = .start)
include hs hlive hflow

theorem finish_returning (hx : r.heap.Holds x value)
    (haway : r.heap.Detached x ∨ ∃ s, s ≠ m ∧ r.heap.OwnedBy x (.scope s)) :
    Ensures (finish (some x)) r
      (fun _ r' => Ensures leaveBody r' (fun _ r'' => ∃ x, r''.Returning m value x) E) E := by
  rw [finish, Ensures.bind_iff, setKind_iff, hflow]
  refine (setResult_start rfl).mpr ((leaveBody_iff (.inl rfl)).mpr ?_)
  exact ⟨x, hs, hlive, rfl, hx, haway⟩

theorem finishWith_returning {p : Payload} (hp : p.elements = #[]) (hl : ∀ t, p ≠ .link t)
    (hshow : ∀ h : Heap, h.Shows p value) :
    Ensures (finishWith p) r
      (fun _ r' => Ensures leaveBody r' (fun _ r'' => ∃ x, r''.Returning m value x) E) E := by
  rw [finishWith, Ensures.bind_iff]
  refine (alloc_fresh (K := fun _ => False) hs (fun _ => False.elim) hp hl).mono ?_ fun _ _ he => he
  rintro x _ ⟨h, rfl, ht, hrecord⟩
  exact finish_returning (hs.step ht.step) hlive hflow ⟨_, hrecord, hshow h⟩ (.inl ht.detached)

end

-- The nearest call around the scope of a call is the one that it was made from.
theorem callingScope_iff {Q : Option ScopeId → Run → Prop} {scm scn : Scope} {f : Function}
    (hm : r.scope? m = some scm) (hp : scm.parent = some n) (hn : r.scope? n = some scn)
    (hf : scn.belongsTo = some f) : Ensures (callingScope m) r Q E ↔ Q (some n) r := by
  have hcall : r.machine.store.scopes.enclosingCall n = some n := by
    have hget : r.machine.store.scopes.arena.get? n = some scn := hn
    simp [Scopes.enclosingCall, Scopes.search, Scopes.searchWithin, hget, hf]
  rw [callingScope, Ensures.bind_iff, readScopes_lookup hm, Ensures.bind_iff, Ensures.get_iff,
    Ensures.pure_iff, hp, Option.bind_some, hcall]

variable {params : List String} {k : Nat}

theorem length_extArgs {sc : Scope}
    (hnames : sc.vars.map Prod.fst = Function.boundNames params k)
    (hparams : ∀ i, Function.extArgName i ∉ params) :
    (extArgs sc).length = k - params.length := by
  have hbound : ∀ j, (sc.varNamed? (Function.extArgName j)).isSome ↔ j < k - params.length := fun j => by
    rw [Scope.isSome_varNamed?_iff, hnames, Function.extArgName_mem_boundNames hparams]
  have hlength : sc.vars.length = params.length + (k - params.length) := by
    rw [← List.length_map (f := Prod.fst), hnames, Function.boundNames, List.length_append,
      List.length_map, List.length_range]
  refine (length_extArgsFrom (Nat.zero_le _) (by omega) (fun j _ hj => (hbound j).mpr hj) ?_).trans
    (Nat.sub_zero _)
  rw [← Option.not_isSome_iff_eq_none, hbound]
  exact Nat.lt_irrefl _

end Library

namespace Interpreter

open Exec

variable {sc : Scope} {t : Token} {a : Float} {name : String} {K : VarId → Prop} {fuel : Nat}

-- A numeral is bound to a name of a scope that binds nothing yet.
theorem bindNumeral_ensures (hs : r.store.Sound []) (hc : r.heap.Closed K) (hsc : r.scope? m = some sc)
    (hvars : sc.vars = []) (hname : name ≠ "") (ht : t.kind = .decimal a) :
    Ensures (bindArguments (ofFuel (fuel + 1)) [name] (.nodes [Node.ofToken t]) n m) r
      (fun bound r' => bound = true ∧ r'.store.Sound [] ∧ r'.flow = r.flow ∧
        (∀ s, s ≠ m → r'.scope? s = r.scope? s) ∧ Keeps K r.heap r'.heap ∧
        ∃ y, r'.scope? m = some { sc with vars := [(name, y)] } ∧ r'.heap.numeric y = .ok a)
      fun _ _ => False := by
  have heval : (ofFuel (fuel + 1)).eval (Node.ofToken t) n =
      (onHeap (Heap.alloc (.numeric a)) >>= fun y => pure (some y)) := by
    simp [ofFuel, evalNode, Node.ofToken, evalSingle, ht, Heap.allocNumeric]
  rw [bindArguments, Ensures.bind_iff, bindNodes, Ensures.bind_iff, heval, Ensures.bind_iff]
  refine (alloc_fresh (p := .numeric a) hs (fun _ => hc.live) rfl (by simp)).mono ?_ fun _ _ he => he
  rintro y _ ⟨h, rfl, hnew, hrecord⟩
  refine Ensures.pure_iff.mpr ?_
  simp only
  rw [Ensures.bind_iff, own, Ensures.bind_iff, readHeap_ok (Heap.lookup_eq hrecord)]
  refine Ensures.pure_iff.mpr ?_
  have hs' : (r.withHeap h).store.Sound [] := hs.step hnew.step
  have hroot := hs'.heap.forest.root_of_detached hnew.detached
  have hloose : (r.withHeap h).store.Sound [y] :=
    ⟨hs'.heap.loosen hroot (by simp), hs'.scopes, hs'.bound, hs'.owned⟩
  have hk : ¬K y := fun hk => by
    obtain ⟨v, hv⟩ := hc.live hk
    cases hnew.fresh.symm.trans hv
  have hc' : h.Closed K := hc.keeps hs.heap hs'.heap hnew.step.keeps
  rw [Ensures.bind_iff, declareIn, onStore_iff]
  refine ((Store.declare_ensures hloose hc' hk hnew.detached
    (hs'.heap.rules.aimed hnew.detached)).and
      (Store.declare_contents hloose hnew.detached hsc)).mono ?_ ?_
  swap
  · rintro e st ⟨-, hrefused⟩
    rcases hrefused with ⟨he, -⟩ | ⟨hbound, -⟩
    · exact hname he
    · rw [Scope.varNamed?, hvars] at hbound
      cases hbound
  rintro _ st ⟨hdec, -⟩
  obtain ⟨old, hold, hscope⟩ := hdec.scope
  cases hsc.symm.trans hold
  have hpayload : st.heap.payload y = .ok (.numeric a) :=
    Heap.payload_self (hdec.record _ hrecord) (by simp [Variable.temporary, Variable.make])
  have hnumeric : st.heap.numeric y = .ok a := by
    simp [Heap.numeric, hpayload, bind, Except.bind, pure, Except.pure]
  refine ⟨rfl, hdec.sound, rfl, hdec.others, hnew.step.keeps.trans hdec.keeps, y, ?_, hnumeric⟩
  rw [hvars] at hscope
  exact hscope

end Interpreter

section Bodies

open Interpreter Exec

variable {params : List String} {count j : Nat} {values : List Value} {f : Function} {sc : Scope}
  {t : Token} {a : Float} {self : Interpreter} {fuel k : Nat}

variable (hs : r.store.Sound []) (hflow : r.flow = .start)
  (hdepth : r.machine.depth < r.machine.config.maxCallDepth)
  (hfills : r.Fills n sc (Function.boundNames params count) values) (hf : sc.belongsTo = some f)
include hs hflow hdepth hfills hf

-- In front of a body the arguments beyond the parameters are counted,
theorem Run.Fills.extArgCount_yields (hparams : ∀ i, Function.extArgName i ∉ params) :
    r.Yields (callFunction self fuel (Library.native "ext_arg_count" [] .extArgCount) (.nodes []) n)
      (.numeric (Float.ofNat (count - params.length))) := by
  obtain ⟨vars, hn, hnames, -⟩ := hfills
  refine callFunction_yields hs ⟨_, hn⟩ hdepth fun m scm r₁ ho => ?_
  have hne : n ≠ m := by
    rintro rfl
    cases ho.fresh.symm.trans hn
  have hn₁ := (ho.others n hne).trans hn
  have hbody : invoke self fuel (Library.native "ext_arg_count" [] .extArgCount) (.nodes []) n m =
      (Library.extArgCount m >>= fun _ => leaveBody) := rfl
  rw [hbody, Ensures.bind_iff, Library.extArgCount, Ensures.bind_iff,
    Library.callingScope_iff ho.scope ho.parent hn₁ hf]
  simp only
  rw [Ensures.bind_iff, readScopes_lookup hn₁, Ensures.bind_iff, Ensures.pure_iff,
    Library.length_extArgs hnames hparams]
  exact Library.finishWith_returning ho.sound ⟨_, ho.scope⟩ (ho.flow.trans hflow) rfl (by simp) fun _ => by
    rw [Heap.Shows]

-- and each of them can be read.
theorem Run.Fills.extArg_yields {value : Value} (hnd : (Function.boundNames params count).Nodup)
    (ht : t.kind = .decimal a) (hindex : Number.index? a = some j) (hj : j < count - params.length)
    (hvalue : values[params.length + j]? = some value) :
    r.Yields (callFunction (ofFuel (fuel + 1)) k (Library.native "ext_arg" ["index"] .extArg)
      (.nodes [Node.ofToken t]) n) value := by
  obtain ⟨vars, hn, hnames, hall, -⟩ := hfills
  obtain ⟨x, hx, hown⟩ : ∃ x, ({ sc with vars := vars } : Scope).varNamed? (Function.extArgName j) =
      some x ∧ r.Own n x value := by
    have hnd' : (vars.map Prod.fst).Nodup := hnames ▸ hnd
    have hname : (Function.boundNames params count)[params.length + j]? = some (Function.extArgName j) :=
      Function.getElem?_boundNames hj
    rw [← hnames, List.getElem?_map, Option.map_eq_some_iff] at hname
    obtain ⟨⟨name, x⟩, hget, rfl⟩ := hname
    refine ⟨x, Scope.varNamed?_of_mem hnd' (List.mem_of_getElem? hget), ?_⟩
    obtain ⟨hi, hb⟩ := List.getElem?_eq_some_iff.mp hget
    obtain ⟨hi', hv⟩ := List.getElem?_eq_some_iff.mp hvalue
    have hown := (List.forall₂_iff_get.mp hall).2 (params.length + j) hi hi'
    simp only [List.get_eq_getElem, hb, hv] at hown
    exact hown
  refine callFunction_yields hs ⟨_, hn⟩ hdepth fun m scm r₁ ho => ?_
  have hne : n ≠ m := by
    rintro rfl
    cases ho.fresh.symm.trans hn
  have hbody : invoke (ofFuel (fuel + 1)) k (Library.native "ext_arg" ["index"] .extArg)
      (.nodes [Node.ofToken t]) n m =
      (bindArguments (ofFuel (fuel + 1)) ["index"] (.nodes [Node.ofToken t]) n m >>= fun bound =>
        if bound then Library.extArg m >>= fun _ => leaveBody else pure ()) := rfl
  have hown₁ : r₁.Own n x value := hown.keeps (K := fun _ => True) hs.heap ho.sound.heap
    (fun y _ => by rw [ho.heap]) fun _ _ => trivial
  rw [hbody, Ensures.bind_iff]
  refine (bindNumeral_ensures ho.sound hown₁.apart ho.scope ho.vars (by decide) ht).mono ?_
    fun _ _ he => he
  rintro _ r₂ ⟨rfl, hs₂, hflow₂, hothers, hkeeps, y, hm₂, hnumeric⟩
  have hown₂ : r₂.Own n x value := hown₁.keeps ho.sound.heap hs₂.heap hkeeps fun _ hb => hb
  have hn₂ := (hothers n hne).trans ((ho.others n hne).trans hn)
  have hy : ({ scm with vars := [("index", y)] } : Scope).varNamed? "index" = some y := rfl
  rw [if_pos rfl, Ensures.bind_iff, Library.extArg, Ensures.bind_iff, Library.argument,
    Ensures.bind_iff, readScopes_lookup hm₂, hy, Ensures.pure_iff, Ensures.bind_iff,
    readHeap_ok hnumeric, hindex]
  simp only
  rw [Ensures.bind_iff, Library.callingScope_iff hm₂ ho.parent hn₂ hf]
  simp only
  rw [Ensures.bind_iff, readScopes_lookup hn₂, hx]
  obtain ⟨v, hv, howner, -⟩ := hown₂.record
  exact Library.finish_returning hs₂ ⟨_, hm₂⟩ (hflow₂.trans (ho.flow.trans hflow)) hown₂.holds
    (.inr ⟨n, hne, v, hv, howner⟩)

end Bodies

-- A call stands at the start of its body. Each argument has been evaluated and bound before the
-- next, and the parameters that are left are null.
structure Entered (fuel : Nat) (f : Function) (nodes : List Node) (caller n : ScopeId) (sc : Scope)
    (r₀ r₁ : Run) (values : List Value) : Prop where
  supplied : ∃ r', Supplied (.ofFuel fuel) caller n (Function.supply f.params 0 nodes) values r₀ r' ∧
    (Interpreter.bindMissing n (f.params.drop nodes.length)).run.run r' = (.ok (), r₁)
  fills : r₁.Fills n sc (Function.boundNames f.params nodes.length)
    (values ++ List.replicate (f.params.length - nodes.length) .null)
  nodup : (Function.boundNames f.params nodes.length).Nodup
  named : "" ∉ Function.boundNames f.params nodes.length
  count : (∀ i, Function.extArgName i ∉ f.params) →
    r₁.machine.depth < r₁.machine.config.maxCallDepth → ∀ fuel',
      r₁.Yields ((Interpreter.ofFuel (fuel' + 1)).call
        (Library.native "ext_arg_count" [] .extArgCount) (.nodes []) n)
        (.numeric (Float.ofNat (nodes.length - f.params.length)))
  extra : r₁.machine.depth < r₁.machine.config.maxCallDepth →
    ∀ {t a j}, t.kind = .decimal a → Number.index? a = some j → ∀ value,
      values[f.params.length + j]? = some value → ∀ fuel',
      r₁.Yields ((Interpreter.ofFuel (fuel' + 2)).call
        (Library.native "ext_arg" ["index"] .extArg) (.nodes [Node.ofToken t]) n) value

theorem Supplied.length_eq {self : Interpreter} {caller : ScopeId} {args : List (Node × String)}
    {values : List Value} (h : Supplied self caller n args values r r') :
    values.length = args.length := by
  induction h with
  | nil => rfl
  | cons _ _ ih => rw [List.length_cons, List.length_cons, ih]

-- A call may be made on a new machine.
theorem Machine.callable_ofConfig {config : Config} (hlimit : 0 < config.maxCallDepth) :
    (Machine.ofConfig config).idle.Callable (Machine.ofConfig config).root := by
  obtain ⟨hrests, hpristine⟩ := rests_ofConfig .lenient config
  obtain ⟨hdepth, hconfig⟩ := depth_ofConfig config
  have hroot := live_root_ofConfig config
  have hscope : ∀ {s sc}, (ofConfig config).store.scope? s = some sc → s = (ofConfig config).root :=
    scope_ofConfig
  generalize ofConfig config = m at *
  refine ⟨hrests.sound, hrests.fit, fun hsc hp => ?_, hroot, rfl, ?_⟩
  · obtain rfl := hscope hsc
    cases (hpristine _ hsc).1.symm.trans hp
  · show m.depth < m.config.maxCallDepth
    rw [hdepth, hconfig]
    exact hlimit

-- Nothing is in the way of names that differ and are not empty.
theorem Unbindable.not_of_nodup {names : List String} {c : Cause} (hnd : names.Nodup)
    (hnamed : "" ∉ names) : ¬Unbindable names c := by
  rintro (⟨hin, -⟩ | ⟨name, hcount, -⟩)
  · exact hnamed hin
  · have := List.nodup_iff_count_le_one.mp hnd name
    omega

namespace Interpreter

theorem eval_string {fuel : Nat} {scope : ScopeId} {t : Token} {s : String} (ht : t.kind = .string s) :
    ∃ x r', ((ofFuel (fuel + 1)).eval (Node.ofToken t) scope).run.run r = (.ok (some x), r') := by
  have heval : (ofFuel (fuel + 1)).eval (Node.ofToken t) scope =
      (Exec.onHeap (Heap.alloc (.string s)) >>= fun y => pure (some y)) := by
    simp [ofFuel, evalNode, Node.ofToken, evalSingle, ht, Heap.allocString]
  have hsome : Ensures ((ofFuel (fuel + 1)).eval (Node.ofToken t) scope) r (fun v _ => ∃ x, v = some x)
      fun _ _ => False := by
    rw [heval, Ensures.bind_iff, Exec.onHeap_iff]
    exact (Heap.alloc_iff rfl).mpr (Ensures.pure_iff.mpr ⟨_, rfl⟩)
  obtain ⟨_, r', hrun, x, rfl⟩ := hsome.exists_run
  exact ⟨x, r', hrun⟩

-- A call comes to the start of its body with exactly its own names bound, to variables that nothing
-- else leads to; or an argument does not come to a value. Where a name is empty or occurs twice it
-- fails for that, and the scopes are as before.
theorem call_binds {caller : ScopeId} (hr : r.Callable caller) (fuel : Nat) (f : Function)
    (nodes : List Node) :
    ∃ n sc r₀, (openCall f caller).run.run r = (.ok n, r₀) ∧ r.Opens f caller n sc r₀ ∧
      (Interrupted (ofFuel fuel) caller n (Function.supply f.params 0 nodes) r₀ ∨
        (∃ values r₁, Entered fuel f nodes caller n sc r₀ r₁ values ∧
          ((ofFuel (fuel + 1)).call f (.nodes nodes) caller).run.run r =
            (closeCall n (runBody (ofFuel fuel) fuel f n)).run.run r₁) ∨
        ∃ c r', Unbindable (Function.boundNames f.params nodes.length) c ∧
          ((ofFuel (fuel + 1)).call f (.nodes nodes) caller).run.run r =
            (.error (.failure (.of c)), r') ∧ ∀ s, r'.scope? s = r.scope? s) := by
  obtain ⟨n, r₀, hopen, sc, ho⟩ := (openCall_opens (f := f) hr.sound hr.live).exists_run
  refine ⟨n, sc, r₀, hopen, ho, ?_⟩
  have hcall : ((ofFuel (fuel + 1)).call f (.nodes nodes) caller).run.run r =
      (closeCall n (invoke (ofFuel fuel) fuel f (.nodes nodes) caller n)).run.run r₀ :=
    (enterCall_run hr.depth).trans (run_bind_of_ok hopen)
  have hbound : Interrupted (ofFuel fuel) caller n (Function.supply f.params 0 nodes) r₀ ∨ _ :=
    bindArguments_outcome (ofFuel_sound (fun _ => trivial) fuel) (ofFuel_oblivious fuel)
      (fun _ _ => trivial) (ho.filling hr)
  rcases hbound with
    h | ⟨c, r', hbind, hflow, hc⟩ | ⟨J, values, r', r₁, hsupplied, hmissing, hbind, hf⟩
  · exact .inl h
  · obtain ⟨r'', hrun⟩ := closeCall_run_error (n := n)
      ((congrArg (fun part => part.run.run r₀) invoke_eq).trans (run_bind_of_error hbind)) (hflow ▸ rfl)
    refine .inr (.inr ⟨c, r'', hc, hcall.trans hrun, ?_⟩)
    have horder := watched_all (fuel + 1) ▸ watched_orderly (fun _ _ => true) (fuel + 1)
    have hcalm : Ensures ((ofFuel (fuel + 1)).call f (.nodes nodes) caller) r (fun _ s => Calm r s)
        (Halted Calm r) := horder.call ⟨hr.sound, Nat.le_of_lt hr.depth⟩ trivial
    exact Calm.scopes (hcalm.of_error (hcall.trans hrun))
  · have hbody : (invoke (ofFuel fuel) fuel f (.nodes nodes) caller n).run.run r₀ =
        (runBody (ofFuel fuel) fuel f n).run.run r₁ :=
      (congrArg (fun part => part.run.run r₀) invoke_eq).trans (run_bind_of_ok hbind)
    refine .inr (.inl ⟨values, r₁, ?_, hcall.trans (closeCall_run_congr hbody)⟩)
    have hs := hf.state.sound
    exact
      { supplied := ⟨r', hsupplied, hmissing⟩
        fills := hf.fills
        nodup := hf.nodup
        named := hf.named
        count := fun hparams hdepth fuel' =>
          hf.fills.extArgCount_yields hs hf.flow hdepth ho.belongsTo hparams
        extra := fun hdepth {t a j} ht hindex value hvalue fuel' => by
          have hj : f.params.length + j < values.length := (List.getElem?_eq_some_iff.mp hvalue).1
          have hlength : values.length = nodes.length := by
            rw [hsupplied.length_eq, Function.supply, List.length_map, List.length_zipIdx]
          refine hf.fills.extArg_yields hs hf.flow hdepth ho.belongsTo hf.nodup ht hindex (by omega) ?_
          rw [List.getElem?_append_left hj]
          exact hvalue }

-- One argument more than there are parameters, and a parameter that is named twice.
theorem call_binds_literals :
    let root := (Machine.ofConfig {}).root
    let nodes := [Node.ofToken ⟨.string "a", "a", default, default⟩,
      Node.ofToken ⟨.string "b", "b", default, default⟩]
    (Machine.ofConfig {}).idle.Callable root ∧
      (∃ n sc r₀ r₁ values, Entered 3 ⟨"f", ["p"], .script .always⟩ nodes root n sc r₀ r₁ values) ∧
      ∃ r', ((ofFuel 4).call ⟨"f", ["p", "p"], .script .always⟩ (.nodes nodes) root).run.run
        (Machine.ofConfig {}).idle = (.error (.failure (.of (.duplicateVariable "p"))), r') := by
  intro root nodes
  have hr : (Machine.ofConfig {}).idle.Callable root := Machine.callable_ofConfig (by decide)
  refine ⟨hr, ?_⟩
  have heval : ∀ text r, ∃ x r', ((ofFuel 3).eval
      (Node.ofToken ⟨.string text, text, default, default⟩) root).run.run r = (.ok (some x), r') :=
    fun _ _ => eval_string rfl
  have hcomes : ∀ {params n r₀}, ¬Interrupted (ofFuel 3) root n (Function.supply params 0 nodes) r₀ := by
    intro params n r₀ h
    cases h with
    | here hno =>
      obtain ⟨x, r', hx⟩ := heval "a" r₀
      exact hno x r' hx
    | later _ h =>
      cases h with
      | here hno =>
        obtain ⟨x, r', hx⟩ := heval "b" _
        exact hno x r' hx
      | later _ h => cases h
  constructor
  · obtain ⟨n, sc, r₀, -, -, h | ⟨values, r₁, h, -⟩ | ⟨c, r', h, -⟩⟩ :=
      call_binds hr 3 ⟨"f", ["p"], .script .always⟩ nodes
    · exact absurd h hcomes
    · exact ⟨n, sc, r₀, r₁, values, h⟩
    · exact absurd h (Unbindable.not_of_nodup (by decide) (by decide))
  · obtain ⟨n, sc, r₀, -, -, h | ⟨values, r₁, h, -⟩ | ⟨c, r', h, hrun, -⟩⟩ :=
      call_binds hr 3 ⟨"f", ["p", "p"], .script .always⟩ nodes
    · exact absurd h hcomes
    · exact absurd h.nodup (by decide)
    · rcases h with ⟨hin, -⟩ | ⟨name, hcount, rfl⟩
      · exact absurd hin (by decide)
      · have hin := List.count_pos_iff.mp (Nat.lt_of_succ_lt hcount)
        obtain rfl : name = "p" := by simpa [Function.boundNames, nodes] using hin
        exact ⟨r', hrun⟩

end Interpreter

end FinLang

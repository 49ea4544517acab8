import FinLang.Machine.Library
import FinLang.Proofs.Machine.Expression

namespace FinLang

variable {D : Discipline} {A : ScopeId → Prop} {K : VarId → Prop} {n : ScopeId} {r r' : Run}
  {x : VarId} {E : Halt → Run → Prop} {self : Interpreter} {name : String} {sc : Scope}

-- A machine in the scope of a call, with the arguments bound.
structure Called (D : Discipline) (A : ScopeId → Prop) (K : VarId → Prop) (n : ScopeId)
    (sc : Scope) (r : Run) : Prop where
  state : State D A K [] n r
  flow : r.flow = .start
  scope : r.scope? n = some sc
  -- What is left alone is bound elsewhere.
  own : ∀ {name x}, (name, x) ∈ sc.vars → ¬K x

theorem mem_lookup_of_mem {β : Type} {l : List (String × β)} {b : β} (hb : (name, b) ∈ l) :
    ∃ c, l.lookup name = some c := by
  rcases hl : l.lookup name with _ | c
  · have := List.lookup_eq_none_iff.mp hl (name, b) hb
    simp at this
  · exact ⟨c, rfl⟩

theorem Heap.Sound.string_ordinary {h : Heap} {e : Failure} (hs : h.Sound []) (hx : h.Live x)
    (he : h.string x = .error e) : e.cause.Ordinary := by
  obtain ⟨t, w, hst⟩ := hs.stands hx
  simp only [Heap.string, hst.payload, bind, Except.bind] at he
  split at he
  · cases he
  · cases he
    exact ⟨nofun, nofun⟩

namespace Machine

variable {m : Machine} {line : String}

theorem store_emit : (m.emit line).store = m.store := by
  unfold emit
  split <;> rfl

theorem root_emit : (m.emit line).root = m.root := by
  unfold emit
  split <;> rfl

theorem depth_emit : (m.emit line).depth = m.depth := by
  unfold emit
  split <;> rfl

theorem config_emit : (m.emit line).config = m.config := by
  unfold emit
  split <;> rfl

end Machine

namespace Exec

theorem readScopes_lookup {Q : Scope → Run → Prop} (hsc : r.scope? n = some sc) :
    Ensures (readScopes (·.lookup n)) r Q E ↔ Q sc r := by
  have hok : r.machine.store.scopes.lookup n = .ok sc := by simp [Scopes.lookup, hsc]
  exact Ensures.bind_iff.trans (ofExcept_ok hok)

-- Reading fails for ordinary reasons only.
theorem readHeap_ensures {α : Type} {f : Heap → Except Failure α} {Q : α → Run → Prop}
    {xs : List VarId} {P : ScopeId → Prop} (hst : State D A K xs n r)
    (hflow : r.flow.result = none) (hf : ∀ e, f r.heap = .error e → e.cause.Ordinary)
    (hq : ∀ a, f r.heap = .ok a → Q a r) :
    Ensures (readHeap f) r Q (FailPost D A K P xs n r) := by
  rcases hread : f r.heap with e | a
  · exact (readHeap_error hread).mpr (.refl hst hflow (D.ordinary (hf e hread)))
  · exact (readHeap_ok hread).mpr (hq a hread)

end Exec

namespace Called

theorem result (hc : Called D A K n sc r) : r.flow.result = none := by
  rw [hc.flow]
  rfl

theorem held (hc : Called D A K n sc r) (hin : (name, x) ∈ sc.vars) : r.heap.Held x :=
  hc.state.sound.held hc.scope hin

end Called

namespace Library

open Exec

theorem argument_ensures {Q : VarId → Run → Prop} (hc : Called D A K n sc r)
    (harg : ∃ x, (name, x) ∈ sc.vars) (hq : ∀ x, r.heap.Live x → Q x r) :
    Ensures (argument n name) r Q E := by
  obtain ⟨y, hy⟩ := harg
  obtain ⟨x, hx⟩ := mem_lookup_of_mem hy
  rw [argument, Ensures.bind_iff, readScopes_lookup hc.scope]
  simp only [Scope.varNamed?, hx]
  exact hq x (hc.held (mem_of_lookup hx)).live

theorem mem_extArgsFrom {index count : Nat} (hx : x ∈ extArgsFrom sc index count) :
    ∃ name, (name, x) ∈ sc.vars := by
  induction count generalizing index with
  | zero => simp [extArgsFrom] at hx
  | succ count ih =>
    unfold extArgsFrom at hx
    split at hx
    · rename_i id hid
      rcases List.mem_cons.mp hx with rfl | hx
      · exact ⟨_, mem_of_lookup hid⟩
      · exact ih hx
    · simp at hx

theorem mem_extArgs (hx : x ∈ extArgs sc) : ∃ name, (name, x) ∈ sc.vars :=
  mem_extArgsFrom hx

-- The result of a native function is on its way.
theorem finish_sound {o : Option VarId} (hf : Frame K noScope r r')
    (hst : State D A K o.toList n r') (hx : ∀ x ∈ o, r'.heap.Held x)
    (hflow : r'.flow = .start) :
    Ensures (finish o) r' (fun _ r'' => CallPost D A K noScope n r r'') E := by
  rw [finish, Ensures.bind_iff, setKind_iff, hflow]
  cases o with
  | none =>
    exact ⟨hf.trans (.of_machine rfl rfl), hst.congr rfl, nofun, .inl rfl⟩
  | some x =>
    refine (setResult_start rfl).mpr ⟨hf.trans (.of_machine rfl rfl), hst.congr rfl, fun y hy => ?_,
      .inl rfl⟩
    cases hy
    exact .inl (hx x rfl)

theorem finishWith_sound {p : Payload} (hc : Called D A K n sc r) (hp : p.elements = #[])
    (hl : ∀ t, p ≠ .link t) :
    Ensures (finishWith p) r (fun _ r' => CallPost D A K noScope n r r') E := by
  rw [finishWith, Ensures.bind_iff]
  refine (Interpreter.alloc_value hc.state hp hl).mono ?_ fun _ _ he => he
  rintro x r₁ ⟨hm, hx⟩
  exact finish_sound (o := some x) hm.frame hm.state (by simpa using hx)
    (hm.flow.trans hc.flow)

theorem mapM_readHeap {Q : List Value → Run → Prop} (ids : List VarId)
    (hs : r.heap.Sound []) (hids : ∀ x ∈ ids, r.heap.Live x) (hq : ∀ values, Q values r) :
    Ensures (ids.mapM fun id => readHeap (·.toValue id)) r Q E := by
  induction ids generalizing Q with
  | nil => exact hq []
  | cons x rest ih =>
    obtain ⟨value, hvalue⟩ := hs.toValue_ok (hids x (List.mem_cons_self ..))
    rw [List.mapM_cons, Ensures.bind_iff]
    refine (readHeap_ok (f := fun h => h.toValue x) hvalue).mpr ?_
    rw [Ensures.bind_iff]
    exact ih (fun y hy => hids y (List.mem_cons_of_mem _ hy)) fun values => hq (value :: values)

theorem print_sound (hc : Called D A K n sc r) :
    Ensures (print n) r (fun _ r' => CallPost D A K noScope n r r') E := by
  rw [print, Ensures.bind_iff, readScopes_lookup hc.scope, Ensures.bind_iff]
  refine mapM_readHeap _ hc.state.sound.heap (fun x hx => ?_) fun values => ?_
  · obtain ⟨name, hin⟩ := mem_extArgs hx
    exact (hc.held hin).live
  rw [Ensures.bind_iff]
  refine Ensures.modify_iff.mpr (finish_sound ?_ ?_ nofun hc.flow)
  · exact .of_store Machine.store_emit rfl Machine.root_emit Machine.depth_emit Machine.config_emit
  · exact hc.state.congr Machine.store_emit

theorem len_sound (hc : Called D A K n sc r) (harg : ∃ x, ("x", x) ∈ sc.vars) :
    Ensures (len n) r (fun _ r' => CallPost D A K noScope n r r') (FailPost D A K noScope [] n r) := by
  rw [len, Ensures.bind_iff]
  refine argument_ensures hc harg fun x hx => ?_
  obtain ⟨t, w, hst⟩ := hc.state.sound.heap.stands hx
  rw [Ensures.bind_iff]
  refine readHeap_ensures hc.state hc.result (fun e he => ?_) fun _ _ =>
    finishWith_sound hc rfl fun _ => nofun
  simp only [hst.payload, bind, Except.bind] at he
  unfold lengthOf at he
  split at he <;> cases he
  exact ⟨nofun, nofun⟩

theorem typeOf_sound (hc : Called D A K n sc r) (harg : ∃ x, ("x", x) ∈ sc.vars) :
    Ensures (typeOf n) r (fun _ r' => CallPost D A K noScope n r r') E := by
  rw [typeOf, Ensures.bind_iff]
  refine argument_ensures hc harg fun x hx => ?_
  obtain ⟨t, w, hst⟩ := hc.state.sound.heap.stands hx
  rw [Ensures.bind_iff, readHeap_ok (f := fun h => h.varType x) hst.varType]
  exact finishWith_sound hc rfl fun _ => nofun

theorem numericArgument_sound {k : Float → Exec Unit} (hc : Called D A K n sc r)
    (harg : ∃ x, (name, x) ∈ sc.vars)
    (hk : ∀ x, Ensures (k x) r (fun _ r' => CallPost D A K noScope n r r')
      (FailPost D A K noScope [] n r)) :
    Ensures (do
      let id ← argument n name
      let x ← readHeap (·.numeric id)
      k x) r (fun _ r' => CallPost D A K noScope n r r') (FailPost D A K noScope [] n r) := by
  rw [Ensures.bind_iff]
  refine argument_ensures hc harg fun id hid => ?_
  rw [Ensures.bind_iff]
  exact readHeap_ensures hc.state hc.result
    (fun e he => Operation.numeric_ordinary hc.state.sound.heap hid he) fun x _ => hk x

theorem math_sound {f : MathFunction} (hc : Called D A K n sc r) (harg : ∃ x, ("x", x) ∈ sc.vars) :
    Ensures (math f n) r (fun _ r' => CallPost D A K noScope n r r') (FailPost D A K noScope [] n r) := by
  refine numericArgument_sound hc harg fun x => ?_
  rw [Ensures.bind_iff]
  rcases hy : f.apply x with e | y
  · refine (ofExcept_error rfl).mpr (.refl hc.state hc.result (D.ordinary ?_))
    unfold MathFunction.apply at hy
    split at hy <;> first
      | cases hy
      | (split at hy <;> cases hy
         exact ⟨nofun, nofun⟩)
  · exact (ofExcept_ok rfl).mpr (finishWith_sound hc rfl fun _ => nofun)

-- The scope that is found is there, and its bindings can be reached.
theorem callingScope_ensures {Q : Option ScopeId → Run → Prop} (hc : Called D A K n sc r)
    (hnone : Q none r) (hsome : ∀ s sc', A s → r.scope? s = some sc' → Q (some s) r) :
    Ensures (callingScope n) r Q E := by
  rw [callingScope, Ensures.bind_iff, readScopes_lookup hc.scope]
  refine Ensures.bind_iff.mpr (Ensures.get_iff.mpr (Ensures.pure_iff.mpr ?_))
  rcases hfind : sc.parent.bind r.machine.store.scopes.enclosingCall with _ | s
  · exact hnone
  · obtain ⟨p, hp, hfind⟩ := Option.bind_eq_some_iff.mp hfind
    have hreach := hc.state.reach
    obtain ⟨t, sc', ha, hsc', ht⟩ := hreach.search (hreach.parent hc.state.here hc.scope hp) hfind
    obtain ⟨-, -, rfl⟩ := Option.map_eq_some_iff.mp ht
    exact hsome t sc' ha hsc'

theorem extArgCount_sound (hc : Called D A K n sc r) :
    Ensures (extArgCount n) r (fun _ r' => CallPost D A K noScope n r r') E := by
  rw [extArgCount, Ensures.bind_iff]
  have hcount : ∀ count, Ensures (finishWith (.numeric (Float.ofNat count))) r
      (fun _ r' => CallPost D A K noScope n r r') E :=
    fun count => finishWith_sound hc rfl fun _ => nofun
  refine callingScope_ensures hc (hcount 0) fun s sc' _ hsc' => ?_
  simp only
  rw [Ensures.bind_iff, readScopes_lookup hsc']
  exact hcount _

theorem extArg_sound (hc : Called D A K n sc r) (harg : ∃ x, ("index", x) ∈ sc.vars) :
    Ensures (extArg n) r (fun _ r' => CallPost D A K noScope n r r') (FailPost D A K noScope [] n r) := by
  refine numericArgument_sound hc harg fun x => ?_
  split
  · exact .refl hc.state hc.result (D.ordinary (c := .extraIndex) ⟨nofun, nofun⟩)
  · rw [Ensures.bind_iff]
    refine callingScope_ensures hc ?_ fun s sc' ha hsc' => ?_
    · exact .refl hc.state hc.result (D.ordinary (c := .extraOutsideFunction) ⟨nofun, nofun⟩)
    · simp only
      rw [Ensures.bind_iff, readScopes_lookup hsc']
      split
      · rename_i id hid
        have hin := mem_of_lookup hid
        refine finish_sound (o := some id) .refl ?_ (fun y hy => ?_) hc.flow
        · refine hc.state.relist (by simp) fun y hy => ?_
          cases List.mem_singleton.mp hy
          exact hc.state.reach.safe ha hsc' hin
        · cases hy
          exact hc.state.sound.held hsc' hin
      · exact .refl hc.state hc.result (D.ordinary (c := .noExtra x) ⟨nofun, nofun⟩)

theorem call_sound (hself : self.Sound D) (hc : Called D A K n sc r)
    (harg : ∃ x, ("name", x) ∈ sc.vars) :
    Ensures (call self n) r (fun _ r' => CallPost D A K noScope n r r')
      (FailPost D A K noScope [] n r) := by
  rw [call, Ensures.bind_iff]
  refine argument_ensures hc harg fun id hid => ?_
  rw [Ensures.bind_iff]
  refine readHeap_ensures hc.state hc.result
    (fun e he => hc.state.sound.heap.string_ordinary hid he) fun name _ => ?_
  rw [Ensures.bind_iff, Ensures.get_iff]
  split
  · exact .refl hc.state hc.result (D.ordinary (c := .undefinedFunction name) ⟨nofun, nofun⟩)
  · rename_i f hfind
    rw [Ensures.bind_iff, readScopes_lookup hc.scope, Ensures.bind_iff]
    have hargs : (Arguments.values (extArgs sc)).Fit D K n r := by
      intro x hx
      obtain ⟨name, hin⟩ := mem_extArgs hx
      exact ⟨hc.own hin, sc, name, hc.scope, hin⟩
    refine (Interpreter.call_sound hself (hc.state.findFunction hfind) hargs hc.state hc.flow).mono
      ?_ fun _ _ he => he
    rintro ⟨kind, result⟩ r₁ ⟨hm, hheld, hkind⟩
    have hflow₁ : r₁.flow = .start := hm.flow.trans hc.flow
    simp only at hm hheld hkind ⊢
    split
    · have hexit : CallPost D A K noScope n r { r₁ with flow := ⟨.exiting, result⟩ } := by
        refine ⟨hm.frame.trans (.of_machine rfl rfl), hm.state.congr rfl, fun x hx => ?_, .inr rfl⟩
        exact (hheld x hx).imp_right fun h => ⟨rfl, h.2⟩
      have hres₁ : r₁.flow.result = none := by rw [hflow₁]; rfl
      rw [Ensures.bind_iff]
      cases result with
      | none =>
        refine Ensures.pure_iff.mpr ?_
        rw [setKind_iff, Flow.withKind, hres₁]
        exact hexit
      | some x => exact (setResult_start hres₁).mpr (setKind_iff.mpr hexit)
    · rename_i hexit
      refine finish_sound hm.frame hm.state (fun x hx => (hheld x hx).resolve_right fun h => ?_) hflow₁
      exact hexit (by simp [Flow.isExit, h.1])

theorem callDepth_sound (hc : Called D A K n sc r) :
    Ensures (callDepth n) r (fun _ r' => CallPost D A K noScope n r r') E := by
  rw [callDepth, Ensures.bind_iff, Ensures.get_iff]
  exact finishWith_sound hc rfl fun _ => nofun

theorem imageSide_sound {k : Nat → Exec Unit} (hc : Called D A K n sc r)
    (harg : ∃ x, (name, x) ∈ sc.vars)
    (hk : ∀ side, Ensures (k side) r (fun _ r' => CallPost D A K noScope n r r')
      (FailPost D A K noScope [] n r)) :
    Ensures (imageSide n name >>= k) r (fun _ r' => CallPost D A K noScope n r r')
      (FailPost D A K noScope [] n r) := by
  have hfail : FailPost D A K noScope [] n r (.failure (.of (.imageSide name))) r :=
    .refl hc.state hc.result (D.ordinary (c := .imageSide name) ⟨nofun, nofun⟩)
  rw [Ensures.bind_iff, imageSide, Ensures.bind_iff]
  refine argument_ensures hc harg fun id hid => ?_
  rw [Ensures.bind_iff]
  refine readHeap_ensures hc.state hc.result
    (fun e he => Operation.numeric_ordinary hc.state.sound.heap hid he) fun x _ => ?_
  split
  · split
    · exact hfail
    · exact hk _
  · exact hfail

theorem image_sound (hc : Called D A K n sc r) (hwidth : ∃ x, ("width", x) ∈ sc.vars)
    (hheight : ∃ x, ("height", x) ∈ sc.vars) :
    Ensures (image n) r (fun _ r' => CallPost D A K noScope n r r') (FailPost D A K noScope [] n r) := by
  refine imageSide_sound hc hwidth fun width => imageSide_sound hc hheight fun height => ?_
  split
  · rw [Ensures.bind_iff]
    exact .refl hc.state hc.result
      (D.ordinary (c := .imageTooLarge width height maxImagePixels) ⟨nofun, nofun⟩)
  · exact finishWith_sound hc rfl fun _ => nofun

-- Native functions find their arguments.
theorem run_sound (hself : self.Sound D) (hc : Called D A K n sc r) {native : Native}
    (hsignal : ∀ kind, native ≠ .signal kind)
    (hargs : ∀ a ∈ native.arguments, ∃ x, (a, x) ∈ sc.vars) :
    Ensures (run self n native) r (fun _ r' => CallPost D A K noScope n r r')
      (FailPost D A K noScope [] n r) := by
  cases native with
  | print => exact print_sound hc
  | len => exact len_sound hc (hargs "x" (by simp [Native.arguments]))
  | typeOf => exact typeOf_sound hc (hargs "x" (by simp [Native.arguments]))
  | extArgCount => exact extArgCount_sound hc
  | extArg => exact extArg_sound hc (hargs "index" (by simp [Native.arguments]))
  | call => exact call_sound hself hc (hargs "name" (by simp [Native.arguments]))
  | callDepth => exact callDepth_sound hc
  | image =>
    exact image_sound hc (hargs "width" (by simp [Native.arguments]))
      (hargs "height" (by simp [Native.arguments]))
  | math f => exact math_sound hc (hargs "x" (by simp [Native.arguments]))
  | signal kind => exact absurd rfl (hsignal kind)

end Library

end FinLang

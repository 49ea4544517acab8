import FinLang.Machine.Call
import FinLang.Proofs.Machine.Library
import FinLang.Proofs.Machine.Statement

namespace FinLang

-- A scope that binds certain names, whatever else it binds.
def Run.Named (r : Run) (n : ScopeId) (N : String → Prop) : Prop :=
  ∃ sc, r.scope? n = some sc ∧ ∀ name, N name → ∃ x, (name, x) ∈ sc.vars

variable {D : Discipline} {A : ScopeId → Prop} {K : VarId → Prop} {P : ScopeId → Prop}
  {caller n : ScopeId} {r r' r'' : Run} {E : Halt → Run → Prop} {self : Interpreter}
  {N : String → Prop} {name : String} {params : List String}

namespace Run.Named

theorem mono {M : String → Prop} (hr : r.Named n N) (hn : ∀ s, M s → N s) : r.Named n M :=
  hr.imp fun _ h => ⟨h.1, fun s hs => h.2 s (hn s hs)⟩

theorem binds (hr : r.Named n N) (hb : r.Binds n name r') : r'.Named n fun s => N s ∨ s = name := by
  obtain ⟨sc, hsc, hall⟩ := hr
  obtain ⟨sc', x, hsc', hnew⟩ := hb
  cases hsc.symm.trans hsc'
  refine ⟨_, hnew, ?_⟩
  rintro s (hs | rfl)
  · obtain ⟨y, hy⟩ := hall s hs
    exact ⟨y, List.mem_append_left _ hy⟩
  · exact ⟨x, by simp⟩

theorem of_frame (hr : r.Named n N) (hf : Frame K noScope r r') : r'.Named n N := by
  obtain ⟨sc, hsc, hall⟩ := hr
  exact ⟨sc, (hf.scopes n id).trans hsc, hall⟩

end Run.Named

theorem CallPost.trans {scope : ScopeId} (hf : Frame K P r r')
    (hp : CallPost D A K P scope r' r'') : CallPost D A K P scope r r'' :=
  { hp with frame := hf.trans hp.frame }

namespace Exec

-- At the end of a body a `return` is done.
theorem leaveBody_sound (hp : ExecPost D A K n r r') :
    Ensures leaveBody r' (fun _ r'' => CallPost D A K (· = n) n r r'')
      (FailPost D A K (· = n) [] n r) := by
  have hfail : ∀ {c : Cause}, r'.flow.kind ≠ .returning → r'.flow.kind ≠ .exiting → D.admits c →
      FailPost D A K (· = n) [] n r (.failure (.of c)) r' := by
    intro c hret hexit hc
    have hres := hp.result_eq_none hret hexit
    have hst := hp.state
    rw [hres] at hst
    exact ⟨hp.frame, hst, hres, hc⟩
  have hok : ∀ {kind : FlowKind}, kind = .next ∨ kind = .exiting →
      (r'.flow.kind = .exiting → kind = .exiting) →
      CallPost D A K (· = n) n r { r' with flow := ⟨kind, r'.flow.result⟩ } := by
    intro kind hkind hexit
    refine ⟨hp.frame.trans (.of_machine rfl rfl), hp.state.congr rfl, fun x hx => ?_, hkind⟩
    exact (hp.carries x hx).imp_right fun h => ⟨hexit h.1, h.2⟩
  rw [leaveBody, Ensures.bind_iff, flow_iff, Ensures.bind_iff]
  rcases hflow : r'.flow with ⟨kind, result⟩
  simp only [hflow] at hfail hok
  cases kind with
  | next => exact hok (.inl rfl) nofun
  | returning => exact hok (.inl rfl) nofun
  | exiting => exact hok (.inr rfl) fun _ => rfl
  | goto label => exact hfail nofun nofun (D.ordinary (c := .labelNotFound label) ⟨nofun, nofun⟩)
  | breaking => exact hfail nofun nofun (D.outsideLoop _)
  | continuing => exact hfail nofun nofun (D.outsideLoop _)
  | failed => exact absurd (congrArg Flow.kind hflow) hp.kind

theorem leaveBody_iff {Q : Unit → Run → Prop}
    (hkind : r.flow.kind = .next ∨ r.flow.kind = .exiting) : Ensures leaveBody r Q E ↔ Q () r := by
  have hleave : r.flow.leaveBody = .ok r.flow := by
    rcases hkind with hkind | hkind <;> simp [Flow.leaveBody, hkind]
  rw [leaveBody, Ensures.bind_iff, flow_iff, Ensures.bind_iff, ofExcept_ok hleave]
  exact setFlow_iff

end Exec

namespace Interpreter

open Exec

-- The arguments are evaluated where the call stands and bound in its scope.
theorem bindNodes_sound (hself : self.Sound D) (nodes : List Node)
    (hn : ∀ m ∈ nodes, D.evaluable m) {i : Nat} (hst : State D A K [] n r)
    (hflow : r.flow = .start) (ha : A caller) (hlive : ∃ sc, r.scope? caller = some sc)
    (hnamed : r.Named n N) :
    Ensures (bindNodes self params caller n i nodes) r
      (fun bound r' =>
        if bound then Moved D A K (· = n) [] n r r' ∧ r'.Named n fun s =>
          N s ∨ ∃ k, i ≤ k ∧ k < i + nodes.length ∧ s = Function.paramName params k
        else CallPost D A K (· = n) n r r')
      (FailPost D A K (· = n) [] n r) := by
  induction nodes generalizing i r N with
  | nil =>
    refine ⟨⟨.refl, hst, rfl⟩, hnamed.mono fun s hs => ?_⟩
    rcases hs with hs | ⟨k, hle, hlt, -⟩
    · exact hs
    · simp only [List.length_nil] at hlt
      omega
  | cons node rest ih =>
    unfold bindNodes
    rw [Ensures.bind_iff]
    have hback : ∀ {xs : List VarId} {r₁ : Run}, Frame K noScope r r₁ →
        State D A K xs caller r₁ → State D A K xs n r₁ := by
      intro xs r₁ hf hst₁
      obtain ⟨sc, hsc, -⟩ := hnamed
      exact hst₁.move hst.here (hf.lasting hsc)
    refine (hself.eval (hn node (List.mem_cons_self ..)) (hst.move ha hlive) hflow).mono ?_ ?_
    · rintro (_ | x) r₁ hp
      · obtain ⟨hf, hst₁, hcar, hkind⟩ := hp
        exact ⟨hf.some_scope, hback hf hst₁, hcar, .inr hkind⟩
      obtain ⟨hf, hst₁, hx, hflow₁⟩ := hp
      refine own_declare (hback hf hst₁) hx (by rw [hflow₁]; rfl)
        (fun _ _ he => he.trans hf.some_scope) fun r₂ hm hb => ?_
      have hf₂ : Frame K (· = n) r r₂ := hf.some_scope.trans hm.frame
      have hlive₂ : ∃ sc, r₂.scope? caller = some sc :=
        have ⟨_, hsc⟩ := hlive
        hf₂.lasting hsc
      refine (ih (fun m h => hn m (List.mem_cons_of_mem _ h)) (i := i + 1) hm.state
        (hm.flow.trans hflow₁) hlive₂ ((hnamed.of_frame hf).binds hb)).mono ?_
        fun _ _ he => he.trans hf₂
      rintro (_ | _) r₃ hq
      · exact hq.trans hf₂
      · obtain ⟨hm₃, hnamed₃⟩ := hq
        refine ⟨⟨hf₂.trans hm₃.frame, hm₃.state, ?_⟩, hnamed₃.mono fun s hs => ?_⟩
        · rw [hm₃.flow, hm.flow, hflow₁, hflow]
        · rcases hs with hs | ⟨k, hle, hlt, rfl⟩
          · exact .inl (.inl hs)
          · by_cases hk : k = i
            · exact .inl (.inr (by rw [hk]))
            · simp only [List.length_cons] at hlt
              exact .inr ⟨k, by omega, by omega, rfl⟩
    · rintro (f | _) r₁ he
      · obtain ⟨hf, hst₁, hres, hc⟩ := he
        exact ⟨hf.some_scope, hback hf hst₁, hres, hc⟩
      · trivial

theorem bindMissing_sound (names : List String) (hst : State D A K [] n r)
    (hflow : r.flow = .start) (hnamed : r.Named n N) :
    Ensures (bindMissing n names) r
      (fun _ r' => Moved D A K (· = n) [] n r r' ∧ r'.Named n fun s => N s ∨ s ∈ names)
      (FailPost D A K (· = n) [] n r) := by
  unfold bindMissing
  induction names generalizing r N with
  | nil => exact ⟨⟨.refl, hst, rfl⟩, hnamed.mono fun s hs => hs.resolve_right (by simp)⟩
  | cons name rest ih =>
    simp only [List.forM_eq_forM, List.forM_cons, bind_assoc] at ih ⊢
    refine null_declare hst (by rw [hflow]; rfl) (fun _ _ he => he) fun r₁ hm hb => ?_
    refine (ih hm.state (hm.flow.trans hflow) (hnamed.binds hb)).mono ?_ fun _ _ he =>
      he.trans hm.frame
    rintro _ r₂ ⟨hm₂, hnamed₂⟩
    refine ⟨⟨hm.frame.trans hm₂.frame, hm₂.state, hm₂.flow.trans hm.flow⟩, hnamed₂.mono ?_⟩
    intro s hs
    rw [List.mem_cons] at hs
    exact or_assoc.mpr hs

-- A link to a bound variable gets a name.
theorem link_declare {value : VarId} {k : Exec Unit} {Q : Unit → Run → Prop} {sc : Scope}
    {old : String} (hst : State D A K [] n r) (hres : r.flow.result = none) (hk : ¬K value)
    (hsc : r.scope? caller = some sc) (hin : (old, value) ∈ sc.vars)
    (hfail : ∀ e r', FailPost D A K (· = n) [] n r e r' → E e r')
    (hrest : ∀ r', Moved D A K (· = n) [] n r r' → r.Binds n name r' → Ensures k r' Q E) :
    Ensures (do
      let link ← onHeap (Heap.allocLink value)
      declareIn n name link
      k) r Q E := by
  obtain ⟨v, hv, ho⟩ := hst.sound.bound hsc hin
  obtain ⟨t, w, hstands⟩ := hst.sound.heap.stands ⟨v, hv⟩
  have hleft : w.leftValue = true := by
    refine hstands.left_of_left hst.sound.heap.rules (by simp) hv ?_
    exact hst.sound.heap.rules.bound hv (by simp) ho
  rw [Ensures.bind_iff, onHeap_iff]
  refine (Heap.allocLink_ensures hst.sound.heap hst.closed hstands
    (mt (hstands.closed hst.closed).mpr hk)).mono ?_ fun _ _ he => he
  rintro link h ⟨hstep, hfresh, hd, haimed⟩
  have hkl : ¬K link := by
    intro hkl
    obtain ⟨u, hu⟩ := hst.closed.live hkl
    rw [hfresh] at hu
    cases hu
  have hst' : State D A K [link] n r := hst.relist (by simp) fun y hy => by
    cases List.mem_singleton.mp hy
    exact fun hx => absurd hx hkl
  rw [Ensures.bind_iff]
  refine (declare_loose hst' hstep hd (haimed hleft) hkl hres).mono ?_ hfail
  rintro _ r' ⟨hm, hb⟩
  exact hrest r' hm hb

theorem bindValues_sound (ids : List VarId) {i : Nat} (hst : State D A K [] n r)
    (hflow : r.flow = .start) (hne : caller ≠ n) (hids : (Arguments.values ids).Fit D K caller r)
    (hnamed : r.Named n N) :
    Ensures (bindValues params n i ids) r
      (fun _ r' => Moved D A K (· = n) [] n r r' ∧ r'.Named n fun s =>
        N s ∨ ∃ k, i ≤ k ∧ k < i + ids.length ∧ s = Function.paramName params k)
      (FailPost D A K (· = n) [] n r) := by
  induction ids generalizing i r N with
  | nil =>
    refine ⟨⟨.refl, hst, rfl⟩, hnamed.mono fun s hs => ?_⟩
    rcases hs with hs | ⟨k, hle, hlt, -⟩
    · exact hs
    · simp only [List.length_nil] at hlt
      omega
  | cons value rest ih =>
    obtain ⟨hk, sc, old, hsc, hin⟩ := hids value (List.mem_cons_self ..)
    unfold bindValues
    refine link_declare hst (by rw [hflow]; rfl) hk hsc hin (fun _ _ he => he) fun r₁ hm hb => ?_
    have hrest : (Arguments.values rest).Fit D K caller r₁ := by
      intro x hx
      obtain ⟨hk, sc, old, hsc, hin⟩ := hids x (List.mem_cons_of_mem _ hx)
      exact ⟨hk, sc, old, (hm.frame.scopes caller hne).trans hsc, hin⟩
    refine (ih (i := i + 1) hm.state (hm.flow.trans hflow) hrest (hnamed.binds hb)).mono ?_
      fun _ _ he => he.trans hm.frame
    rintro _ r₂ ⟨hm₂, hnamed₂⟩
    refine ⟨⟨hm.frame.trans hm₂.frame, hm₂.state, hm₂.flow.trans hm.flow⟩,
      hnamed₂.mono fun s hs => ?_⟩
    rcases hs with hs | ⟨k, hle, hlt, rfl⟩
    · exact .inl (.inl hs)
    · by_cases hk : k = i
      · exact .inl (.inr (by rw [hk]))
      · simp only [List.length_cons] at hlt
        exact .inr ⟨k, by omega, by omega, rfl⟩

-- Names that an argument went to, and names that were left.
theorem params_bound {count : Nat} {s : String} (hs : s ∈ params) :
    (False ∨ ∃ i, 0 ≤ i ∧ i < 0 + count ∧ s = Function.paramName params i) ∨
      s ∈ params.drop count := by
  obtain ⟨i, hi, rfl⟩ := List.mem_iff_getElem.mp hs
  by_cases hlt : i < count
  · refine .inl (.inr ⟨i, Nat.zero_le _, by omega, ?_⟩)
    simp [Function.paramName, hi]
  · refine .inr (List.mem_drop_iff_getElem.mpr ⟨i - count, by omega, ?_⟩)
    congr 1
    omega

theorem bindArguments_sound (hself : self.Sound D) {args : Arguments} (hst : State D A K [] n r)
    (hflow : r.flow = .start) (ha : A caller) (hlive : ∃ sc, r.scope? caller = some sc)
    (hne : caller ≠ n) (hargs : args.Fit D K caller r) (hnamed : r.Named n fun _ => False) :
    Ensures (bindArguments self params args caller n) r
      (fun bound r' =>
        if bound then Moved D A K (· = n) [] n r r' ∧ r'.Named n (· ∈ params)
        else CallPost D A K (· = n) n r r')
      (FailPost D A K (· = n) [] n r) := by
  have hmissing : ∀ {r₁ : Run} {count : Nat}, Moved D A K (· = n) [] n r r₁ →
      (r₁.Named n fun s => False ∨ ∃ i, 0 ≤ i ∧ i < 0 + count ∧ s = Function.paramName params i) →
      Ensures (do bindMissing n (params.drop count); return true) r₁
        (fun bound r' =>
          if bound then Moved D A K (· = n) [] n r r' ∧ r'.Named n (· ∈ params)
          else CallPost D A K (· = n) n r r')
        (FailPost D A K (· = n) [] n r) := by
    intro r₁ count hm hnamed₁
    rw [Ensures.bind_iff]
    refine (bindMissing_sound _ hm.state (hm.flow.trans hflow) hnamed₁).mono ?_
      fun _ _ he => he.trans hm.frame
    rintro _ r₂ ⟨hm₂, hnamed₂⟩
    exact ⟨⟨hm.frame.trans hm₂.frame, hm₂.state, hm₂.flow.trans hm.flow⟩,
      hnamed₂.mono fun s hs => params_bound hs⟩
  unfold bindArguments
  cases args with
  | nodes nodes =>
    simp only
    rw [Ensures.bind_iff]
    refine (bindNodes_sound hself nodes hargs hst hflow ha hlive hnamed).mono ?_ fun _ _ he => he
    rintro (_ | _) r₁ hq
    · exact hq
    · exact hmissing hq.1 hq.2
  | values ids =>
    simp only
    rw [Ensures.bind_iff]
    refine (bindValues_sound ids hst hflow hne hargs hnamed).mono ?_ fun _ _ he => he
    rintro _ r₁ hq
    exact hmissing hq.1 hq.2

theorem invoke_sound (hself : self.Sound D) (fuel : Nat) {f : Function} (hf : f.Fit D)
    {args : Arguments} (hst : State D A K [] n r) (hflow : r.flow = .start) (ha : A caller)
    (hlive : ∃ sc, r.scope? caller = some sc) (hne : caller ≠ n)
    (hargs : args.Fit D K caller r) (hnamed : r.Named n fun _ => False)
    (hown : ∀ x, K x → ¬r.heap.OwnedBy x (.scope n)) :
    Ensures (invoke self fuel f args caller n) r (fun _ r' => CallPost D A K (· = n) n r r')
      (FailPost D A K (· = n) [] n r) := by
  rw [invoke, Ensures.bind_iff]
  refine (bindArguments_sound hself hst hflow ha hlive hne hargs hnamed).mono ?_ fun _ _ he => he
  rintro (_ | _) r₁ hq
  · exact hq
  obtain ⟨hm, sc, hsc, hbound⟩ := hq
  have hflow₁ : r₁.flow = .start := hm.flow.trans hflow
  have hleave : ∀ {r₂ : Run}, ExecPost D A K n r₁ r₂ →
      Ensures leaveBody r₂ (fun _ r' => CallPost D A K (· = n) n r r')
        (FailPost D A K (· = n) [] n r) := fun hp =>
    (leaveBody_sound hp).mono (fun _ _ hq => hq.trans hm.frame) fun _ _ he => he.trans hm.frame
  simp only [if_true]
  rcases hbody : f.body with block | native
  · simp only [Function.Fit, hbody] at hf
    rw [Ensures.bind_iff]
    exact (runList_sound hself fuel hf hm.state hflow₁).mono (fun _ _ hp => hleave hp)
      fun _ _ he => he.trans hm.frame
  · simp only [Function.Fit, hbody] at hf
    have hcalled : Called D A K n sc r₁ := by
      refine ⟨hm.state, hflow₁, hsc, fun {name x} hin hk => hown x hk ?_⟩
      exact (hm.frame.keeps.ownedBy hk).mp (hm.state.sound.bound hsc hin)
    rw [Ensures.bind_iff]
    refine (Library.run_sound hself hcalled hf.1 fun a ha => hbound a (hf.2 a ha)).mono ?_
      fun _ _ he => he.some_scope.trans hm.frame
    rintro _ r₂ hp
    exact (leaveBody_iff hp.kind).mpr
      ⟨hm.frame.trans hp.frame.some_scope, hp.state, hp.carries, hp.kind⟩

end Interpreter

-- A call is one level deeper than where it stands.
def Run.deeper (r : Run) : Run :=
  { r with machine := { r.machine with depth := r.machine.depth + 1 } }

def Run.higher (r : Run) : Run :=
  { r with machine := { r.machine with depth := r.machine.depth - 1 } }

theorem Frame.of_deeper (hf : Frame K P r.deeper r') : Frame K P r r'.higher := by
  refine ⟨hf.keeps, hf.scopes, hf.lasting, hf.last, hf.root, ?_, hf.config⟩
  have := hf.depth
  simp only [Run.deeper, Run.higher] at this ⊢
  omega

namespace Interpreter

open Exec

-- The scope of a call, with nothing bound yet.
theorem openCall_ensures {f : Function} (hst : State D A K [] caller r)
    (hres : r.flow.result = none) :
    Ensures (onStore do
      let scope ← Store.createChild caller f.name
      Store.setBelongsTo scope f
      return scope) r
      (fun n r' => Ending D A K caller n [] r r' ∧ r'.flow = r.flow ∧
        (∃ sc, r.scope? caller = some sc) ∧ r'.Named n fun _ => False)
      (FailPost D A K noScope [] caller r) := by
  rw [onStore_iff, Ensures.bind_iff]
  refine (onStore_iff.mp (createChild_ensures hst hres)).mono ?_ fun _ _ he => he
  rintro n st' ⟨he, hflow₁, hlive, sc, hvars, hsc⟩
  rw [Ensures.bind_iff]
  refine (Store.setBelongsTo_ensures he.state.sound hsc).mono ?_ fun _ _ he => he
  rintro _ st'' ⟨hs, hheap, hsc', hothers⟩
  have hm := he.state.rescope hs hheap hsc hsc' rfl rfl (fun _ => .inl) hothers
  exact ⟨he.later hm.frame hm.state, hm.flow.trans hflow₁, hlive, _, hsc', fun _ => False.elim⟩

-- Whatever the body of a call does in its scope, the call leaves the caller's as it was.
theorem enterCall_sound {body : ScopeId → Exec Unit} {f : Function}
    (hst : State D A K [] caller r) (hres : r.flow.result = none)
    (hbody : ∀ n r₁, Ending D A K caller n [] r r₁ → r₁.flow = r.flow → caller ≠ n →
      (∃ sc, r.scope? caller = some sc) → (r₁.Named n fun _ => False) →
      Ensures (body n) r₁.deeper (fun _ r' => CallPost D (inside A n) K (· = n) n r₁.deeper r')
        (FailPost D (inside A n) K (· = n) [] n r₁.deeper)) :
    Ensures (enterCall f caller body) r
      (fun _ r' => CallPost D A K noScope caller r r') (FailPost D A K noScope [] caller r) := by
  rw [enterCall, Ensures.bind_iff, Ensures.get_iff]
  simp only
  split
  · rw [Ensures.bind_iff]
    exact .refl hst hres (D.ordinary (c := .callDepth _) ⟨nofun, nofun⟩)
  rw [Ensures.bind_iff]
  refine (openCall_ensures hst hres).mono ?_ fun _ _ he => he
  rintro n r₁ ⟨he, hflow₁, hlive, hnamed⟩
  have hne : caller ≠ n := by
    rintro rfl
    obtain ⟨sc, hsc⟩ := hlive
    cases he.fresh.symm.trans hsc
  rw [Ensures.bind_iff]
  refine Ensures.modify_iff.mpr ?_
  rw [Ensures.bind_iff, attempt_iff]
  refine (hbody n r₁ he hflow₁ hne hlive hnamed).mono ?_ ?_
  · rintro _ r₂ hp
    rw [Ensures.bind_iff]
    refine Ensures.modify_iff.mpr ?_
    refine (leaveScope_ok (r := r₂.higher) (he.later hp.frame.of_deeper (hp.state.congr rfl))
      hp.carries).mono ?_ fun _ _ he => he
    rintro _ r₃ ⟨hframe, hst₃, hcar, hkind, -⟩
    exact ⟨hframe, hst₃, hcar, hkind ▸ hp.kind⟩
  · rintro (e | _) r₂ hfail
    · obtain ⟨hframe, hst₂, hres₂, hc⟩ := hfail
      refine Ensures.bind_iff.mpr (Ensures.modify_iff.mpr ?_)
      have hst₃ : State D (inside A n) K r₂.flow.result.toList n r₂.higher := by
        rw [hres₂]
        exact hst₂.congr rfl
      exact leaveScope_error (he.later hframe.of_deeper hst₃) hc
    · trivial

-- The arguments are evaluated where the scope of the call is not yet in the way.
theorem invoke_ending (hself : self.Sound D) (fuel : Nat) {f : Function} (hf : f.Fit D)
    {args : Arguments} (hargs : args.Fit D K caller r) (hflow : r.flow = .start) {r₁ : Run}
    (he : Ending D A K caller n [] r r₁) (hflow₁ : r₁.flow = r.flow) (hne : caller ≠ n)
    (hlive : ∃ sc, r.scope? caller = some sc) (hnamed : r₁.Named n fun _ => False) :
    Ensures (invoke self fuel f args caller n) r₁.deeper
      (fun _ r' => CallPost D (inside A n) K (· = n) n r₁.deeper r')
      (FailPost D (inside A n) K (· = n) [] n r₁.deeper) := by
  have hscope : r₁.scope? caller = r.scope? caller := he.frame.scopes caller hne
  have hargs₁ : args.Fit D K caller r₁ := by
    cases args with
    | nodes nodes => exact hargs
    | values ids => exact fun x hx => hscope ▸ hargs x hx
  exact invoke_sound (r := r₁.deeper) hself fuel hf (he.state.congr rfl) (hflow₁.trans hflow)
    (.inl he.outer.here) (hscope ▸ hlive) hne hargs₁ hnamed fun x => he.not_owned

theorem callFunction_sound (hself : self.Sound D) (fuel : Nat) {f : Function} (hf : f.Fit D)
    {args : Arguments} (hargs : args.Fit D K caller r) (hst : State D A K [] caller r)
    (hflow : r.flow = .start) :
    Ensures (callFunction self fuel f args caller) r
      (fun _ r' => CallPost D A K noScope caller r r') (FailPost D A K noScope [] caller r) :=
  enterCall_sound hst (by rw [hflow]; rfl) fun _ _ he hflow₁ hne hlive hnamed =>
    invoke_ending hself fuel hf hargs hflow he hflow₁ hne hlive hnamed

-- An interpreter is sound whatever its fuel.
theorem ofFuelBy_sound {p : Handling} (hp : p.Fit D) (fuel : Nat) : (ofFuelBy p fuel).Sound D := by
  induction fuel with
  | zero => exact ⟨fun _ _ _ => trivial, fun _ _ _ => trivial, fun _ _ _ _ => trivial⟩
  | succ n ih =>
    exact ⟨fun hn hst hflow => nodeBy_sound ih hp hn hst hflow,
      fun hn hst hflow => execNode_sound ih n hn hst hflow,
      fun hf hargs hst hflow => callFunction_sound ih n hf hargs hst hflow⟩

end Interpreter

-- The plain way to handle values is fit where handles may be stale.
theorem Handling.plain_fit (hloose : D.Loose) : Handling.plain.Fit D where
  apply hs hc hready := by
    refine (Operation.calculate_ensures hs hc hready).mono (fun _ _ hg => hg) ?_
    rintro e h' ⟨rfl, hblame⟩
    refine ⟨rfl, ?_⟩
    generalize e.cause = c at hblame ⊢
    cases hblame with
    | ordinary hc => exact .inl (D.ordinary hc)
    | count harity hne => exact .inr ⟨_, harity, hne, rfl⟩
    | stale => exact .inl (hloose _)
  giveUp {A K scope r ids} hst _ hkind := by
    have hst' : State D A K (ids ++ r.flow.result.toList) scope r :=
      hst.same fun y => by simp [or_comm]
    refine (Exec.releaseAll_ensures (P := noScope) ids hst').mono ?_ fun _ _ he => he
    rintro _ r' ⟨hm, -⟩
    exact ⟨hm, fun x hx => .inr ⟨by rw [hm.flow, hkind], hloose⟩⟩

theorem Interpreter.ofFuel_sound (hloose : D.Loose) (fuel : Nat) : (ofFuel fuel).Sound D := by
  rw [← ofFuelBy_plain]
  exact ofFuelBy_sound (Handling.plain_fit hloose) fuel

end FinLang

import FinLang.Proofs.Machine.Call
import FinLang.Proofs.Machine.Watch
import FinLang.Proofs.Operation.Links

namespace FinLang

open Heap (Keeps Step Safe)

-- What a part may bind in the scope that it is executed in.
structure Permit where
  scope : ScopeId
  name : String → Prop
  function : Function → Prop

-- More bindings, behind those that are there.
def Scope.extend (sc : Scope) (vars : List (String × VarId)) (funcs : List Function) : Scope :=
  { sc with
    vars := sc.vars ++ vars
    funcs := sc.funcs ++ funcs }

def Permit.Grows (P : Permit) (before after : Option Scope) : Prop :=
  ∃ vars funcs, after = before.map (·.extend vars funcs) ∧ (∀ b ∈ vars, P.name b.1) ∧
    ∀ f ∈ funcs, P.function f

-- Whole trees of temporaries. Nothing else leads to them.
structure Heap.Hidden (h : Heap) (K : VarId → Prop) : Prop where
  closed : h.Closed K
  left : ∀ {y v}, K y → h.var? y = some v → v.leftValue = false

namespace Run

-- A machine at work that holds together, whatever travels.
structure Fine (r : Run) : Prop where
  sound : r.store.Sound []
  depth : r.machine.depth ≤ r.machine.config.maxCallDepth

-- Nothing of the set travels.
def Clear (r : Run) (K : VarId → Prop) : Prop :=
  ∀ x ∈ r.flow.result, ¬K x

-- Links lead to what some scope binds.
def Anchored (r : Run) : Prop :=
  ∀ l t, r.heap.Points l t → ∃ s, r.heap.OwnedBy t (.scope s)

-- A machine that still holds together.
structure Follows (r r' : Run) : Prop where
  fine : r'.Fine
  config : r'.machine.config = r.machine.config
  anchored : r.Anchored → r'.Anchored

-- A variable that belongs to nothing hidden.
def Apart (r : Run) (x : VarId) : Prop :=
  ∀ K, r.heap.Hidden K → ¬K x

end Run

-- What is hidden stays as it is, unless it travels.
def Guards (r r' : Run) : Prop :=
  ∀ K, r.heap.Hidden K → r.Clear K → Keeps K r.heap r'.heap ∧ r'.Clear K

-- Links are old ones, or belong to a scope and lead to what a scope binds or an old link led to.
def Linking (n : ScopeId) (r r' : Run) : Prop :=
  ∀ l t, r'.heap.Points l t → r.heap.Points l t ∨
    r'.heap.OwnedBy l (.scope n) ∧ ((∃ s, r'.heap.OwnedBy t (.scope s)) ∨ ∃ k, r.heap.Points k t)

-- All scopes are as before.
structure Calm (r r' : Run) : Prop where
  fine : r'.Fine
  config : r'.machine.config = r.machine.config
  depth : r'.machine.depth = r.machine.depth
  scopes : ∀ s, r'.scope? s = r.scope? s
  guards : Guards r r'
  links : r.heap.Unlinking r'.heap

-- One scope may have gained bindings.
structure Moves (P : Permit) (r r' : Run) : Prop where
  fine : r'.Fine
  config : r'.machine.config = r.machine.config
  depth : r'.machine.depth = r.machine.depth
  others : ∀ s, s ≠ P.scope → r'.scope? s = r.scope? s
  own : P.Grows (r.scope? P.scope) (r'.scope? P.scope)
  guards : Guards r r'
  links : Linking P.scope r r'

-- Only the heap has changed, and of what is hidden those sets are as they were
-- that meet a condition.
structure Still (J : (VarId → Prop) → Prop) (r r' : Run) : Prop where
  fine : r'.Fine
  config : r'.machine.config = r.machine.config
  depth : r'.machine.depth = r.machine.depth
  scopes : ∀ s, r'.scope? s = r.scope? s
  flow : r'.flow = r.flow
  keeps : ∀ K, r.heap.Hidden K → J K → Keeps K r.heap r'.heap
  links : r.heap.Unlinking r'.heap

abbrev Quiet : Run → Run → Prop :=
  Still fun _ => True

-- Behind an expression there is its value, which was not hidden, unless `exit`
-- interrupted it.
def Evaluated (r : Run) : Option VarId → Run → Prop
  | some x, r' => Quiet r r' ∧ r.Apart x
  | none, r' => Calm r r'

-- Where a part fails, or stops for want of fuel.
def Halted (R : Run → Run → Prop) (r : Run) : Halt → Run → Prop
  | .failure _, r' => R r r'
  | .outOfFuel, r' => r.Follows r'

abbrev nothing (_ : VarId) : Prop :=
  False

variable {α : Type} {P : Permit} {J : (VarId → Prop) → Prop} {K : VarId → Prop} {n scope : ScopeId}
  {r r₀ r' r'' : Run} {x y : VarId} {name : String} {E : Halt → Run → Prop} {e : Halt}

namespace Heap.Hidden

variable {h h' : Heap}

theorem nothing : h.Hidden nothing :=
  ⟨⟨False.elim, fun _ => .rfl, fun _ _ => .rfl⟩, fun h => h.elim⟩

theorem later (hk : h.Hidden K) (hs : h.Sound []) (hs' : h'.Sound []) (hkeep : Keeps K h h') :
    h'.Hidden K where
  closed := hk.closed.keeps hs hs' hkeep
  left hy hv := hk.left hy ((hkeep _ hy).symm.trans hv)

-- All temporaries together are hidden.
theorem temps (hs : h.Sound []) : h.Hidden (h.Temps FinLang.nothing) where
  closed := hs.closed_temps nothing.closed
  left {y v} hy hv := by
    obtain ⟨x, ⟨u, hu, ho⟩, hb⟩ := hy.resolve_left id
    rw [hs.flagged.below hb hu hv]
    exact hs.rules.temporary hu (by simp) ho

end Heap.Hidden

-- What a scope binds is not hidden.
theorem Run.Fine.apart_of_bound {sc : Scope} (hf : r.Fine) (hsc : r.scope? scope = some sc)
    (hin : (name, x) ∈ sc.vars) : r.Apart x := by
  intro K hk hx
  obtain ⟨v, hv, ho⟩ := hf.sound.bound hsc hin
  have := hf.sound.heap.rules.bound hv (by simp) ho
  rw [hk.left hx hv] at this
  cases this

namespace Run.Follows

theorem refl (hf : r.Fine) : r.Follows r :=
  ⟨hf, rfl, id⟩

theorem trans (h₁ : r.Follows r') (h₂ : r'.Follows r'') : r.Follows r'' :=
  ⟨h₂.fine, h₂.config.trans h₁.config, fun h => h₂.anchored (h₁.anchored h)⟩

end Run.Follows

namespace Still

theorem refl (hf : r.Fine) : Still J r r :=
  ⟨hf, rfl, rfl, fun _ => rfl, rfl, fun _ _ _ => .refl, .refl⟩

theorem trans (hf : r.Fine) (h₁ : Still J r r') (h₂ : Still J r' r'') : Still J r r'' where
  fine := h₂.fine
  config := h₂.config.trans h₁.config
  depth := h₂.depth.trans h₁.depth
  scopes s := (h₂.scopes s).trans (h₁.scopes s)
  flow := h₂.flow.trans h₁.flow
  keeps K hk hj := by
    have hkeep := h₁.keeps K hk hj
    exact hkeep.trans (h₂.keeps K (hk.later hf.sound.heap h₁.fine.sound.heap hkeep) hj)
  links := h₁.links.trans h₂.links

theorem mono {J' : (VarId → Prop) → Prop} (h : Still J r r')
    (hj : ∀ K, r.heap.Hidden K → J' K → J K) : Still J' r r' :=
  { h with keeps := fun K hk hj' => h.keeps K hk (hj K hk hj') }

theorem quiet (h : Still J r r') (hj : ∀ K, r.heap.Hidden K → J K) : Quiet r r' :=
  h.mono fun K hk _ => hj K hk

theorem hidden (h : Still J r r') (hf : r.Fine) (hk : r.heap.Hidden K) (hj : J K) :
    r'.heap.Hidden K :=
  hk.later hf.sound.heap h.fine.sound.heap (h.keeps K hk hj)

theorem clear (h : Still J r r') : r'.Clear K ↔ r.Clear K := by
  rw [Run.Clear, Run.Clear, h.flow]

theorem calm (h : Still J r r') (hj : ∀ K, r.heap.Hidden K → r.Clear K → J K) : Calm r r' where
  fine := h.fine
  config := h.config
  depth := h.depth
  scopes := h.scopes
  guards K hk hc := ⟨h.keeps K hk (hj K hk hc), h.clear.mpr hc⟩
  links := h.links

end Still

theorem Run.Apart.earlier (hx : r'.Apart x) (h : Quiet r r') (hf : r.Fine) : r.Apart x :=
  fun K hk => hx K (h.hidden hf hk trivial)

-- A part that makes use of a value.
theorem Quiet.use (h : Quiet r₀ r) (hf : r₀.Fine) (hx : r₀.Apart x)
    (hs : Still (fun K => ¬K x) r r') : Quiet r₀ r' :=
  (Still.trans (J := fun K => ¬K x) hf (h.mono fun _ _ _ => trivial) hs).quiet fun K hk => hx K hk

theorem Guards.trans (hf : r.Fine) (hf' : r'.Fine) (h₁ : Guards r r') (h₂ : Guards r' r'') :
    Guards r r'' := by
  intro K hk hc
  obtain ⟨hkeep, hc'⟩ := h₁ K hk hc
  exact (h₂ K (hk.later hf.sound.heap hf'.sound.heap hkeep) hc').imp_left hkeep.trans

namespace Calm

theorem refl (hf : r.Fine) : Calm r r :=
  (Still.refl (J := fun _ => True) hf).calm fun _ _ _ => trivial

theorem trans (hf : r.Fine) (h₁ : Calm r r') (h₂ : Calm r' r'') : Calm r r'' where
  fine := h₂.fine
  config := h₂.config.trans h₁.config
  depth := h₂.depth.trans h₁.depth
  scopes s := (h₂.scopes s).trans (h₁.scopes s)
  guards := h₁.guards.trans hf h₁.fine h₂.guards
  links := h₁.links.trans h₂.links

theorem moves (h : Calm r r') : Moves P r r' where
  fine := h.fine
  config := h.config
  depth := h.depth
  others s _ := h.scopes s
  own := ⟨[], [], by rw [h.scopes]; cases r.scope? P.scope <;> simp [Scope.extend], by simp, by simp⟩
  guards := h.guards
  links l t hp := .inl (h.links l t hp)

-- Another flow, which brings nothing hidden with it.
theorem of_flow {f : Flow} (hf : r.Fine)
    (hres : ∀ K, r.heap.Hidden K → r.Clear K → ∀ x ∈ f.result, ¬K x) :
    Calm r { r with flow := f } where
  fine := ⟨hf.sound, hf.depth⟩
  config := rfl
  depth := rfl
  scopes _ := rfl
  guards K hk hc := ⟨.refl, hres K hk hc⟩
  links := .refl

end Calm

-- Another kind of flow.
theorem Calm.withKind {k : FlowKind} (h : Calm r₀ r) (hf : r₀.Fine) :
    Calm r₀ { r with flow := r.flow.withKind k } :=
  h.trans hf (.of_flow h.fine fun _ _ hc => hc)

theorem Quiet.calm (h : Quiet r r') : Calm r r' :=
  Still.calm h fun _ _ _ => trivial

theorem Quiet.moves (h : Quiet r r') : Moves P r r' :=
  h.calm.moves

namespace Permit

theorem Grows.trans {a b c : Option Scope} (h₁ : P.Grows a b) (h₂ : P.Grows b c) : P.Grows a c := by
  obtain ⟨v₁, f₁, rfl, hv₁, hf₁⟩ := h₁
  obtain ⟨v₂, f₂, rfl, hv₂, hf₂⟩ := h₂
  refine ⟨v₁ ++ v₂, f₁ ++ f₂, by cases a <;> simp [Scope.extend], fun b hb => ?_, fun f hf => ?_⟩
  · exact (List.mem_append.mp hb).elim (hv₁ b) (hv₂ b)
  · exact (List.mem_append.mp hf).elim (hf₁ f) (hf₂ f)

end Permit

namespace Moves

theorem refl (hf : r.Fine) : Moves P r r :=
  (Calm.refl hf).moves

-- What is bound stays bound.
theorem bound {s : ScopeId} {sc : Scope} (hm : Moves P r r') (hsc : r.scope? s = some sc)
    (hin : (name, x) ∈ sc.vars) : ∃ sc', r'.scope? s = some sc' ∧ (name, x) ∈ sc'.vars := by
  by_cases heq : s = P.scope
  · obtain ⟨vars, funcs, hown, -⟩ := hm.own
    rw [← heq, hsc] at hown
    exact ⟨_, hown, List.mem_append_left _ hin⟩
  · exact ⟨sc, (hm.others s heq).trans hsc, hin⟩

-- A scope goes on owning what it owns.
theorem owned {s : ScopeId} (hm : Moves P r r') (hf : r.Fine) (hx : r.heap.OwnedBy x (.scope s)) :
    r'.heap.OwnedBy x (.scope s) := by
  obtain ⟨sc, name, hsc, hin⟩ := hf.sound.owned hx
  obtain ⟨sc', hsc', hin'⟩ := hm.bound hsc hin
  exact hm.fine.sound.bound hsc' hin'

theorem linking (hm : Moves P r' r'') (hf : r'.Fine) (hl : Linking P.scope r r') :
    Linking P.scope r r'' := by
  have hold : ∀ {k t}, r'.heap.Points k t →
      r.heap.Points k t ∨ r''.heap.OwnedBy k (.scope P.scope) ∧
        ((∃ s, r''.heap.OwnedBy t (.scope s)) ∨ ∃ k, r.heap.Points k t) := fun hp =>
    (hl _ _ hp).imp_right fun ⟨hk, ht⟩ =>
      ⟨hm.owned hf hk, ht.imp_left fun ⟨s, ht⟩ => ⟨s, hm.owned hf ht⟩⟩
  intro l t hp
  rcases hm.links l t hp with hp | ⟨hown, ht | ⟨k, hk⟩⟩
  · exact hold hp
  · exact .inr ⟨hown, .inl ht⟩
  · refine .inr ⟨hown, ?_⟩
    rcases hold hk with hk | ⟨-, ht⟩
    · exact .inr ⟨k, hk⟩
    · exact ht

theorem trans (hf : r.Fine) (h₁ : Moves P r r') (h₂ : Moves P r' r'') : Moves P r r'' where
  fine := h₂.fine
  config := h₂.config.trans h₁.config
  depth := h₂.depth.trans h₁.depth
  others s hs := (h₂.others s hs).trans (h₁.others s hs)
  own := h₁.own.trans h₂.own
  guards := h₁.guards.trans hf h₁.fine h₂.guards
  links := h₂.linking h₁.fine h₁.links

-- So links stay where they belong.
theorem follows (hm : Moves P r r') (hf : r.Fine) : r.Follows r' where
  fine := hm.fine
  config := hm.config
  anchored ha l t hp := by
    have hold : ∀ {k}, r.heap.Points k t → ∃ s, r'.heap.OwnedBy t (.scope s) := fun hk =>
      (ha _ t hk).imp fun _ ht => hm.owned hf ht
    rcases hm.links l t hp with hp | ⟨-, ht | ⟨k, hk⟩⟩
    · exact hold hp
    · exact ht
    · exact hold hk

end Moves

theorem Calm.follows (h : Calm r r') (hf : r.Fine) : r.Follows r' :=
  (h.moves (P := ⟨default, fun _ => False, fun _ => False⟩)).follows hf

theorem Still.follows (h : Still J r r') (hf : r.Fine) : r.Follows r' where
  fine := h.fine
  config := h.config
  anchored ha l t hp := by
    obtain ⟨s, ht⟩ := ha l t (h.links l t hp)
    obtain ⟨sc, name, hsc, hin⟩ := hf.sound.owned ht
    exact ⟨s, h.fine.sound.bound ((h.scopes s).trans hsc) hin⟩

namespace Halted

variable {R R' : Run → Run → Prop}

theorem mono (h : Halted R r e r') (hR : ∀ r', R r r' → R' r r') : Halted R' r e r' := by
  cases e with
  | failure f => exact hR r' h
  | outOfFuel => exact h

theorem locate {s : Option Span} (h : Halted R r e r') : Halted R r (e.locate s) r' := by
  cases e <;> exact h

theorem later (h : Halted R r' e r'') (hr : r.Follows r') (hR : ∀ r'', R r' r'' → R r r'') :
    Halted R r e r'' := by
  cases e with
  | failure f => exact hR _ h
  | outOfFuel => exact hr.trans h

end Halted

-- Conditions that depend on something are met together if each is met.
theorem Ensures.all {ε σ ι : Type} {x : ExceptT ε (StateM σ) α} {s : σ} {p : ι → Prop}
    {Q : ι → α → σ → Prop} {E : ι → ε → σ → Prop} (h : ∀ i, p i → Ensures x s (Q i) (E i)) :
    Ensures x s (fun a s' => ∀ i, p i → Q i a s') (fun e s' => ∀ i, p i → E i e s') := by
  unfold Ensures at *
  split
  all_goals
    rename_i heq
    intro i hp
    have := h i hp
    rwa [heq] at this

namespace Exec

-- An operation on the heap that leaves it alone if it can fail.
theorem onHeap_still {op : HeapM α} {Q : (VarId → Prop) → α → Heap → Prop} {F : Prop} (hf : r.Fine)
    (hlinks : ∀ {I}, Heap.Durable I → Heap.Upholds I op) (hJ : J nothing)
    (hop : ∀ K, r.heap.Hidden K → J K → Ensures op r.heap
      (fun a h => (∃ T, Step K T [] r.heap h) ∧ Q K a h) fun _ h => F ∧ h = r.heap) :
    Ensures (onHeap op) r
      (fun a r' => Still J r r' ∧ ∀ K, r.heap.Hidden K → J K → Q K a r'.heap)
      (fun e r' => F ∧ (∃ f, e = .failure f) ∧ r' = r) := by
  have hnone : r.heap.Hidden nothing ∧ J nothing := ⟨.nothing, hJ⟩
  have hpoints := (hlinks Heap.durable_within).unlinking hf.sound.heap.forest.arena
  rw [onHeap_iff]
  refine ((Ensures.all (p := fun K => r.heap.Hidden K ∧ J K) fun K hK => hop K hK.1 hK.2).and
    hpoints).mono ?_ ?_
  · rintro a h ⟨hall, hunlinking⟩
    obtain ⟨⟨T, hstep⟩, -⟩ := hall nothing hnone
    refine ⟨⟨⟨hf.sound.step hstep, hf.depth⟩, rfl, rfl, fun _ => rfl, rfl, fun K hk hj => ?_,
      hunlinking⟩, fun K hk hj => (hall K ⟨hk, hj⟩).2⟩
    obtain ⟨⟨T, hstep⟩, -⟩ := hall K ⟨hk, hj⟩
    exact hstep.keeps
  · rintro f h ⟨hall, -⟩
    obtain ⟨hF, rfl⟩ := hall nothing hnone
    exact ⟨hF, ⟨f, rfl⟩, rfl⟩

theorem release_still (hf : r.Fine) :
    Ensures (release x) r
      (fun _ r' => Still (fun K => ¬K x) r r' ∧
        ∀ y, r.heap.Held y → y ≠ x → Heap.Stays r.heap r'.heap y) E := by
  refine (onHeap_still (F := False)
    (Q := fun _ _ h => ∀ y, r.heap.Held y → y ≠ x → Heap.Stays r.heap h y) hf (·.release) id
    fun K hk hx => ?_).mono (fun _ _ hq => ⟨hq.1, hq.2 nothing .nothing id⟩) fun _ _ he => he.1.elim
  exact (Heap.release_ensures hf.sound.heap hk.closed fun _ => hx).mono
    (fun _ _ hq => ⟨⟨_, hq.1⟩, hq.2.2⟩) fun _ _ he => he

-- A temporary that was not there before.
theorem temporary_quiet {op : HeapM VarId} (hf : r.Fine)
    (hlinks : ∀ {I}, Heap.Durable I → Heap.Upholds I op)
    (hop : ∀ K, r.heap.Hidden K →
      Ensures op r.heap (fun x h => Heap.Temporary K r.heap x h) fun _ _ => False) :
    Ensures (onHeap op) r
      (fun x r' => Quiet r r' ∧ r.Apart x ∧ r'.heap.Detached x ∧ r.heap.var? x = none) E := by
  refine (onHeap_still (J := fun _ => True) (F := False)
    (Q := fun K x h => ¬K x ∧ h.Detached x ∧ r.heap.var? x = none) hf hlinks trivial
    fun K hk _ => ?_).mono ?_ fun _ _ he => he.1.elim
  · refine (hop K hk).mono (fun x h ht => ⟨⟨_, ht.step⟩, fun hx => ?_, ht.detached, ht.fresh⟩)
      fun _ _ => False.elim
    obtain ⟨v, hv⟩ := hk.closed.live hx
    rw [ht.fresh] at hv
    cases hv
  · rintro x r' ⟨hs, hq⟩
    exact ⟨hs, fun K hk => (hq K hk trivial).1, (hq nothing .nothing trivial).2⟩

theorem alloc_quiet {p : Payload} (hf : r.Fine) (hp : p.elements = #[]) (hl : ∀ t, p ≠ .link t) :
    Ensures (onHeap (Heap.alloc p)) r
      (fun x r' => Quiet r r' ∧ r.Apart x ∧ r'.heap.Detached x ∧ r.heap.var? x = none) E :=
  temporary_quiet hf (·.alloc hl) fun _ hk =>
    Heap.alloc_ensures hf.sound.heap (fun _ => hk.closed.live) hp hl

theorem duplicate_quiet (hf : r.Fine) (hx : r.heap.Live x) :
    Ensures (onHeap (Heap.duplicate x)) r
      (fun y r' => Quiet r r' ∧ r.Apart y ∧ r'.heap.Detached y ∧ r.heap.var? y = none) E :=
  temporary_quiet hf (·.duplicate) fun _ hk =>
    Heap.duplicate_ensures hf.sound.heap (fun _ => hk.closed.live) hx

-- A value becomes a temporary of its own, unless it is no more.
theorem own_still (hf : r.Fine) :
    Ensures (own x) r
      (fun y r' => Still (fun K => ¬K x) r r' ∧ r'.heap.Detached y ∧
        ∀ K, r.heap.Hidden K → ¬K x → ¬K y)
      (fun e r' => (∃ f, e = .failure f) ∧ r' = r) := by
  rw [own, Ensures.bind_iff]
  by_cases hlive : r.heap.Live x
  swap
  · exact (readHeap_error (f := fun h => h.lookup x) (Heap.lookup_stale hlive)).mpr ⟨⟨_, rfl⟩, rfl⟩
  obtain ⟨v, hv⟩ := hlive
  rw [readHeap_ok (Heap.lookup_eq hv)]
  split
  · rename_i hown
    simp only [Bool.and_eq_true, decide_eq_true_eq] at hown
    exact ⟨.refl hf, ⟨v, hv, hown.1.1⟩, fun _ _ hx => hx⟩
  · rw [Ensures.bind_iff]
    refine (duplicate_quiet hf ⟨v, hv⟩).mono ?_ fun _ _ he => he
    rintro y r₁ ⟨hq, hy, hd, hfresh⟩
    rw [Ensures.bind_iff]
    refine (release_still (x := x) hq.fine).mono ?_ fun _ _ he => he
    rintro _ r₂ ⟨hs, hstay⟩
    have hne : y ≠ x := by
      rintro rfl
      cases hfresh.symm.trans hv
    exact ⟨Still.trans hf (hq.mono fun _ _ _ => trivial) hs, (hstay y hd.held hne).ownedBy hd,
      fun K hk _ => hy K hk⟩

-- Another variable travels now.
theorem setResult_calm (hf : r₀.Fine) (h : Calm r₀ r)
    (hx : ∀ K, r₀.heap.Hidden K → r₀.Clear K → ¬K x) :
    Ensures (setResult x) r (fun _ r' => Calm r₀ r') E := by
  rw [setResult, Ensures.bind_iff, flow_iff, Ensures.bind_iff, Ensures.modify_iff]
  generalize hr₁ : Run.mk r.machine { r.flow with result := some x } r.last = r₁
  have hheap : r₁.heap = r.heap := by rw [← hr₁]
  have hclear : ∀ K, r₀.heap.Hidden K → r₀.Clear K → r₁.Clear K := by
    intro K hk hc y hy
    subst hr₁
    cases hy
    exact hx K hk hc
  have hfine : r₁.Fine := hr₁ ▸ ⟨h.fine.sound, h.fine.depth⟩
  -- What travelled before may be released, it is not hidden.
  have hend : ∀ {J : (VarId → Prop) → Prop} {r₂}, Still J r₁ r₂ →
      (∀ K, r₀.heap.Hidden K → r₀.Clear K → J K) → Calm r₀ r₂ := by
    intro J r₂ hs hJ
    refine ⟨hs.fine, hs.config.trans ?_, hs.depth.trans ?_, fun s => (hs.scopes s).trans ?_,
      fun K hk hc => ?_, h.links.trans (hheap ▸ hs.links)⟩
    · exact hr₁ ▸ h.config
    · exact hr₁ ▸ h.depth
    · exact hr₁ ▸ h.scopes s
    · have hkeep := (h.guards K hk hc).1
      have hk₁ := hk.later hf.sound.heap h.fine.sound.heap hkeep
      have hkeep₁ := hs.keeps K (hheap ▸ hk₁) (hJ K hk hc)
      exact ⟨hkeep.trans (hheap ▸ hkeep₁), hs.clear.mpr (hclear K hk hc)⟩
  rcases hres : r.flow.result with _ | y
  · exact hend (.refl (J := fun _ => True) hfine) fun _ _ _ => trivial
  · refine (release_still (x := y) hfine).mono (fun _ _ hq => ?_) fun _ _ he => he
    exact hend hq.1 fun K hk hc => (h.guards K hk hc).2 y hres

theorem rescueResult_calm (hf : r.Fine) :
    Ensures (rescueResult n) r (fun _ r' => Calm r r')
      (fun e r' => (∃ f, e = .failure f) ∧ r' = r) := by
  rw [rescueResult, Ensures.bind_iff, flow_iff]
  rcases hres : r.flow.result with _ | x
  · exact .refl hf
  simp only
  by_cases hlive : r.heap.Live x
  swap
  · rw [Ensures.bind_iff]
    exact (readHeap_error (f := fun h => h.resolve x) (Heap.resolve_stale hlive)).mpr ⟨⟨_, rfl⟩, rfl⟩
  obtain ⟨t, w, hstands⟩ := hf.sound.heap.stands hlive
  obtain ⟨o, ho, -⟩ := hf.sound.heap.owningScope_ok ⟨w, hstands.var⟩
  rw [Ensures.bind_iff, readHeap_ok hstands.resolve, Ensures.bind_iff, readHeap_ok ho]
  split
  · rw [Ensures.bind_iff]
    refine (duplicate_quiet hf ⟨w, hstands.var⟩).mono ?_ fun _ _ he => he
    rintro y r₁ ⟨hq, hy, ⟨v, hv, -⟩, -⟩
    rw [Ensures.bind_iff]
    refine (onHeap_still (J := fun K => ¬K y) (Q := fun _ _ _ => True) (F := False) hq.fine
      (·.setWriteProtected) id
      fun K hk hky => ?_).mono ?_ fun _ _ he => he.1.elim
    · refine (Heap.update_iff hv).mpr ⟨⟨fun _ => False, ?_⟩, trivial⟩
      exact .change hq.fine.sound.heap.change_protected hky fun _ => rfl
    · rintro _ r₂ ⟨hs, -⟩
      exact setResult_calm hf (hq.use hf hy hs).calm fun K hk _ => hy K hk
  · split
    · rename_i hne
      have hleft := hstands.left hf.sound.heap.rules (by simp) hne
      refine setResult_calm hf (.refl hf) fun K hk _ hkt => ?_
      rw [hk.left hkt hstands.var] at hleft
      cases hleft
    · exact .refl hf

end Exec

end FinLang

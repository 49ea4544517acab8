import FinLang.Proofs.Machine.Nesting

namespace FinLang

open Heap (Keeps Step)

-- The names that a declaration introduces, and the function that a definition
-- describes.
def Node.Declares (node : Node) (name : String) : Prop :=
  node.kind = .declare ∧ ∃ c ∈ node.children, ∃ init, Interpreter.declarator c = .ok (name, init)

def Node.Defines (node : Node) (f : Function) : Prop :=
  node.kind = .function ∧ Interpreter.definition node = .ok f

-- What the declarations and definitions bind that are let through in a scope.
def Permit.of (ok : Point → Run → Bool) (scope : ScopeId) : Permit where
  scope := scope
  name s := ∃ node r, ok (.exec node scope) r = true ∧ node.Declares s
  function f := ∃ node r, ok (.exec node scope) r = true ∧ node.Defines f

-- Variables that are handed over are bound in some scope.
def Arguments.Bound (r : Run) : Arguments → Prop
  | .nodes _ => True
  | .values ids => ∀ x ∈ ids, ∃ s sc name, r.scope? s = some sc ∧ (name, x) ∈ sc.vars

structure Interpreter.Orderly (ok : Point → Run → Bool) (i : Interpreter) : Prop where
  eval : ∀ {r node scope}, r.Fine →
    Ensures (i.eval node scope) r (Evaluated r) (Halted Calm r)
  exec : ∀ {r node scope}, r.Fine →
    Ensures (i.exec node scope) r (fun _ r' => Moves (.of ok scope) r r')
      (Halted (Moves (.of ok scope)) r)
  call : ∀ {r f args caller}, r.Fine → args.Bound r →
    Ensures (i.call f args caller) r (fun _ r' => Calm r r') (Halted Calm r)

variable {α : Type} {P : Permit} {K : VarId → Prop} {ok : Point → Run → Bool} {n scope : ScopeId}
  {r r₀ r' r'' : Run} {x : VarId} {name : String} {E : Halt → Run → Prop} {self : Interpreter}
  {node : Node} {e : Halt}

-- A part that makes use of a value that was not hidden.
theorem Calm.use (h : Calm r₀ r) (hf : r₀.Fine) {J : (VarId → Prop) → Prop}
    (hJ : ∀ K, r₀.heap.Hidden K → J K) (hs : Still J r r') : Calm r₀ r' where
  fine := hs.fine
  config := hs.config.trans h.config
  depth := hs.depth.trans h.depth
  scopes s := (hs.scopes s).trans (h.scopes s)
  guards K hk hc := by
    obtain ⟨hkeep, hc'⟩ := h.guards K hk hc
    have hk' := hk.later hf.sound.heap h.fine.sound.heap hkeep
    exact ⟨hkeep.trans (hs.keeps K hk' (hJ K hk)), hs.clear.mpr hc'⟩
  links := h.links.trans hs.links

theorem Evaluated.later {v : Option VarId} (h : Evaluated r v r') (hq : Quiet r₀ r)
    (hf : r₀.Fine) : Evaluated r₀ v r' := by
  cases v with
  | some x => exact ⟨hq.trans hf h.1, h.2.earlier hq hf⟩
  | none => exact hq.calm.trans hf h

theorem Halted.calm_later (h : Halted Calm r e r') (hc : Calm r₀ r) (hf : r₀.Fine) :
    Halted Calm r₀ e r' :=
  h.later (hc.follows hf) fun _ => hc.trans hf

-- A search comes upon living scopes.
theorem Scopes.exists_of_search {st : Store} {f : ScopeId → Scope → Option α} {a : α} {s : ScopeId}
    (hf : st.scopes.search f s = some a) : ∃ t sc, st.scope? t = some sc ∧ f t sc = some a := by
  unfold Scopes.search at hf
  generalize st.scopes.arena.slots.size + 1 = n at hf
  induction n generalizing s with
  | zero => cases hf
  | succ n ih =>
    unfold Scopes.searchWithin at hf
    split at hf
    · cases hf
    · rename_i sc hsc
      split at hf
      · rename_i found hfound
        cases hf
        exact ⟨s, sc, hsc, hfound⟩
      · obtain ⟨p, -, hf⟩ := Option.bind_eq_some_iff.mp hf
        exact ih hf

namespace Exec

theorem located_halted {R : Run → Run → Prop} {Q : α → Run → Prop} {s : Option Span} {part : Exec α}
    (h : Ensures part r Q (Halted R r)) : Ensures (located s part) r Q (Halted R r) :=
  located_iff.mpr (h.mono (fun _ _ hq => hq) fun _ _ he => he.locate)

theorem releaseOption_still {last : Option VarId} (hf : r.Fine) :
    Ensures (last.forM release) r
      (fun _ r' => Still (fun K => ∀ x ∈ last, ¬K x) r r') E := by
  cases last with
  | none => exact .refl hf
  | some x =>
    exact (release_still hf).mono (fun _ _ hq => hq.1.mono fun K _ hx => hx x rfl) fun _ _ he => he

-- What a call has given back travels on.
theorem setResults_calm {result : Option VarId} (hf : r₀.Fine) (h : Calm r₀ r)
    (hx : ∀ x ∈ result, r₀.Apart x) :
    Ensures (result.forM setResult) r (fun _ r' => Calm r₀ r') E := by
  cases result with
  | none => exact h
  | some x => exact setResult_calm hf h fun K hk _ => hx x rfl K hk

theorem releaseAll_still {ids : List VarId} (hf : r.Fine) :
    Ensures (onHeap (Heap.releaseAll ids)) r
      (fun _ r' => Still (fun K => ∀ x ∈ ids, ¬K x) r r') E := by
  refine (onHeap_still (F := False) (Q := fun _ _ _ => True) hf (·.releaseAll) (by simp)
    fun K hk hx => ?_).mono (fun _ _ hq => hq.1) fun _ _ he => he.1.elim
  exact (Heap.releaseAll_ensures ids hf.sound.heap hk.closed fun x hin _ => hx x hin).mono
    (fun _ _ hq => ⟨⟨_, hq.1⟩, trivial⟩) fun _ _ he => he

-- Behind a part that fails, what waits is released.
theorem onFailure_calm {part : Exec α} {Q : α → Run → Prop} {cleanup : Exec Unit}
    {J : (VarId → Prop) → Prop} (hf : r₀.Fine) (hc : Calm r₀ r) (hJ : ∀ K, r₀.heap.Hidden K → J K)
    (hpart : Ensures part r Q (Halted Calm r))
    (hclean : ∀ r', r'.Fine → Ensures cleanup r' (fun _ r'' => Still J r' r'') fun _ _ => False) :
    Ensures (onFailure part cleanup) r Q (Halted Calm r₀) := by
  rw [onFailure_iff]
  refine hpart.mono (fun _ _ hq => hq) ?_
  rintro (f | _) r' he
  · have hc' : Calm r₀ r' := hc.trans hf he
    exact (hclean r' hc'.fine).mono (fun _ r'' hs => hc'.use hf hJ hs) fun _ _ => False.elim
  · exact he.calm_later hc hf

end Exec

namespace Interpreter

open Exec

theorem allocNull_evaluated (hf : r.Fine) : Ensures allocNull r (Evaluated r) E := by
  rw [allocNull, Ensures.bind_iff]
  refine (alloc_quiet (p := .null) hf rfl (by simp)).mono ?_ fun _ _ he => he
  rintro x r' ⟨hq, hx, -⟩
  exact ⟨hq, hx⟩

theorem evalSingle_quiet (hf : r.Fine) :
    Ensures (evalSingle node scope) r (fun x r' => Quiet r r' ∧ r.Apart x) (Halted Calm r) := by
  have halloc : ∀ {p : Payload}, p.elements = #[] → (∀ t, p ≠ .link t) →
      Ensures (onHeap (Heap.alloc p)) r (fun x r' => Quiet r r' ∧ r.Apart x) (Halted Calm r) :=
    fun hp hl => (alloc_quiet hf hp hl).mono (fun _ _ hq => ⟨hq.1, hq.2.1⟩) fun _ _ he => he
  unfold evalSingle
  split
  · exact Calm.refl hf
  split
  · exact halloc rfl nofun
  · exact halloc rfl nofun
  · exact halloc rfl nofun
  · rw [Ensures.bind_iff, Ensures.get_iff]
    split
    · rename_i id hid
      obtain ⟨s, sc, hsc, hlookup⟩ := Scopes.exists_of_search hid
      exact ⟨.refl hf, hf.apart_of_bound hsc (mem_of_lookup hlookup)⟩
    · exact located_iff.mpr (Calm.refl hf)
  · exact located_iff.mpr (Calm.refl hf)

theorem evalItems_evaluated (hself : self.Orderly ok) (items : List Node) {last : Option VarId}
    (hf : r₀.Fine) (hq : Quiet r₀ r) (hlast : ∀ x ∈ last, r₀.Apart x) :
    Ensures (evalItems self scope last items) r (Evaluated r₀) (Halted Calm r₀) := by
  induction items generalizing last r with
  | nil =>
    unfold evalItems
    cases last with
    | some x => exact ⟨hq, hlast x rfl⟩
    | none => exact (allocNull_evaluated hq.fine).mono (fun _ _ he => he.later hq hf) fun _ _ he => he
  | cons item rest ih =>
    have hJ : ∀ K, r₀.heap.Hidden K → ∀ x ∈ last, ¬K x := fun K hk x hx => hlast x hx K hk
    unfold evalItems
    rw [Ensures.bind_iff]
    refine (onFailure_calm hf hq.calm hJ (hself.eval hq.fine) fun r' hf' =>
      releaseOption_still hf').mono ?_ fun _ _ he => he
    rintro (_ | x) r₁ hv
    · have hc : Calm r₀ r₁ := hv.later hq hf
      simp only
      split
      · rw [Ensures.bind_iff]
        exact (releaseOption_still hc.fine).mono (fun _ _ hs => hc.use hf hJ hs) fun _ _ he => he
      · exact hc
    · obtain ⟨hq₁, hx⟩ := hv.later hq hf
      have hx' : ∀ y ∈ some x, r₀.Apart y := fun y hy => Option.some.inj hy ▸ hx
      simp only
      split
      · rw [Ensures.bind_iff]
        refine (releaseOption_still hq₁.fine).mono (fun _ r₂ hs => ?_) fun _ _ he => he
        refine ih ?_ hx'
        exact (Still.trans hf (hq₁.mono fun _ _ _ => trivial) hs).quiet hJ
      · exact ih hq₁ hx'

theorem evalOperands_apart (hself : self.Orderly ok) (nodes : List Node) {operands : List VarId}
    (hf : r₀.Fine) (hq : Quiet r₀ r) (hops : ∀ x ∈ operands, r₀.Apart x) :
    Ensures (evalOperands self scope operands nodes) r
      (fun result r' =>
        match result with
        | some ops => Quiet r₀ r' ∧ ∀ x ∈ ops, r₀.Apart x
        | none => Calm r₀ r') (Halted Calm r₀) := by
  induction nodes generalizing operands r with
  | nil => exact ⟨hq, hops⟩
  | cons node rest ih =>
    have hJ : ∀ K, r₀.heap.Hidden K → ∀ x ∈ operands.reverse, ¬K x := fun K hk x hx =>
      hops x (List.mem_reverse.mp hx) K hk
    unfold evalOperands
    rw [Ensures.bind_iff]
    refine (onFailure_calm hf hq.calm hJ (hself.eval hq.fine) fun r' hf' =>
      releaseAll_still hf').mono ?_ fun _ _ he => he
    rintro (_ | x) r₁ hv
    · have hc : Calm r₀ r₁ := hv.later hq hf
      rw [Ensures.bind_iff]
      exact (releaseAll_still hc.fine).mono (fun _ _ hs => hc.use hf hJ hs) fun _ _ he => he
    · obtain ⟨hq₁, hx⟩ := hv.later hq hf
      rw [Ensures.bind_iff, flow_iff, Ensures.bind_iff]
      rcases hin : r₁.flow.insideExpression with f | _
      · exact (ofExcept_error rfl).mpr hq₁.calm
      · refine (ofExcept_ok rfl).mpr (ih hq₁ fun y hy => ?_)
        rcases List.mem_cons.mp hy with rfl | hy
        · exact hx
        · exact hops y hy

-- The operands are let go of, the one that is kept excepted.
theorem releaseOperands_still {keep : Option VarId} (operands : List VarId) (hf : r.Fine) :
    Ensures (operands.forM fun id => if some id = keep then pure () else release id) r
      (fun _ r' => Still (fun K => ∀ x ∈ operands, ¬K x) r r') E := by
  let I : List VarId → Run → Prop := fun rest r' =>
    Still (fun K => ∀ x ∈ operands, ¬K x) r r' ∧ ∀ x ∈ rest, x ∈ operands
  refine (Ensures.forM I ?_ operands r ⟨.refl hf, fun _ hx => hx⟩).mono (fun _ _ hI => hI.1)
    fun _ _ he => he
  rintro id rest r₁ ⟨hs, hin⟩
  have hrest : ∀ x ∈ rest, x ∈ operands := fun x hx => hin x (List.mem_cons_of_mem _ hx)
  split
  · exact ⟨hs, hrest⟩
  · refine (release_still hs.fine).mono (fun _ _ hq => ⟨hs.trans hf (hq.1.mono ?_), hrest⟩)
      fun _ _ he => he
    exact fun K _ hK => hK id (hin id (List.mem_cons_self ..))

-- What an operator gives back is an operand, an element of one, or new.
theorem calculate_still {op : Operator} {operands : List VarId} (hf : r.Fine) :
    Ensures (onHeap (Operation.calculate op operands)) r
      (fun x r' => Still (fun K => ∀ x ∈ operands, ¬K x) r r' ∧
        ∀ K, r.heap.Hidden K → (∀ x ∈ operands, ¬K x) → ¬K x)
      (fun e r' => (∃ f, e = .failure f) ∧ r' = r) := by
  refine (onHeap_still (J := fun K => ∀ x ∈ operands, ¬K x) (F := True)
    (Q := fun K x h => h.Sound [] ∧ Keeps K r.heap h ∧ Heap.Safe K h x) hf
    (Operation.calculate_upholds ·) (fun _ _ => id) fun K hk hops => ?_).mono ?_ fun _ _ he => he.2
  · refine (Operation.calculate_step hf.sound.heap hk.closed fun x hx hin => absurd hin (hops x hx)).mono
      ?_ fun _ _ he => ⟨trivial, he⟩
    rintro x h ⟨hstep, hsafe⟩
    exact ⟨⟨_, hstep⟩, hstep.sound, hstep.keeps, hsafe⟩
  · rintro x r' ⟨hs, hq⟩
    refine ⟨hs, fun K hk hops hx => ?_⟩
    -- A constant of a scope is not hidden.
    obtain ⟨hsound, hkeep, hsafe⟩ := hq K hk hops
    obtain ⟨v, hv, -, ⟨s, ho⟩, -⟩ := hsafe hx
    have hleft := hsound.rules.bound hv (by simp) ho
    rw [hk.left hx ((hkeep x hx).symm.trans hv)] at hleft
    cases hleft

theorem evalOperator_evaluated (hself : self.Orderly ok) {op : Operator} {children : List Node}
    (hf : r.Fine) :
    Ensures (evalOperator self op children scope) r (Evaluated r) (Halted Calm r) := by
  rw [evalOperator, Ensures.bind_iff]
  refine (evalOperands_apart hself children hf (.refl hf) (by simp)).mono ?_ fun _ _ he => he
  rintro (_ | reversed) r₁ hq
  · exact hq
  obtain ⟨hq, hops⟩ := hq
  have hJ : ∀ K, r.heap.Hidden K → ∀ x ∈ reversed.reverse, ¬K x := fun K hk x hx =>
    hops x (List.mem_reverse.mp hx) K hk
  have huse : ∀ {r₂ r₃ : Run}, Quiet r r₂ → Still (fun K => ∀ x ∈ reversed.reverse, ¬K x) r₂ r₃ →
      Quiet r r₃ := fun h hs => (Still.trans hf (h.mono fun _ _ _ => trivial) hs).quiet hJ
  rw [Ensures.bind_iff, attempt_iff]
  refine (calculate_still hq.fine).mono ?_ ?_
  · rintro x r₂ ⟨hs, hx⟩
    have hq₂ := huse hq hs
    rw [Ensures.bind_iff]
    refine (releaseOperands_still _ hq₂.fine).mono (fun _ r₃ hs₃ => ?_) fun _ _ he => he
    exact ⟨huse hq₂ hs₃, fun K hk => hx K (hq.hidden hf hk trivial) (hJ K hk)⟩
  · rintro _ _ ⟨⟨f, rfl⟩, rfl⟩
    refine Ensures.bind_iff.mpr ?_
    exact (releaseOperands_still _ hq.fine).mono (fun _ r₃ hs₃ => (huse hq hs₃).calm) fun _ _ he => he

-- What an item comes to is another variable than the array that waits for it.
theorem own_beside {array value : VarId} {r₁ : Run} (hf : r.Fine) (hq : Quiet r r₁)
    (hvalue : r.Apart value) (hopen : r.heap.Open array) :
    Ensures (own value) r₁
      (fun y r₂ => (Quiet r r₂ ∧ r.Apart y) ∧ r₂.heap.Detached y ∧ r₂.heap.Open array ∧ y ≠ array)
      (fun e r' => (∃ f, e = .failure f) ∧ r' = r₁) := by
  have htemps := Heap.Hidden.temps hf.sound.heap
  have htemp : r.heap.Temps nothing array :=
    .inr ⟨array, hopen.imp fun _ hv => ⟨hv.1, hv.2.1⟩, .refl⟩
  refine (own_still hq.fine).mono ?_ fun _ _ he => he
  rintro y r₂ ⟨hs, hd, hy⟩
  have hq₂ : Quiet r r₂ := hq.use hf hvalue hs
  have hy : r.Apart y := fun K hk => hy K (hq.hidden hf hk trivial) (hvalue K hk)
  refine ⟨⟨hq₂, hy⟩, hd, ?_, ?_⟩
  · unfold Heap.Open
    rw [hq₂.keeps _ htemps trivial array htemp]
    exact hopen
  · rintro rfl
    exact hy _ htemps htemp

theorem pushElement_still {array : VarId} (hf : r.Fine) (hopen : r.heap.Open array)
    (hd : r.heap.Detached x) (hne : x ≠ array) :
    Ensures (onHeap (Heap.pushElement array x)) r
      (fun _ r' => Still (fun K => ¬K array ∧ ¬K x) r r' ∧ r'.heap.Open array) (fun _ _ => False) := by
  refine (onHeap_still (J := fun K => ¬K array ∧ ¬K x) (Q := fun _ _ h => h.Open array)
    (F := False) hf (·.pushElement) ⟨id, id⟩ fun K hk hK => ?_).mono
    (fun _ _ hq => ⟨hq.1, hq.2 nothing .nothing ⟨id, id⟩⟩) fun _ _ he => he.1.elim
  exact (Heap.pushElement_ensures hf.sound.heap hk.closed hopen hK.1 hd hK.2 hne).mono
    (fun _ _ hp => ⟨⟨_, hp.1⟩, hp.2.1⟩) fun _ _ he => he

theorem pushItems_evaluated (hself : self.Orderly ok) (items : List Node) {array : VarId}
    (hf : r₀.Fine) (hq : Quiet r₀ r) (harray : r₀.Apart array) (hopen : r.heap.Open array) :
    Ensures (pushItems self scope array items) r (Evaluated r₀) (Halted Calm r₀) := by
  induction items generalizing r with
  | nil => exact ⟨hq, harray⟩
  | cons item rest ih =>
    have hJ : ∀ K, r₀.heap.Hidden K → ¬K array := fun K hk => harray K hk
    unfold pushItems
    rw [Ensures.bind_iff]
    refine (onFailure_calm hf hq.calm hJ (hself.eval hq.fine) fun r' hf' =>
      (release_still hf').mono (fun _ _ hs => hs.1) fun _ _ he => he).mono ?_ fun _ _ he => he
    rintro (_ | value) r₁ hv
    · have hc : Calm r₀ r₁ := hv.later hq hf
      rw [Ensures.bind_iff]
      exact (release_still hc.fine).mono (fun _ _ hs => hc.use hf hJ hs.1) fun _ _ he => he
    · obtain ⟨hq₁, hvalue⟩ := hv
      rw [Ensures.bind_iff]
      refine (own_beside hq.fine hq₁ hvalue hopen).mono ?_ ?_
      · rintro y r₂ ⟨⟨hq₂, hy⟩, hd, hopen₂, hne⟩
        have hq₂' : Quiet r₀ r₂ := hq.trans hf hq₂
        rw [Ensures.bind_iff]
        refine (pushElement_still hq₂.fine hopen₂ hd hne).mono ?_ fun _ _ he => he.elim
        rintro _ r₃ ⟨hs₃, hopen₃⟩
        refine ih ?_ hopen₃
        refine (Still.trans hf (hq₂'.mono fun _ _ _ => trivial) hs₃).quiet fun K hk => ?_
        exact ⟨harray K hk, hy.earlier hq hf K hk⟩
      · rintro _ _ ⟨⟨f, rfl⟩, rfl⟩
        exact Quiet.calm (hq.trans hf hq₁)

-- A new array can be filled.
theorem alloc_open (hf : r.Fine) :
    Ensures (onHeap (Heap.alloc (.array #[]))) r
      (fun x r' => Quiet r r' ∧ r.Apart x ∧ r'.heap.Open x) fun _ _ => False := by
  have hopen : (r.heap.added (.temporary (.array #[]))).Open
      (r.heap.fresh (.temporary (.array #[]))) :=
    ⟨.temporary (.array #[]), (hf.sound.heap.forest.var?_added _ _).trans (if_pos rfl), rfl, rfl,
      #[], rfl⟩
  have halloc : Ensures (onHeap (Heap.alloc (.array #[]))) r (fun x r' => r'.heap.Open x)
      fun _ _ => False :=
    onHeap_iff.mpr ((Heap.alloc_iff (p := .array #[]) rfl).mpr hopen)
  exact ((alloc_quiet (p := .array #[]) (E := fun _ _ => False) hf rfl nofun).and halloc).mono
    (fun _ _ hq => ⟨hq.1.1, hq.1.2.1, hq.2⟩) fun _ _ he => he.1

theorem buildArray_evaluated (hself : self.Orderly ok) {items : List Node} (hf : r.Fine) :
    Ensures (buildArray self items scope) r (Evaluated r) (Halted Calm r) := by
  rw [buildArray, Ensures.bind_iff]
  refine (alloc_open hf).mono ?_ fun _ _ he => he.elim
  rintro x r₁ ⟨hq, hx, hopen⟩
  exact pushItems_evaluated hself items hf hq hx hopen

-- A call with a flow of its own. What it gives back was not hidden.
theorem freshCall_quiet (hself : self.Orderly ok) {f : Function} {args : Arguments} (hf : r.Fine)
    (hargs : args.Bound r) :
    Ensures (withFreshFlow (self.call f args scope)) r
      (fun ended r' => Quiet r r' ∧ ∀ x ∈ ended.result, r.Apart x) (Halted Calm r) := by
  refine withFreshFlow_ensures ((hself.call (r := { r with flow := .start }) ⟨hf.sound, hf.depth⟩
    hargs).mono ?_ ?_)
  · rintro _ r' hc
    refine ⟨⟨⟨hc.fine.sound, hc.fine.depth⟩, hc.config, hc.depth, hc.scopes, rfl,
      fun K hk _ => (hc.guards K hk nofun).1, hc.links⟩,
      fun x hx K hk => (hc.guards K hk nofun).2 x hx⟩
  · rintro (f | _) r' he
    · exact ⟨⟨he.fine.sound, he.fine.depth⟩, he.config, he.depth, he.scopes,
        fun K hk hc => ⟨(he.guards K hk nofun).1, hc⟩, he.links⟩
    · obtain ⟨hfine, hconfig, hanchored⟩ := he
      exact ⟨hfine, hconfig, hanchored⟩

theorem evalCall_evaluated (hself : self.Orderly ok) (hf : r.Fine) :
    Ensures (evalCall self node scope) r (Evaluated r) (Halted Calm r) := by
  unfold evalCall
  split
  swap
  · exact Calm.refl hf
  split
  · exact Calm.refl hf
  rw [Ensures.bind_iff, Ensures.get_iff]
  split
  · exact Calm.refl hf
  rw [Ensures.bind_iff]
  refine (freshCall_quiet hself hf (show (Arguments.nodes _).Bound r from trivial)).mono ?_
    fun _ _ he => he
  rintro ended r₁ ⟨hq, hx⟩
  split
  · rw [Ensures.bind_iff, setKind_iff, Ensures.bind_iff]
    exact setResults_calm hf (hq.calm.withKind hf) hx
  · split
    · rename_i x hres
      exact ⟨hq, hx x hres⟩
    · exact (allocNull_evaluated hq.fine).mono (fun _ _ he => he.later hq hf) fun _ _ he => he

theorem evalNode_evaluated (hself : self.Orderly ok) (hf : r.Fine) :
    Ensures (evalNode self node scope) r (Evaluated r) (Halted Calm r) := by
  unfold evalNode
  split
  · rw [Ensures.bind_iff]
    exact (evalSingle_quiet hf).mono (fun _ _ hq => hq) fun _ _ he => he
  · unfold evalExpression
    split
    · rw [Ensures.bind_iff]
      exact (alloc_quiet (p := .numeric 1.0) hf rfl nofun).mono (fun _ _ hq => ⟨hq.1, hq.2.1⟩)
        fun _ _ he => he
    split
    · exact Calm.refl hf
    refine located_halted ?_
    split
    · exact evalItems_evaluated hself _ hf (.refl hf) nofun
    · exact buildArray_evaluated hself hf
    · exact evalCall_evaluated hself hf
    · exact evalOperator_evaluated hself hf
  · exact Calm.refl hf

end Interpreter

end FinLang

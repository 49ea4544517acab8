import FinLang.Proofs.Machine.Discipline
import FinLang.Proofs.Store

namespace FinLang

open Heap (Safe Keeps Step)

namespace Run

abbrev store (r : Run) : Store :=
  r.machine.store

abbrev heap (r : Run) : Heap :=
  r.machine.store.heap

abbrev scope? (r : Run) (s : ScopeId) : Option Scope :=
  r.machine.store.scope? s

def withStore (r : Run) (st : Store) : Run :=
  { r with machine := { r.machine with store := st } }

def withHeap (r : Run) (h : Heap) : Run :=
  r.withStore { r.store with heap := h }

end Run

-- Scopes that can be reached from one another through their parents. They bind
-- nothing that is to be left alone, constants apart.
structure Reach (D : Discipline) (A : ScopeId → Prop) (K : VarId → Prop) (st : Store) :
    Prop where
  parent : ∀ {s sc p}, A s → st.scope? s = some sc → sc.parent = some p → A p
  safe : ∀ {s sc name x}, A s → st.scope? s = some sc → (name, x) ∈ sc.vars → Safe K st.heap x
  fit : ∀ {s sc f}, A s → st.scope? s = some sc → f ∈ sc.funcs → f.Fit D

-- A machine at work in a scope. The temporaries are the given ones and those of
-- a set that is to be left alone.
structure State (D : Discipline) (A : ScopeId → Prop) (K : VarId → Prop) (xs : List VarId)
    (scope : ScopeId) (r : Run) : Prop where
  sound : r.store.Sound []
  closed : r.heap.Closed K
  detached : ∀ y, r.heap.Detached y → K y ∨ y ∈ xs
  safe : ∀ x ∈ xs, Safe K r.heap x
  reach : Reach D A K r.store
  here : A scope
  live : (∃ sc, r.scope? scope = some sc) ∨ ∀ s, D.admits (.staleScope s)

-- What is left alone: a set of variables, and all scopes but some. No scope
-- goes.
structure Frame (K : VarId → Prop) (P : ScopeId → Prop) (r r' : Run) : Prop where
  keeps : Keeps K r.heap r'.heap
  scopes : ∀ s, ¬P s → r'.scope? s = r.scope? s
  lasting : ∀ {s sc}, r.scope? s = some sc → ∃ sc', r'.scope? s = some sc'
  last : r'.last = r.last
  root : r'.machine.root = r.machine.root
  depth : r'.machine.depth = r.machine.depth
  config : r'.machine.config = r.machine.config

-- The travelling variable is one that may be read. On its way out of the
-- program it may have been lost.
def Carries (D : Discipline) (r : Run) : Prop :=
  ∀ x ∈ r.flow.result, r.heap.Held x ∨ r.flow.kind = .exiting ∧ D.Loose

abbrev noScope (_ : ScopeId) : Prop :=
  False

-- Behind an expression there is its value, or the value of an `exit` that
-- interrupted it.
def EvalPost (D : Discipline) (A : ScopeId → Prop) (K : VarId → Prop) (scope : ScopeId) (r : Run) :
    Option VarId → Run → Prop
  | some x, r' => Frame K noScope r r' ∧ State D A K [x] scope r' ∧ r'.heap.Held x ∧
      r'.flow = .start
  | none, r' => Frame K noScope r r' ∧ State D A K r'.flow.result.toList scope r' ∧
      Carries D r' ∧ r'.flow.kind = .exiting

-- Behind a failure nothing is left but what waits.
def FailPost (D : Discipline) (A : ScopeId → Prop) (K : VarId → Prop) (P : ScopeId → Prop)
    (xs : List VarId) (scope : ScopeId) (r : Run) : Halt → Run → Prop
  | .outOfFuel, _ => True
  | .failure f, r' => Frame K P r r' ∧ State D A K xs scope r' ∧ r'.flow.result = none ∧
      D.admits f.cause

structure ExecPost (D : Discipline) (A : ScopeId → Prop) (K : VarId → Prop) (scope : ScopeId)
    (r r' : Run) : Prop where
  frame : Frame K (· = scope) r r'
  state : State D A K r'.flow.result.toList scope r'
  carries : Carries D r'
  kind : r'.flow.kind ≠ .failed
  quiet : r'.flow.kind = .returning ∨ r'.flow.kind = .exiting ∨ r'.flow.result = none

structure CallPost (D : Discipline) (A : ScopeId → Prop) (K : VarId → Prop) (P : ScopeId → Prop)
    (scope : ScopeId) (r r' : Run) : Prop where
  frame : Frame K P r r'
  state : State D A K r'.flow.result.toList scope r'
  carries : Carries D r'
  kind : r'.flow.kind = .next ∨ r'.flow.kind = .exiting

-- Expressions may be evaluated; variables are bound in the scope of the call.
def Arguments.Fit (D : Discipline) (K : VarId → Prop) (scope : ScopeId) (r : Run) :
    Arguments → Prop
  | .nodes ns => ∀ n ∈ ns, D.evaluable n
  | .values ids => ∀ x ∈ ids, ¬K x ∧ ∃ sc name, r.scope? scope = some sc ∧ (name, x) ∈ sc.vars

structure Interpreter.Sound (D : Discipline) (i : Interpreter) : Prop where
  eval : ∀ {A K scope r n}, D.evaluable n → State D A K [] scope r → r.flow = .start →
    Ensures (i.eval n scope) r (EvalPost D A K scope r) (FailPost D A K noScope [] scope r)
  exec : ∀ {A K scope r n}, D.executable n → State D A K [] scope r → r.flow = .start →
    Ensures (i.exec n scope) r (fun _ r' => ExecPost D A K scope r r')
      (FailPost D A K (· = scope) [] scope r)
  call : ∀ {A K scope r f args}, f.Fit D → args.Fit D K scope r → State D A K [] scope r →
    r.flow = .start →
    Ensures (i.call f args scope) r (fun _ r' => CallPost D A K noScope scope r r')
      (FailPost D A K noScope [] scope r)

variable {α : Type} {D : Discipline} {A : ScopeId → Prop} {K K' T : VarId → Prop}
  {P P' : ScopeId → Prop} {xs ys : List VarId} {scope : ScopeId} {r r' r'' : Run} {id x : VarId}
  {h : Heap} {st : Store}

namespace Frame

theorem refl : Frame K P r r :=
  ⟨.refl, fun _ _ => rfl, fun hsc => ⟨_, hsc⟩, rfl, rfl, rfl, rfl⟩

theorem trans (h₁ : Frame K P r r') (h₂ : Frame K P r' r'') : Frame K P r r'' where
  keeps := h₁.keeps.trans h₂.keeps
  scopes s hs := (h₂.scopes s hs).trans (h₁.scopes s hs)
  lasting hsc :=
    have ⟨_, hsc'⟩ := h₁.lasting hsc
    h₂.lasting hsc'
  last := h₂.last.trans h₁.last
  root := h₂.root.trans h₁.root
  depth := h₂.depth.trans h₁.depth
  config := h₂.config.trans h₁.config

theorem mono (hf : Frame K P r r') (hK : ∀ y, K' y → K y) (hP : ∀ s, P s → P' s) :
    Frame K' P' r r' :=
  { hf with
    keeps := hf.keeps.mono hK
    scopes := fun s hs => hf.scopes s fun h => hs (hP s h) }

theorem some_scope (hf : Frame K noScope r r') : Frame K P r r' :=
  hf.mono (fun _ hy => hy) fun _ => False.elim

-- What has been printed does not matter,
theorem of_store (hs : r'.store = r.store) (hl : r'.last = r.last)
    (hr : r'.machine.root = r.machine.root) (hd : r'.machine.depth = r.machine.depth)
    (hc : r'.machine.config = r.machine.config) : Frame K P r r' := by
  have hs : r'.machine.store = r.machine.store := hs
  have hscope : ∀ s, r'.scope? s = r.scope? s := fun s => by rw [Run.scope?, hs]
  have hheap : r'.heap = r.heap := by rw [Run.heap, hs]
  exact ⟨hheap ▸ .refl, fun s _ => hscope s, fun {s _} hsc => ⟨_, (hscope s).trans hsc⟩, hl, hr, hd,
    hc⟩

-- and neither does the flow.
theorem of_machine (hm : r'.machine = r.machine) (hl : r'.last = r.last) : Frame K P r r' :=
  of_store (by rw [Run.store, hm]) hl (by rw [hm]) (by rw [hm]) (by rw [hm])

theorem of_step {loose : List VarId} (hstep : Step K T loose r.heap h) :
    Frame K P r (r.withHeap h) :=
  ⟨hstep.keeps, fun _ _ => rfl, fun hsc => ⟨_, hsc⟩, rfl, rfl, rfl, rfl⟩

end Frame

theorem Heap.Safe.of_keeps {h h' : Heap} (hs : Safe K h x) (hk : Keeps K h h') : Safe K h' x :=
  fun hx => (hk.frozen hx).mpr (hs hx)

-- Scopes get names for what is not to be left alone, and functions that fit.
theorem Reach.later {st st' : Store} (hr : Reach D A K st) (hk : Keeps K st.heap st'.heap)
    (hs : ∀ {s sc'}, st'.scope? s = some sc' → ∃ sc, st.scope? s = some sc ∧
      sc'.parent = sc.parent ∧ (∀ b ∈ sc'.vars, b ∈ sc.vars ∨ ¬K b.2) ∧
      ∀ f ∈ sc'.funcs, f ∈ sc.funcs ∨ f.Fit D) : Reach D A K st' where
  parent ha hsc' hp := by
    obtain ⟨sc, hsc, hpar, -⟩ := hs hsc'
    exact hr.parent ha hsc (hpar ▸ hp)
  safe ha hsc' hin := by
    obtain ⟨sc, hsc, -, hvars, -⟩ := hs hsc'
    rcases hvars _ hin with hin | hnot
    · exact (hr.safe ha hsc hin).of_keeps hk
    · exact fun hx => absurd hx hnot
  fit ha hsc' hin := by
    obtain ⟨sc, hsc, -, -, hfuncs⟩ := hs hsc'
    exact (hfuncs _ hin).elim (hr.fit ha hsc) id

theorem Reach.of_store {st st' : Store} (hr : Reach D A K st) (hk : Keeps K st.heap st'.heap)
    (hs : ∀ s, st'.scope? s = st.scope? s) : Reach D A K st' :=
  hr.later hk fun hsc' => ⟨_, hs _ ▸ hsc', rfl, fun _ => .inl, fun _ => .inl⟩

namespace State

-- Only the store matters.
theorem congr (hst : State D A K xs scope r) (hs : r'.store = r.store) :
    State D A K xs scope r' := by
  obtain ⟨⟨_, st, _, _, _, _⟩, _, _⟩ := r
  obtain ⟨⟨_, st', _, _, _, _⟩, _, _⟩ := r'
  cases show st' = st from hs
  exact ⟨hst.sound, hst.closed, hst.detached, hst.safe, hst.reach, hst.here, hst.live⟩

theorem relist (hst : State D A K xs scope r)
    (hd : ∀ y ∈ xs, r.heap.Detached y → y ∈ ys) (hs : ∀ y ∈ ys, Safe K r.heap y) :
    State D A K ys scope r :=
  { hst with
    detached := fun y hy => (hst.detached y hy).imp_right fun hin => hd y hin hy
    safe := hs }

theorem same (hst : State D A K xs scope r) (hm : ∀ y, y ∈ xs ↔ y ∈ ys) :
    State D A K ys scope r :=
  hst.relist (fun y hy _ => (hm y).mp hy) fun y hy => hst.safe y ((hm y).mpr hy)

theorem drop (hst : State D A K (x :: xs) scope r) (hx : ¬r.heap.Detached x) :
    State D A K xs scope r := by
  refine hst.relist (fun y hy hd => ?_) fun y hy => hst.safe y (List.mem_cons_of_mem _ hy)
  rcases List.mem_cons.mp hy with rfl | hy
  · exact absurd hd hx
  · exact hy

theorem step (hst : State D A K xs scope r) (hstep : Step K T [] r.heap h)
    (hT : ∀ y, T y → y ∈ ys) (hxs : ∀ y ∈ xs, h.Detached y → y ∈ ys)
    (hsafe : ∀ y ∈ ys, Safe K h y) : State D A K ys scope (r.withHeap h) where
  sound := hst.sound.step hstep
  closed := hst.closed.keeps hst.sound.heap hstep.sound hstep.keeps
  detached y hy := by
    rcases hstep.detached y hy with hd | ht
    · exact (hst.detached y hd).imp_right fun hin => hxs y hin hy
    · exact .inr (hT y ht)
  safe := hsafe
  reach := hst.reach.of_store hstep.keeps fun _ => rfl
  here := hst.here
  live := hst.live

-- The same temporaries, or fewer.
theorem step_same (hst : State D A K xs scope r) (hstep : Step K (fun _ => False) [] r.heap h) :
    State D A K xs scope (r.withHeap h) :=
  hst.step hstep (fun _ => False.elim) (fun _ hy _ => hy) fun y hy =>
    (hst.safe y hy).of_keeps hstep.keeps

-- One more temporary.
theorem step_add (hst : State D A K xs scope r) (hstep : Step K (· = x) [] r.heap h)
    (hsafe : Safe K h x) : State D A K (x :: xs) scope (r.withHeap h) := by
  refine hst.step hstep (fun y hy => by simp [hy]) (fun y hy _ => List.mem_cons_of_mem _ hy) ?_
  intro y hy
  rcases List.mem_cons.mp hy with rfl | hy
  · exact hsafe
  · exact (hst.safe y hy).of_keeps hstep.keeps

end State

-- Besides what is left alone anyway, all temporaries with what lies in them.
def Heap.Temps (h : Heap) (K : VarId → Prop) (y : VarId) : Prop :=
  K y ∨ ∃ x, h.Detached x ∧ h.Below x y

theorem Heap.Sound.closed_temps (hs : h.Sound []) (hc : h.Closed K) : h.Closed (h.Temps K) :=
  hc.or (.exists fun _ hx => hs.closed_below hx)

namespace State

-- Whatever waits can be added to what is left alone,
theorem protect (hst : State D A K xs scope r) : State D A (r.heap.Temps K) [] scope r where
  sound := hst.sound
  closed := hst.sound.heap.closed_temps hst.closed
  detached y hy := .inl (.inr ⟨y, hy, .refl⟩)
  safe := by simp
  reach :=
    { hst.reach with
      safe := fun {s sc name x} ha hsc hin => by
        rintro (hk | ⟨y, hy, hb⟩)
        · exact hst.reach.safe ha hsc hin hk
        · exact absurd (hst.sound.bound hsc hin) (hst.sound.heap.not_scope_of_below hy hb s) }
  here := hst.here
  live := hst.live

-- and taken out again.
theorem unprotect (hst : State D A K xs scope r)
    (hst' : State D A (r.heap.Temps K) ys scope r') (hk : Keeps (r.heap.Temps K) r.heap r'.heap) :
    State D A K (ys ++ xs) scope r' where
  sound := hst'.sound
  closed := hst.closed.keeps hst.sound.heap hst'.sound.heap (hk.mono fun _ => .inl)
  detached y hy := by
    rcases hst'.detached y hy with hin | hin
    · exact (hst.detached y ((hk.ownedBy hin).mp hy)).imp_right (List.mem_append_right _)
    · exact .inr (List.mem_append_left _ hin)
  safe y hy := by
    rcases List.mem_append.mp hy with hy | hy
    · exact fun hk' => hst'.safe y hy (.inl hk')
    · exact (hst.safe y hy).of_keeps (hk.mono fun _ => .inl)
  reach := { hst'.reach with safe := fun ha hsc hin hk' => hst'.reach.safe ha hsc hin (.inl hk') }
  here := hst'.here
  live := hst'.live

end State

theorem Frame.unprotect (hf : Frame (r.heap.Temps K) P r r') : Frame K P r r' :=
  hf.mono (fun _ => .inl) fun _ hp => hp

namespace Exec

variable {Q : α → Run → Prop} {E : Halt → Run → Prop}

theorem onStore_iff {op : StoreM α} :
    Ensures (onStore op) r Q E ↔
      Ensures op r.store (fun a st => Q a (r.withStore st))
        (fun e st => E (.failure e) (r.withStore st)) := by
  unfold Ensures onStore
  simp only [ExceptT.run, ExceptT.mk, StateT.run]
  rcases op r.machine.store with ⟨_ | _, _⟩ <;> rfl

theorem onHeap_iff {op : HeapM α} :
    Ensures (onHeap op) r Q E ↔
      Ensures op r.heap (fun a h => Q a (r.withHeap h))
        (fun e h => E (.failure e) (r.withHeap h)) :=
  Iff.trans onStore_iff Store.onHeap_iff

theorem ofExcept_ok {x : Except Failure α} {a : α} (hx : x = .ok a) :
    Ensures (ofExcept x) r Q E ↔ Q a r := by
  rw [hx]
  exact Iff.rfl

theorem ofExcept_error {x : Except Failure α} {e : Failure} (hx : x = .error e) :
    Ensures (ofExcept x) r Q E ↔ E (.failure e) r := by
  rw [hx]
  exact Iff.rfl

theorem fail_iff {c : Cause} : Ensures (fail c : Exec α) r Q E ↔ E (.failure (.of c)) r :=
  Iff.rfl

theorem readHeap_iff {f : Heap → Except Failure α} :
    Ensures (readHeap f) r Q E ↔ Ensures (ofExcept (f r.heap)) r Q E :=
  Ensures.bind_iff

theorem flow_iff {Q : Flow → Run → Prop} : Ensures flow r Q E ↔ Q r.flow r :=
  Iff.rfl

theorem setFlow_iff {f : Flow} {Q : Unit → Run → Prop} :
    Ensures (setFlow f) r Q E ↔ Q () { r with flow := f } :=
  Iff.rfl

theorem setKind_iff {k : FlowKind} {Q : Unit → Run → Prop} :
    Ensures (setKind k) r Q E ↔ Q () { r with flow := r.flow.withKind k } :=
  Iff.rfl

theorem takeResult_iff {Q : Option VarId → Run → Prop} :
    Ensures takeResult r Q E ↔
      Q r.flow.result { r with flow := { r.flow with result := none } } :=
  Iff.rfl

theorem attempt_iff {part : Exec α} {Q : Except Failure α → Run → Prop} :
    Ensures (attempt part) r Q E ↔
      Ensures part r (fun a r' => Q (.ok a) r')
        (fun e r' => match e with
          | .failure f => Q (.error f) r'
          | .outOfFuel => E .outOfFuel r') := by
  rw [attempt, Ensures.tryCatch_iff, Ensures.bind_iff]
  unfold Ensures
  rcases part.run.run r with ⟨(_ | f) | a, r'⟩ <;> rfl

theorem attempt_of_ok {part : Exec α} {a : α} (h : part.run.run r = (.ok a, r')) :
    (attempt part).run.run r = (.ok (.ok a), r') := by
  have h : part r = (.ok a, r') := h
  simp only [attempt, tryCatch, tryCatchThe, MonadExceptOf.tryCatch, ExceptT.tryCatch, ExceptT.mk,
    ExceptT.run, StateT.run, Bind.bind, ExceptT.bind, StateT.bind, h]
  rfl

theorem attempt_of_failure {part : Exec α} {f : Failure}
    (h : part.run.run r = (.error (.failure f), r')) :
    (attempt part).run.run r = (.ok (.error f), r') := by
  have h : part r = (.error (.failure f), r') := h
  simp only [attempt, tryCatch, tryCatchThe, MonadExceptOf.tryCatch, ExceptT.tryCatch, ExceptT.mk,
    ExceptT.run, StateT.run, Bind.bind, ExceptT.bind, StateT.bind, h]
  rfl

theorem onFailure_iff {part : Exec α} {cleanup : Exec Unit} :
    Ensures (onFailure part cleanup) r Q E ↔
      Ensures part r Q (fun e r' => match e with
        | .failure f => Ensures cleanup r' (fun _ r'' => E (.failure f) r'') E
        | .outOfFuel => E .outOfFuel r') := by
  rw [onFailure, Ensures.bind_iff, attempt_iff]
  unfold Ensures
  rcases part.run.run r with ⟨(f | _) | a, r'⟩
  · exact Ensures.bind_iff
  · rfl
  · rfl

theorem run_located {s : Option Span} {part : Exec α} :
    (located s part).run.run r =
      ((part.run.run r).1.mapError (Halt.locate s), (part.run.run r).2) :=
  rfl

theorem located_iff {s : Option Span} {part : Exec α} :
    Ensures (located s part) r Q E ↔ Ensures part r Q (fun e r' => E (e.locate s) r') := by
  unfold Ensures
  rw [run_located]
  rcases part.run.run r with ⟨_ | _, _⟩ <;> rfl

end Exec

theorem FailPost.locate {s : Option Span} {e : Halt} (hf : FailPost D A K P xs scope r e r') :
    FailPost D A K P xs scope r (e.locate s) r' := by
  cases e with
  | outOfFuel => trivial
  | failure f =>
    obtain ⟨h₁, h₂, h₃, h₄⟩ := hf
    refine ⟨h₁, h₂, h₃, ?_⟩
    cases s <;> exact h₄

end FinLang

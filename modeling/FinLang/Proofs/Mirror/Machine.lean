import FinLang.Proofs.Heap.Usage
import FinLang.Proofs.Machine.Bodies
import FinLang.Proofs.Mirror.Operation
import FinLang.Proofs.Mirror.Store

namespace FinLang

-- The lines that a machine has printed since another one.
def Machine.Printed (m : Machine) (output console : Array String) (m' : Machine) : Prop :=
  m'.output = m.output ++ output ∧ m'.console = m.console ++ console

def Halt.Alike : Halt → Halt → Prop
  | .failure f, .failure f' => f.Alike f'
  | .outOfFuel, .outOfFuel => True
  | _, _ => False

namespace Run

-- Machines at work that show the same behind other handles. They have printed
-- the same since they were two given machines.
structure Mirrors (ρ : Renaming) (m m' : Machine) (r r' : Run) : Prop where
  store : Store.Mirrors ρ r.store r'.store
  root : r'.machine.root = ρ r.machine.root
  config : r'.machine.config = r.machine.config
  depth : r'.machine.depth = r.machine.depth
  flow : r'.flow = r.flow.rename ρ
  last : r'.last = r.last.map ρ.handle
  printed : ∃ output console, m.Printed output console r.machine ∧ m'.Printed output console r'.machine

-- The same of machines that hold together.
structure Twins (ρ : Renaming) (m m' : Machine) (r r' : Run) : Prop extends
    Mirrors ρ m m' r r' where
  fine : r.Fine
  fine' : r'.Fine
  nested : r.store.scopes.Nested

def Failed (ρ : Renaming) (m m' : Machine) (e e' : Halt) (r r' : Run) : Prop :=
  e.Alike e' ∧ Twins ρ m m' r r'

-- The scopes that live are as before, and so are their parents.
structure Steady (r r' : Run) : Prop where
  fine : r'.Fine
  parents : ∀ s, (r'.scope? s).map Scope.parent = (r.scope? s).map Scope.parent

end Run

abbrev Exec.Parallel {α β : Type} (ρ : Renaming) (m m' : Machine) (g : α → β) (part : Exec α)
    (part' : Exec β) : Prop :=
  Follows (Run.Twins ρ m m') (Run.Failed ρ m m') g part part'

abbrev Exec.Agrees {α β : Type} (ρ : Renaming) (m m' : Machine) (g : α → β) (part : Exec α)
    (part' : Exec β) (r r' : Run) : Prop :=
  Agree part part' r r' (fun a b r r' => b = g a ∧ Run.Twins ρ m m' r r') (Run.Failed ρ m m')

open Run (Steady Twins)

variable {α β γ δ : Type} {ρ : Renaming} {m m' : Machine} {r r' r₀ : Run} {x : VarId} {scope : ScopeId}
  {g : α → β} {i : γ → δ} {part : Exec α} {part' : Exec β} {E : Halt → Run → Prop} {P : Permit}
  {J : (VarId → Prop) → Prop} {name : String}

theorem Halt.Alike.locate {e e' : Halt} (h : e.Alike e') (s : Option Span) :
    (e.locate s).Alike (e'.locate s) := by
  cases e <;> cases e'
  · cases s with
    | none => exact h
    | some s => exact ⟨h.1, congrArg (· <|> some s) h.2⟩
  · exact h
  · exact h
  · trivial

theorem Still.steady (h : Still J r r') : Steady r r' :=
  ⟨h.fine, fun s => by rw [h.scopes]⟩

theorem Calm.steady (h : Calm r r') : Steady r r' :=
  ⟨h.fine, fun s => by rw [h.scopes]⟩

theorem Moves.steady (h : Moves P r r') : Steady r r' := by
  refine ⟨h.fine, fun s => ?_⟩
  by_cases hs : s = P.scope
  · obtain ⟨vars, funcs, hown, -⟩ := h.own
    rw [hs, hown]
    cases r.scope? P.scope <;> rfl
  · rw [h.others s hs]

theorem Run.Steady.nested (h : Steady r r') (hn : r.store.scopes.Nested) : r'.store.scopes.Nested :=
  hn.congr h.parents

-- Other stores of the two machines.
theorem Run.Mirrors.withStore {st st' : Store} (hr : r.Mirrors ρ m m' r') (hst : Store.Mirrors ρ st st') :
    (r.withStore st).Mirrors ρ m m' (r'.withStore st') :=
  { hr with store := hst }

theorem Run.Twins.withFlow {fl fl' : Flow} (hr : r.Twins ρ m m' r') (hfl : fl' = fl.rename ρ) :
    Twins ρ m m' { r with flow := fl } { r' with flow := fl' } :=
  { hr with
    flow := hfl
    fine := ⟨hr.fine.sound, hr.fine.depth⟩
    fine' := ⟨hr.fine'.sound, hr.fine'.depth⟩ }

namespace Exec

-- Two parts that mirror each other, if each of them leaves its machine in order.
theorem agrees_of_steady
    (h : Agree part part' r r' (fun a b s s' => b = g a ∧ s.Mirrors ρ m m' s')
      fun e e' s s' => (∃ f f', e = .failure f ∧ e' = .failure f' ∧ f.Alike f') ∧ s.Mirrors ρ m m' s')
    (hr : r.Twins ρ m m' r') (hx : Ensures part r (fun _ s => Steady r s) (Halted Steady r))
    (hy : Ensures part' r' (fun _ s => Steady r' s) (Halted Steady r')) :
    Agrees ρ m m' g part part' r r' := by
  refine (h.and hx hy).mono ?_ ?_
  · rintro a b s s' ⟨⟨hb, hs⟩, hk, hk'⟩
    exact ⟨hb, hs, hk.fine, hk'.fine, hk.nested hr.nested⟩
  · rintro e e' s s' ⟨⟨⟨f, f', rfl, rfl, hf⟩, hs⟩, hk, hk'⟩
    exact ⟨hf, hs, Run.Steady.fine hk, Run.Steady.fine hk', Run.Steady.nested hk hr.nested⟩

section Store

variable {op : StoreM α} {op' : StoreM β}

theorem onStore_agree {Q : α → β → Run → Run → Prop} {F : Halt → Halt → Run → Run → Prop} :
    Agree (onStore op) (onStore op') r r' Q F ↔
      Agree op op' r.store r'.store (fun a b st st' => Q a b (r.withStore st) (r'.withStore st'))
        (fun e e' st st' => F (.failure e) (.failure e') (r.withStore st) (r'.withStore st')) := by
  unfold Agree onStore
  simp only [ExceptT.run, ExceptT.mk, StateT.run]
  rcases op r.machine.store with ⟨_ | _, _⟩ <;> rcases op' r'.machine.store with ⟨_ | _, _⟩ <;> rfl

theorem onStore_mirrors (hr : r.Mirrors ρ m m' r') (h : Store.Agrees ρ g op op' r.store r'.store) :
    Agree (onStore op) (onStore op') r r' (fun a b s s' => b = g a ∧ s.Mirrors ρ m m' s')
      fun e e' s s' => (∃ f f', e = .failure f ∧ e' = .failure f' ∧ f.Alike f') ∧ s.Mirrors ρ m m' s' :=
  onStore_agree.2 (h.mono (fun _ _ _ _ hq => ⟨hq.1, hr.withStore hq.2⟩) fun _ _ _ _ he =>
    ⟨⟨_, _, rfl, rfl, he.1⟩, hr.withStore he.2⟩)

theorem onHeap_agrees {op : HeapM α} {op' : HeapM β} (hr : r.Twins ρ m m' r')
    (h : Heap.Agrees ρ g op op' r.heap r'.heap)
    (hx : Ensures (onHeap op) r (fun _ s => Steady r s) (Halted Steady r))
    (hy : Ensures (onHeap op') r' (fun _ s => Steady r' s) (Halted Steady r')) :
    Agrees ρ m m' g (onHeap op) (onHeap op') r r' :=
  agrees_of_steady (onStore_mirrors hr.toMirrors (Store.onHeap_agrees hr.store h)) hr hx hy

end Store

section Parts

theorem ofExcept_follows {v : Except Failure α} {v' : Except Failure β} (h : Alike g v v') :
    Parallel ρ m m' g (ofExcept v) (ofExcept v') := by
  intro r r' hr
  rcases v with e | a <;> rcases v' with e' | b
  · exact ⟨h, hr⟩
  · exact h.elim
  · exact h.elim
  · exact ⟨h, hr⟩

theorem fail_follows {c c' : Cause} (hc : c'.kind = c.kind) :
    Parallel ρ m m' g (fail c) (fail c') :=
  fun _ _ hr => ⟨⟨hc, rfl⟩, hr⟩

theorem throw_follows {f f' : Failure} (hf : f.Alike f') :
    Parallel ρ m m' g (throw (.failure f)) (throw (.failure f')) :=
  fun _ _ hr => ⟨hf, hr⟩

theorem outOfFuel_follows : Parallel ρ m m' g outOfFuel outOfFuel :=
  fun _ _ hr => ⟨trivial, hr⟩

theorem get_bind_follows {f : Run → Exec γ} {f' : Run → Exec δ}
    (h : ∀ {r r'}, r.Twins ρ m m' r' → Agrees ρ m m' i (f r) (f' r') r r') :
    Parallel ρ m m' i (get >>= f) (get >>= f') :=
  fun _ _ hr => Agree.get_bind_iff.mpr (h hr)

theorem readHeap_follows {f : Heap → Except Failure α} {f' : Heap → Except Failure β}
    (hf : ∀ {h h'}, h.Sound [] → h'.Sound [] → Heap.Mirrors ρ h h' → Alike g (f h) (f' h')) :
    Parallel ρ m m' g (readHeap f) (readHeap f') :=
  get_bind_follows fun hr =>
    ofExcept_follows (hf hr.fine.sound.heap hr.fine'.sound.heap hr.store.heap) _ _ hr

theorem readScopes_follows {f : Scopes → Except Failure α} {f' : Scopes → Except Failure β}
    (hf : ∀ {s s'}, s.Nested → Scopes.Mirrors ρ s s' → Alike g (f s) (f' s')) :
    Parallel ρ m m' g (readScopes f) (readScopes f') :=
  get_bind_follows fun hr => ofExcept_follows (hf hr.nested hr.store.scopes) _ _ hr

theorem lookup_follows :
    Parallel ρ m m' (Scope.rename ρ) (readScopes (·.lookup scope)) (readScopes (·.lookup (ρ scope))) :=
  readScopes_follows fun _ hm => hm.lookup

theorem flow_follows : Parallel ρ m m' (Flow.rename ρ) flow flow :=
  fun _ _ hr => ⟨hr.flow, hr⟩

theorem setFlow_follows (fl : Flow) : Parallel ρ m m' id (setFlow fl) (setFlow (fl.rename ρ)) :=
  fun _ _ hr => Agree.modify_iff.mpr ⟨rfl, hr.withFlow rfl⟩

theorem setKind_follows (k : FlowKind) : Parallel ρ m m' id (setKind k) (setKind k) :=
  fun _ _ hr => Agree.modify_iff.mpr ⟨rfl, hr.withFlow (by rw [hr.flow]; rfl)⟩

theorem takeResult_follows : Parallel ρ m m' (Option.map ρ.handle) takeResult takeResult := by
  refine .bind flow_follows fun fl => .bind (g := id) (fun r r' hr => ?_) fun _ => .pure rfl
  exact Agree.modify_iff.mpr ⟨rfl, hr.withFlow (by rw [hr.flow]; rfl)⟩

theorem release_follows : Parallel ρ m m' id (release x) (release (ρ x)) :=
  fun _ _ hr => onHeap_agrees hr (Heap.release_follows _ _ hr.store.heap)
    ((release_still hr.fine).mono (fun _ _ h => h.1.steady) fun _ _ he => he)
    ((release_still hr.fine').mono (fun _ _ h => h.1.steady) fun _ _ he => he)

theorem releaseOption_follows (o : Option VarId) :
    Parallel ρ m m' id (o.forM release) ((o.map ρ.handle).forM release) := by
  cases o with
  | none => exact .pure rfl
  | some x => exact release_follows

theorem releaseAll_follows (ids : List VarId) :
    Parallel ρ m m' id (onHeap (Heap.releaseAll ids)) (onHeap (Heap.releaseAll (ids.map ρ.handle))) :=
  fun _ _ hr => onHeap_agrees hr (Heap.releaseAll_follows ids _ _ hr.store.heap)
    ((releaseAll_still hr.fine).mono (fun _ _ h => h.steady) fun _ _ he => he)
    ((releaseAll_still hr.fine').mono (fun _ _ h => h.steady) fun _ _ he => he)

theorem setResult_follows : Parallel ρ m m' id (setResult x) (setResult (ρ x)) := by
  refine .bind flow_follows fun fl => .bind (g := id) (fun r r' hr => ?_) fun _ => ?_
  · exact Agree.modify_iff.mpr ⟨rfl, hr.withFlow (by rw [hr.flow]; rfl)⟩
  · exact releaseOption_follows fl.result

theorem setResults_follows (o : Option VarId) :
    Parallel ρ m m' id (o.forM setResult) ((o.map ρ.handle).forM setResult) := by
  cases o with
  | none => exact .pure rfl
  | some x => exact setResult_follows

theorem alloc_follows {p : Payload} (hp : p.elements = #[]) (hl : ∀ t, p ≠ .link t) :
    Parallel ρ m m' ρ.handle (onHeap (Heap.alloc p)) (onHeap (Heap.alloc p)) := by
  intro r r' hr
  have halloc := Heap.lift_follows (Heap.alloc_tracks (ρ := ρ) p) _ _ hr.store.heap
  rw [p.rename_eq_self ρ hp hl] at halloc
  exact onHeap_agrees hr halloc
    ((alloc_quiet hr.fine hp hl).mono (fun _ _ h => h.1.steady) fun _ _ he => he)
    ((alloc_quiet hr.fine' hp hl).mono (fun _ _ h => h.1.steady) fun _ _ he => he)

private theorem duplicate_steady (hf : r.Fine) :
    Ensures (onHeap (Heap.duplicate x)) r (fun _ s => Steady r s) (Halted Steady r) := by
  by_cases hx : r.heap.Live x
  · exact (duplicate_quiet hf hx).mono (fun _ _ h => h.1.steady) fun _ _ he => he
  · rw [onHeap_iff, Heap.duplicate, Ensures.bind_iff]
    exact (Heap.read_error (f := fun h => h.toValue x) (Heap.toValue_stale hx)).mpr
      (Calm.refl hf).steady

theorem duplicate_follows :
    Parallel ρ m m' ρ.handle (onHeap (Heap.duplicate x)) (onHeap (Heap.duplicate (ρ x))) :=
  fun _ _ hr => onHeap_agrees hr
    (Heap.duplicate_agrees hr.fine.sound.heap hr.fine'.sound.heap hr.store.heap)
    (duplicate_steady hr.fine) (duplicate_steady hr.fine')

theorem setWriteProtected_follows {flag : Bool} : Parallel ρ m m' id
    (onHeap (Heap.setWriteProtected x flag)) (onHeap (Heap.setWriteProtected (ρ x) flag)) := by
  have hsteady : ∀ {s : Run} {y : VarId}, s.Fine →
      Ensures (onHeap (Heap.setWriteProtected y flag)) s (fun _ s' => Steady s s') (Halted Steady s) := by
    intro s y hf
    rw [onHeap_iff, Heap.setWriteProtected]
    by_cases hy : s.heap.Live y
    swap
    · exact (Heap.update_stale hy).mpr (Calm.refl hf).steady
    · obtain ⟨v, hy⟩ := hy
      refine (Heap.update_iff hy).mpr ⟨⟨hf.sound.step (K := FinLang.nothing) (T := FinLang.nothing) ?_, hf.depth⟩, fun _ => rfl⟩
      exact .change hf.sound.heap.change_protected id fun _ => rfl
  exact fun _ _ hr => onHeap_agrees hr (Heap.setWriteProtected_follows flag _ _ hr.store.heap)
    (hsteady hr.fine) (hsteady hr.fine')

theorem own_follows : Parallel ρ m m' ρ.handle (own x) (own (ρ x)) := by
  refine .bind (readHeap_follows fun _ _ hm => hm.lookup) fun v => .ite ?_ (fun _ => .pure rfl) fun _ => ?_
  · simp
  · exact .bind duplicate_follows fun _ => .bind release_follows fun _ => .pure rfl

theorem located_follows {s : Option Span} (h : Parallel ρ m m' g part part') :
    Parallel ρ m m' g (located s part) (located s part') := by
  intro r r' hr
  have := h r r' hr
  unfold Agree at *
  rw [run_located, run_located]
  rcases hx : part.run.run r with ⟨_ | _, _⟩ <;> rcases hy : part'.run.run r' with ⟨_ | _, _⟩ <;>
    rw [hx, hy] at this
  · exact ⟨this.1.locate s, this.2⟩
  · exact this
  · exact this
  · exact this

-- How two attempts have ended.
theorem attempt_agree {R : α → β → Run → Run → Prop} {F : Halt → Halt → Run → Run → Prop}
    (h : Agree part part' r r' R F) (hF : ∀ {e e' s s'}, F e e' s s' → e.Alike e') :
    Agree (attempt part) (attempt part') r r'
      (fun v v' s s' =>
        match v, v' with
        | .ok a, .ok b => R a b s s'
        | .error f, .error f' => F (.failure f) (.failure f') s s'
        | _, _ => False) F := by
  refine Agree.tryCatch (h.bind fun _ _ _ _ hq => hq) fun e e' s s' he => ?_
  cases e <;> cases e'
  · exact he
  · exact (hF he).elim
  · exact (hF he).elim
  · exact he

theorem attempt_bind_follows {k : Except Failure α → Exec γ} {k' : Except Failure β → Exec δ}
    (h : Parallel ρ m m' g part part')
    (hok : ∀ a, Parallel ρ m m' i (k (.ok a)) (k' (.ok (g a))))
    (herr : ∀ f f', f.Alike f' → Parallel ρ m m' i (k (.error f)) (k' (.error f'))) :
    Parallel ρ m m' i (attempt part >>= k) (attempt part' >>= k') := by
  intro r r' hr
  refine (attempt_agree (h r r' hr) fun he => he.1).bind ?_
  rintro (f | a) (f' | b) s s' hq
  · exact herr f f' hq.1 s s' hq.2
  · exact hq.elim
  · exact hq.elim
  · obtain rfl : b = g a := hq.1
    exact hok a s s' hq.2

theorem onFailure_follows {cleanup cleanup' : Exec Unit} (h : Parallel ρ m m' g part part')
    (hc : Parallel ρ m m' id cleanup cleanup') :
    Parallel ρ m m' g (onFailure part cleanup) (onFailure part' cleanup') :=
  attempt_bind_follows h (fun _ => .pure rfl) fun _ _ hf => hc.bind fun _ => throw_follows hf

end Parts

end Exec

end FinLang

import FinLang.Proofs.Machine.Bodies
import FinLang.Proofs.Mirror.Machine

namespace FinLang

namespace Store

-- The bindings of a scope are hidden. The variables are still there.
def veil (n : ScopeId) (st : Store) : Store :=
  { st with scopes := st.scopes.modify n fun sc => { sc with vars := [] } }

-- A living scope that no other scope lies in.
structure Aside (n : ScopeId) (st : Store) : Prop where
  sound : st.scopes.arena.Sound
  live : ∃ sc, st.scope? n = some sc
  childless : ∀ {s sc}, st.scope? s = some sc → sc.parent ≠ some n

-- A store, and the one where a scope that lies aside is veiled.
def Veiled (n : ScopeId) (st st' : Store) : Prop :=
  st.Aside n ∧ st' = st.veil n

-- An operation that comes to the same under the veil.
abbrev Oblivious {α : Type} (n : ScopeId) (op : StoreM α) : Prop :=
  Follows (Veiled n) (fun e e' st st' => e' = e ∧ Veiled n st st') id op op

variable {α β : Type} {n s parent : ScopeId} {st : Store} {name : String} {x : VarId}

theorem scope?_veil_of_ne (hne : s ≠ n) : (st.veil n).scope? s = st.scope? s :=
  Arena.get?_modify_of_ne _ _ hne

theorem lookup_veil (hne : s ≠ n) : (st.veil n).scopes.lookup s = st.scopes.lookup s := by
  have h : (st.veil n).scopes.arena.get? s = st.scopes.arena.get? s := scope?_veil_of_ne hne
  simp only [Scopes.lookup, h]

namespace Aside

theorem congr {st' : Store} (ha : st.Aside n) (hs : st'.scopes = st.scopes) : st'.Aside n := by
  obtain ⟨heap, scopes⟩ := st
  obtain ⟨heap', scopes'⟩ := st'
  cases show scopes' = scopes from hs
  exact ⟨ha.sound, ha.live, ha.childless⟩

theorem created (name : String) (ha : st.Aside n) (hne : parent ≠ n) :
    (st.scopes.create name (some parent)).1 ≠ n ∧
      Aside n { st with scopes := (st.scopes.create name (some parent)).2 } := by
  have hfresh := Arena.get?_insert_fresh ha.sound
    (⟨name, [], [], none, (some parent).bind st.scopes.figure?, some parent⟩ : Scope)
  have hself := Arena.get?_insert_self ha.sound
    (⟨name, [], [], none, (some parent).bind st.scopes.figure?, some parent⟩ : Scope)
  have hothers := @Arena.get?_insert_of_ne _ _ st.scopes.arena ha.sound
    (⟨name, [], [], none, (some parent).bind st.scopes.figure?, some parent⟩ : Scope)
  have hsound := Arena.sound_insert ha.sound
    (⟨name, [], [], none, (some parent).bind st.scopes.figure?, some parent⟩ : Scope)
  obtain ⟨sc, hsc⟩ := ha.live
  have hn : (st.scopes.create name (some parent)).1 ≠ n := by
    rintro he
    have hnone : st.scopes.arena.get? (st.scopes.create name (some parent)).1 = none := hfresh
    rw [he] at hnone
    cases hnone.symm.trans hsc
  refine ⟨hn, hsound, ⟨sc, (hothers hn.symm).trans hsc⟩, fun {t new} ht => ?_⟩
  by_cases heq : t = (st.scopes.create name (some parent)).1
  · cases hself.symm.trans (heq ▸ ht)
    exact fun he => hne (Option.some.inj he)
  · exact ha.childless ((hothers heq).symm.trans ht)

theorem updated {f : Scope → Scope} (ha : st.Aside n) (hne : s ≠ n)
    (hf : ∀ sc, (f sc).parent = sc.parent) : Aside n { st with scopes := st.scopes.modify s f } := by
  obtain ⟨sc, hsc⟩ := ha.live
  refine ⟨Arena.sound_modify ha.sound _ _, ⟨sc, ?_⟩, fun {t new} ht => ?_⟩
  · exact (scope?_modify n).trans ((if_neg (Ne.symm hne)).trans hsc)
  · rw [scope?_modify] at ht
    split at ht
    · obtain ⟨old, hold, rfl⟩ := Option.map_eq_some_iff.mp ht
      rw [hf]
      exact ha.childless hold
    · exact ha.childless ht

theorem erased (ha : st.Aside n) (hne : s ≠ n) :
    Aside n { st with scopes := ⟨st.scopes.arena.erase s⟩ } := by
  obtain ⟨sc, hsc⟩ := ha.live
  refine ⟨Arena.sound_erase ha.sound s, ⟨sc, ?_⟩, fun {t new} ht => ?_⟩
  · exact (Arena.get?_erase_of_ne _ (Ne.symm hne)).trans hsc
  · by_cases heq : t = s
    · subst heq
      cases (Arena.get?_erase_self ..).symm.trans ht
    · exact ha.childless ((Arena.get?_erase_of_ne _ heq).symm.trans ht)

end Aside

section Search

variable {f : ScopeId → Scope → Option α}

-- From another scope a search does not come upon the veiled one.
theorem searchWithin_veil (ha : st.Aside n) (k : Nat) (hne : s ≠ n) :
    (st.veil n).scopes.searchWithin f k s = st.scopes.searchWithin f k s := by
  induction k generalizing s with
  | zero => rfl
  | succ k ih =>
    unfold Scopes.searchWithin
    have hscope : (st.veil n).scopes.arena.get? s = st.scopes.arena.get? s := scope?_veil_of_ne hne
    rw [hscope]
    rcases hsc : st.scopes.arena.get? s with _ | sc
    · rfl
    dsimp only
    cases f s sc with
    | some a => rfl
    | none =>
      cases hp : sc.parent with
      | none => rfl
      | some p => exact ih fun he => ha.childless hsc (he ▸ hp)

theorem search_veil (ha : st.Aside n) (hne : s ≠ n) :
    (st.veil n).scopes.search f s = st.scopes.search f s := by
  have hsize : (st.veil n).scopes.arena.slots.size = st.scopes.arena.slots.size :=
    Arena.size_modify ..
  unfold Scopes.search
  rw [hsize]
  exact searchWithin_veil ha _ hne

theorem ne_of_enclosingCall {t : ScopeId} (ha : st.Aside n) (hne : s ≠ n)
    (ht : st.scopes.enclosingCall s = some t) : t ≠ n := by
  unfold Scopes.enclosingCall Scopes.search at ht
  generalize st.scopes.arena.slots.size + 1 = k at ht
  induction k generalizing s with
  | zero => cases ht
  | succ k ih =>
    unfold Scopes.searchWithin at ht
    split at ht
    · cases ht
    rename_i sc hsc
    split at ht
    · rename_i found hfound
      cases ht
      obtain ⟨_, -, rfl⟩ := Option.map_eq_some_iff.mp hfound
      exact hne
    · obtain ⟨p, hp, ht⟩ := Option.bind_eq_some_iff.mp ht
      exact ih (fun he => ha.childless hsc (he ▸ hp)) ht

theorem callStack_veil (ha : st.Aside n) (hne : s ≠ n) :
    (st.veil n).scopes.callStack s = st.scopes.callStack s := by
  have hsize : (st.veil n).scopes.arena.slots.size = st.scopes.arena.slots.size :=
    Arena.size_modify ..
  unfold Scopes.callStack
  rw [hsize]
  generalize st.scopes.arena.slots.size + 1 = k
  induction k generalizing s with
  | zero => rfl
  | succ k ih =>
    unfold Scopes.callStackWithin
    have hscope : (st.veil n).scopes.arena.get? s = st.scopes.arena.get? s := scope?_veil_of_ne hne
    rw [hscope]
    rcases hsc : st.scopes.arena.get? s with _ | sc
    · rfl
    dsimp only
    cases hp : sc.parent with
    | none => rfl
    | some p =>
      have hpne : p ≠ n := fun he => ha.childless hsc (he ▸ hp)
      simp only [Option.elim_some, ih hpne]

end Search

namespace Oblivious

theorem pure {a : α} : Oblivious n (Pure.pure a : StoreM α) :=
  Follows.pure rfl

theorem bind {op : StoreM α} {k : α → StoreM β} (hop : Oblivious n op) (hk : ∀ a, Oblivious n (k a)) :
    Oblivious n (op >>= k) :=
  Follows.bind hop hk

theorem throw {e : Failure} : Oblivious n (throw e : StoreM α) :=
  fun _ _ h => ⟨rfl, h⟩

theorem onHeap {op : HeapM α} : Oblivious n (Store.onHeap op) := by
  rintro st _ ⟨ha, rfl⟩
  have hheap : (st.veil n).heap = st.heap := rfl
  unfold Agree Store.onHeap
  simp only [ExceptT.run, ExceptT.mk, StateT.run, hheap]
  rcases op st.heap with ⟨_ | _, h⟩
  · exact ⟨rfl, ha.congr rfl, rfl⟩
  · exact ⟨rfl, ha.congr rfl, rfl⟩

theorem readHeap {f : Heap → Except Failure α} : Oblivious n (Store.readHeap f) := by
  rintro st _ ⟨ha, rfl⟩
  have hheap : (st.veil n).heap = st.heap := rfl
  unfold Agree Store.readHeap
  simp only [ExceptT.run, ExceptT.mk, StateT.run, hheap]
  rcases f st.heap with _ | _
  · exact ⟨rfl, ha, rfl⟩
  · exact ⟨rfl, ha, rfl⟩

theorem readScopes {f : Scopes → Except Failure α}
    (hf : ∀ st : Store, st.Aside n → f (st.veil n).scopes = f st.scopes) : Oblivious n (Store.readScopes f) := by
  rintro st _ ⟨ha, rfl⟩
  unfold Agree Store.readScopes
  simp only [ExceptT.run, ExceptT.mk, StateT.run, hf st ha]
  rcases f st.scopes with _ | _
  · exact ⟨rfl, ha, rfl⟩
  · exact ⟨rfl, ha, rfl⟩

theorem readScope (hne : s ≠ n) : Oblivious n (Store.readScopes (·.lookup s)) :=
  readScopes fun _ _ => lookup_veil hne

theorem updateScope {f : Scope → Scope} (hne : s ≠ n) (hf : ∀ sc, (f sc).parent = sc.parent) :
    Oblivious n (Store.updateScope s f) := by
  rintro st _ ⟨ha, rfl⟩
  have hcontains : (st.veil n).scopes.contains s = st.scopes.contains s := Arena.contains_modify
  refine Agree.get_bind_iff.mpr ?_
  rw [hcontains]
  split
  · refine Agree.modify_iff.mpr ⟨rfl, ha.updated hne hf, ?_⟩
    exact congrArg (fun a => Store.mk st.heap ⟨a⟩) (Arena.modify_comm hne.symm)
  · exact ⟨rfl, ha, rfl⟩

theorem fail_bind {c : Cause} {k : α → StoreM β} : Oblivious n (Store.fail c >>= k) :=
  fun _ _ h => ⟨rfl, h⟩

theorem destroy (hne : s ≠ n) : Oblivious n (Store.destroy s) := by
  refine (readScope hne).bind fun sc => ?_
  have herase : Oblivious n (modify fun st => { st with scopes := ⟨st.scopes.arena.erase s⟩ } :
      StoreM Unit) := by
    rintro st _ ⟨ha, rfl⟩
    obtain ⟨old, hold⟩ := ha.live
    refine Agree.modify_iff.mpr ⟨rfl, ha.erased hne, ?_⟩
    exact congrArg (fun a => Store.mk st.heap ⟨a⟩) (Arena.erase_modify hne hold)
  refine herase.bind fun _ => ?_
  have hfree : ∀ b : String × VarId, Oblivious n (do
      if (← get).heap.contains b.2 then
        Store.onHeap (Heap.free b.2)) := by
    rintro b st _ ⟨ha, rfl⟩
    refine Agree.get_bind_iff.mpr (.ite .rfl (fun _ => ?_) fun _ => ⟨rfl, ha, rfl⟩)
    exact onHeap st _ ⟨ha, rfl⟩
  simpa using Follows.forM (j := id) hfree sc.vars

theorem addVariable (hne : s ≠ n) : Oblivious n (Store.addVariable s name x) := by
  refine .ite .rfl (fun _ => fail_bind) fun _ => .bind readHeap fun _ => ?_
  refine .ite .rfl (fun _ => fail_bind) fun _ => (readScope hne).bind fun sc => ?_
  refine .ite .rfl (fun _ => fail_bind) fun _ => ?_
  exact .bind (updateScope hne fun _ => rfl) fun _ => onHeap

theorem addFunction {f : Function} (hne : s ≠ n) : Oblivious n (Store.addFunction s f) := by
  refine (readScope hne).bind fun sc => ?_
  exact .ite .rfl (fun _ => fail_bind) fun _ => updateScope hne fun _ => rfl

theorem setBelongsTo {f : Function} (hne : s ≠ n) : Oblivious n (Store.setBelongsTo s f) :=
  updateScope hne fun _ => rfl

theorem declare (hne : s ≠ n) : Oblivious n (Store.declare s name x) := by
  refine .bind onHeap fun _ st st' h => ?_
  refine Agree.tryCatch (addVariable hne st st' h) ?_
  rintro e _ t t' ⟨rfl, h⟩
  exact (onHeap.bind fun _ => throw) t t' h

end Oblivious

-- An operation that opens a scope, which is not the veiled one.
def Opens (n : ScopeId) (op : StoreM ScopeId) : Prop :=
  ∀ st st', Veiled n st st' → Agree op op st st' (fun s s' t t' => s' = s ∧ s ≠ n ∧ Veiled n t t')
    fun e e' t t' => e' = e ∧ Veiled n t t'

namespace Opens

theorem createChild (hne : parent ≠ n) : Opens n (Store.createChild parent name) := by
  intro st st' h
  refine (Oblivious.readScope hne st st' h).bind ?_
  rintro _ _ t _ ⟨-, ha, rfl⟩
  have hfigure : (t.veil n).scopes.figure? parent = t.scopes.figure? parent := by
    simp only [Scopes.figure?, veil, Scopes.modify, Arena.get?_modify_of_ne _ _ hne]
  obtain ⟨hn, ha'⟩ := ha.created name hne
  obtain ⟨old, hold⟩ := ha.live
  have hinsert : (t.veil n).scopes.create name (some parent) =
      ((t.scopes.create name (some parent)).1,
        (t.scopes.create name (some parent)).2.modify n fun sc => { sc with vars := [] }) := by
    unfold Scopes.create
    simp only [Option.bind_some, hfigure]
    have hcommute := @Arena.insert_modify _ _ t.scopes.arena n
      (⟨name, [], [], none, t.scopes.figure? parent, some parent⟩ : Scope)
      (fun sc => { sc with vars := [] }) ha.sound _ hold
    simp only [veil, Scopes.modify, hcommute]
  refine Agree.lift_iff.mpr ?_
  have hrun : ∀ u : Store, (Store.createScope name (some parent)).run u =
      ((u.scopes.create name (some parent)).1, { u with scopes := (u.scopes.create name (some parent)).2 }) :=
    fun _ => rfl
  rw [hrun, hrun, hinsert]
  exact ⟨rfl, hn, ha', rfl⟩

theorem openCall {f : Function} (hne : parent ≠ n) : Opens n (do
    let scope ← Store.createChild parent f.name
    Store.setBelongsTo scope f
    return scope) := by
  refine fun st st' h => (createChild hne st st' h).bind ?_
  rintro s s' t t' ⟨rfl, hs, ht⟩
  refine (Oblivious.setBelongsTo hs t t' ht).bind ?_
  rintro _ _ u u' ⟨-, hu⟩
  exact ⟨rfl, hs, hu⟩

end Opens

end Store

namespace Run

def veil (n : ScopeId) (r : Run) : Run :=
  r.withStore (r.store.veil n)

-- A run, and the one where a scope that lies aside is veiled.
def Veiled (n : ScopeId) (r r' : Run) : Prop :=
  r.store.Aside n ∧ r' = r.veil n

variable {n s : ScopeId} {r : Run}

theorem findVariable_veil (ha : r.store.Aside n) (hne : s ≠ n) (name : String) :
    (r.veil n).machine.store.scopes.findVariable s name = r.machine.store.scopes.findVariable s name :=
  Store.search_veil ha hne

theorem findFunction_veil (ha : r.store.Aside n) (hne : s ≠ n) (name : String) :
    (r.veil n).machine.store.scopes.findFunction s name = r.machine.store.scopes.findFunction s name :=
  Store.search_veil ha hne

end Run

namespace Exec

-- A part that comes to the same under the veil: to the same value or halt, and
-- to a run that differs in nothing but the veil.
abbrev Oblivious {α : Type} (n : ScopeId) (part : Exec α) : Prop :=
  Follows (Run.Veiled n) (fun e e' r r' => e' = e ∧ Run.Veiled n r r') id part part

variable {α β : Type} {n scope : ScopeId} {part : Exec α} {x : VarId} {name : String}

namespace Oblivious

theorem of_ok {a : α} {r r' : Run} (h : Oblivious n part) (ha : r.store.Aside n)
    (hr : part.run.run r = (.ok a, r')) :
    r'.store.Aside n ∧ part.run.run (r.veil n) = (.ok a, r'.veil n) := by
  have hboth := h r _ ⟨ha, rfl⟩
  unfold Agree at hboth
  rw [hr] at hboth
  rcases hv : part.run.run (r.veil n) with ⟨e | b, r''⟩ <;> rw [hv] at hboth
  · exact hboth.elim
  · obtain ⟨rfl, ha', rfl⟩ := hboth
    exact ⟨ha', rfl⟩

theorem pure {a : α} : Oblivious n (Pure.pure a : Exec α) :=
  Follows.pure rfl

theorem throw {e : Halt} : Oblivious n (throw e : Exec α) :=
  fun _ _ h => ⟨rfl, h⟩

theorem bind {k : α → Exec β} (h : Oblivious n part) (hk : ∀ a, Oblivious n (k a)) :
    Oblivious n (part >>= k) :=
  Follows.bind h hk

theorem ite {c : Prop} [Decidable c] {part' : Exec α} (h : Oblivious n part) (h' : Oblivious n part') :
    Oblivious n (if c then part else part') :=
  Follows.ite .rfl (fun _ => h) fun _ => h'

-- What is read from the run is the same under the veil.
theorem get_bind {k : Run → Exec α} (hveil : ∀ r : Run, r.store.Aside n → k (r.veil n) = k r)
    (hk : ∀ r, Oblivious n (k r)) : Oblivious n (get >>= k) := by
  rintro r _ ⟨ha, rfl⟩
  refine Agree.get_bind_iff.mpr ?_
  rw [hveil r ha]
  exact hk r r _ ⟨ha, rfl⟩

theorem edits {f : Run → Run} (hstore : ∀ r, (f r).store = r.store)
    (hf : ∀ (r : Run) st, f (r.withStore st) = (f r).withStore st) : Oblivious n (modify f) := by
  rintro r _ ⟨ha, rfl⟩
  refine Agree.modify_iff.mpr ⟨rfl, (hstore r).symm ▸ ha, ?_⟩
  show f (r.withStore (r.store.veil n)) = (f r).withStore ((f r).store.veil n)
  rw [hf, hstore]

theorem ofExcept {v : Except Failure α} : Oblivious n (ofExcept v) := by
  cases v with
  | ok a => exact pure
  | error f => exact throw

theorem onStore {op : StoreM α} (hop : Store.Oblivious n op) : Oblivious n (onStore op) := by
  rintro r _ ⟨ha, rfl⟩
  refine onStore_agree.mpr ((hop r.store _ ⟨ha, rfl⟩).mono ?_ ?_)
  · rintro a _ st _ ⟨rfl, ha', rfl⟩
    exact ⟨rfl, ha', rfl⟩
  · rintro e _ st _ ⟨rfl, ha', rfl⟩
    exact ⟨rfl, ha', rfl⟩

theorem onHeap {op : HeapM α} : Oblivious n (onHeap op) :=
  onStore .onHeap

theorem release : Oblivious n (release x) :=
  onHeap

theorem releases {o : Option VarId} : Oblivious n (o.forM Exec.release) := by
  cases o with
  | none => exact pure
  | some x => exact release

theorem readHeap {f : Heap → Except Failure α} : Oblivious n (readHeap f) :=
  get_bind (fun _ _ => rfl) fun _ => ofExcept

theorem readScopes {f : Scopes → Except Failure α}
    (hf : ∀ st : Store, st.Aside n → f (st.veil n).scopes = f st.scopes) : Oblivious n (readScopes f) :=
  get_bind (fun r ha => congrArg Exec.ofExcept (hf r.store ha)) fun _ => ofExcept

theorem lookup (hne : scope ≠ n) : Oblivious n (Exec.readScopes (·.lookup scope)) :=
  readScopes fun _ _ => Store.lookup_veil hne

theorem emit {line : String} : Oblivious n (modifyMachine (·.emit line)) :=
  edits (fun _ => Machine.store_emit) fun r _ => by
    unfold Machine.emit
    by_cases hecho : r.machine.config.echo <;> simp [Run.withStore, hecho]

theorem flow : Oblivious n flow :=
  fun _ _ h => ⟨h.2 ▸ rfl, h⟩

theorem setFlow {f : Flow} : Oblivious n (setFlow f) :=
  edits (fun _ => rfl) fun _ _ => rfl

theorem setKind {kind : FlowKind} : Oblivious n (setKind kind) :=
  edits (fun _ => rfl) fun _ _ => rfl

theorem setResult : Oblivious n (setResult x) :=
  .bind flow fun _ => .bind (edits (fun _ => rfl) fun _ _ => rfl) fun _ => releases

theorem setResults {o : Option VarId} : Oblivious n (o.forM Exec.setResult) := by
  cases o with
  | none => exact pure
  | some x => exact setResult

theorem takeResult : Oblivious n takeResult :=
  .bind flow fun _ => .bind (edits (fun _ => rfl) fun _ _ => rfl) fun _ => pure

theorem leaveBody : Oblivious n leaveBody :=
  .bind flow fun _ => .bind ofExcept fun _ => setFlow

theorem attempt (h : Oblivious n part) : Oblivious n (attempt part) := by
  refine fun r r' hr => Agree.tryCatch ((h r r' hr).bind ?_) ?_
  · rintro a _ t t' ⟨rfl, ht⟩
    exact ⟨rfl, ht⟩
  · rintro (e | _) _ t t' ⟨rfl, ht⟩
    · exact ⟨rfl, ht⟩
    · exact ⟨rfl, ht⟩

theorem onFailure {cleanup : Exec Unit} (h : Oblivious n part) (hc : Oblivious n cleanup) :
    Oblivious n (onFailure part cleanup) := by
  refine h.attempt.bind fun result => ?_
  cases result with
  | ok a => exact pure
  | error f => exact hc.bind fun _ => throw

theorem located {s : Option Span} (h : Oblivious n part) : Oblivious n (located s part) := by
  rintro r _ ⟨ha, rfl⟩
  have := h r _ ⟨ha, rfl⟩
  unfold Agree at *
  rw [run_located, run_located]
  rcases hx : part.run.run r with ⟨_ | _, _⟩ <;> rcases hy : part.run.run (r.veil n) with ⟨_ | _, _⟩ <;>
    rw [hx, hy] at this
  · exact ⟨congrArg _ this.1, this.2⟩
  · exact this
  · exact this
  · exact this

theorem withFreshFlow {part : Exec Unit} (h : Oblivious n part) : Oblivious n (withFreshFlow part) := by
  refine .bind flow fun outer => .bind setFlow fun _ => h.attempt.bind fun result => ?_
  cases result with
  | ok => exact .bind flow fun _ => .bind setFlow fun _ => pure
  | error f => exact .bind setFlow fun _ => throw

theorem own : Oblivious n (own x) :=
  .bind readHeap fun _ => .ite pure (.bind onHeap fun _ => .bind release fun _ => pure)

theorem declare (hne : scope ≠ n) : Oblivious n (Exec.onStore (Store.declare scope name x)) :=
  onStore (.declare hne)

theorem rescueResult : Oblivious n (rescueResult scope) := by
  refine .bind flow fun fl => ?_
  cases fl.result with
  | none => exact pure
  | some id =>
    refine .bind readHeap fun target => .bind readHeap fun owner => .ite ?_ ?_
    · exact .bind onHeap fun _ => .bind onHeap fun _ => setResult
    · exact .ite setResult pure

theorem leaveScope {ended : Except Failure Unit} (hne : scope ≠ n) :
    Oblivious n (leaveScope scope ended) := by
  have hrest (ended : Except Failure Unit) : Oblivious n (dropScope scope ended) := by
    have hdestroy : Oblivious n (do
        let destroyed ← Exec.attempt (Exec.onStore (Store.destroy scope))
        Exec.ofExcept ended
        Exec.ofExcept destroyed) :=
      (onStore (.destroy hne)).attempt.bind fun _ => .bind ofExcept fun _ => ofExcept
    cases ended with
    | ok => exact hdestroy
    | error f => exact .bind takeResult fun _ => .bind releases fun _ => hdestroy
  cases ended with
  | ok => exact .bind (.attempt rescueResult) hrest
  | error f => exact .bind pure hrest

-- A scope that an operation opens is not the veiled one.
theorem open_bind {op : StoreM ScopeId} {k : ScopeId → Exec α} (hop : Store.Opens n op)
    (hk : ∀ s, s ≠ n → Oblivious n (k s)) : Oblivious n (Exec.onStore op >>= k) := by
  rintro r _ ⟨ha, rfl⟩
  have hopen : Agree (Exec.onStore op) (Exec.onStore op) r (r.veil n)
      (fun s s' t t' => s' = s ∧ s ≠ n ∧ Run.Veiled n t t') fun e e' t t' =>
        e' = e ∧ Run.Veiled n t t' := by
    refine onStore_agree.mpr ((hop r.store _ ⟨ha, rfl⟩).mono ?_ ?_)
    · rintro s _ st _ ⟨rfl, hs, ha', rfl⟩
      exact ⟨rfl, hs, ha', rfl⟩
    · rintro e _ st _ ⟨rfl, ha', rfl⟩
      exact ⟨rfl, ha', rfl⟩
  refine hopen.bind ?_
  rintro s s' t t' ⟨rfl, hs, ht⟩
  exact hk _ hs t t' ht

theorem lookup_agree {r : Run} (hne : scope ≠ n) (ha : r.store.Aside n) :
    Agree (Exec.readScopes (·.lookup scope)) (Exec.readScopes (·.lookup scope)) r (r.veil n)
      (fun sc sc' t t' => sc = sc' ∧ r.store.scope? scope = some sc ∧ r = t ∧ r.veil n = t')
      (fun e e' t t' => e' = e ∧ Run.Veiled n t t') := by
  have hveil : (r.veil n).machine.store.scopes.lookup scope = r.machine.store.scopes.lookup scope :=
    Store.lookup_veil hne
  refine Agree.get_bind_iff.mpr ?_
  dsimp only
  rw [hveil]
  unfold Scopes.lookup
  cases hsc : r.machine.store.scopes.arena.get? scope with
  | some sc => exact ⟨rfl, hsc, rfl, rfl⟩
  | none => exact ⟨rfl, ha, rfl⟩

-- The nearest call is not that of the veiled scope.
theorem callingScope_bind {k : Option ScopeId → Exec α} (hne : scope ≠ n)
    (hk : ∀ outer, (∀ s ∈ outer, s ≠ n) → Oblivious n (k outer)) :
    Oblivious n (Library.callingScope scope >>= k) := by
  rintro r _ ⟨ha, rfl⟩
  have hcall : Agree (Library.callingScope scope) (Library.callingScope scope) r (r.veil n)
      (fun o o' t t' => o = o' ∧ (∀ s ∈ o, s ≠ n) ∧ Run.Veiled n t t')
      (fun e e' t t' => e' = e ∧ Run.Veiled n t t') := by
    refine (lookup_agree hne ha).bind ?_
    rintro sc _ _ _ ⟨rfl, hsc, rfl, rfl⟩
    refine Agree.get_bind_iff.mpr ?_
    cases hp : sc.parent with
    | none => exact ⟨rfl, nofun, ha, rfl⟩
    | some p =>
      have hpne : p ≠ n := fun he => ha.childless hsc (he ▸ hp)
      have hcall : (r.veil n).machine.store.scopes.enclosingCall p =
          r.machine.store.scopes.enclosingCall p := Store.search_veil ha hpne
      exact ⟨hcall.symm, fun s hs => Store.ne_of_enclosingCall ha hpne hs, ha, rfl⟩
  refine hcall.bind ?_
  rintro o _ t t' ⟨rfl, ho, ht⟩
  exact hk o ho t t' ht

theorem forM {f : β → Exec Unit} (h : ∀ b, Oblivious n (f b)) (l : List β) : Oblivious n (l.forM f) := by
  simpa using Follows.forM (j := id) h l

theorem mapM {f : β → Exec α} (h : ∀ b, Oblivious n (f b)) (l : List β) : Oblivious n (l.mapM f) := by
  simpa using Follows.mapM (i := id) (j := id) h l

theorem withScope {part : ScopeId → Exec Unit} (hne : scope ≠ n)
    (h : ∀ s, s ≠ n → Oblivious n (part s)) : Oblivious n (withScope scope name part) :=
  open_bind (.createChild hne) fun s hs => (h s hs).attempt.bind fun _ => leaveScope hs

end Oblivious

end Exec

end FinLang

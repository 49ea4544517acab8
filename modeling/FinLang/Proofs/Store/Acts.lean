import FinLang.Proofs.Heap.Turnover
import FinLang.Proofs.Store

namespace FinLang

theorem run_discard {ε σ α : Type} {op : ExceptT ε (StateM σ) α} {s : σ} :
    ((discard op).run.run s).2 = (op.run.run s).2 := by
  simp only [discard, Functor.discard, Functor.mapConst, ExceptT.map, ExceptT.mk, ExceptT.run,
    StateT.run, Bind.bind, StateT.bind, Function.comp]
  rcases op s with ⟨_ | _, _⟩ <;> rfl

namespace Heap

open Arena (Gains)

variable {h : Heap} {x : VarId}

-- The handle that an allocation gives out.
def Act.allots (h : Heap) : Act → Option VarId
  | .op (.alloc p) => some ((alloc p).run h).1
  | .op (.allocValue value) => some ((allocValue value).run h).1
  | .op (.allocLink target) => ((allocLink target).run.run h).1.toOption
  | .op (.duplicate source) => ((duplicate source).run.run h).1.toOption
  | _ => none

theorem Act.allots_insert {a : Act} (hx : a.allots h = some x) :
    ∃ v, x = h.fresh v ∧ Gains (h.added v).arena (a.after h).arena := by
  have hgives {op : HeapM VarId} (hop : Allots op) (hr : (op.run.run h).1.toOption = some x) :
      ∃ v, x = h.fresh v ∧ Gains (h.added v).arena ((discard op).run.run h).2.arena := by
    rcases hrun : op.run.run h with ⟨e | y, h'⟩
    · simp [hrun, Except.toOption] at hr
    · simp only [hrun, Except.toOption, Option.some.injEq] at hr
      subst hr
      rw [run_discard, hrun]
      exact (hop h).of_ok hrun
  cases a with
  | setLink => cases hx
  | op o =>
    cases o with
    | alloc p => exact hgives (alloc_allots p) hx
    | allocValue value => exact hgives (allocValue_allots value) hx
    | allocLink target => exact hgives (allocLink_allots target) hx
    | duplicate source => exact hgives (duplicate_allots source) hx
    | _ => cases hx

end Heap

namespace Store

-- What can be done to the variables and the scopes.
inductive Act where
  | heap (a : Heap.Act)
  | create (name : String) (parent : Option ScopeId)
  | createChild (parent : ScopeId) (name : String)
  | destroy (id : ScopeId)
  | addVariable (id : ScopeId) (name : String) (var : VarId)
  | addFunction (id : ScopeId) (f : Function)
  | setBelongsTo (id : ScopeId) (f : Function)
  | setFigure (id : ScopeId) (figure : Option Int)

namespace Act

def run : Act → StoreM Unit
  | .heap a => onHeap a.run
  | .create name parent => discard (liftM (createScope name parent))
  | .createChild parent name => discard (Store.createChild parent name)
  | .destroy id => Store.destroy id
  | .addVariable id name var => Store.addVariable id name var
  | .addFunction id f => Store.addFunction id f
  | .setBelongsTo id f => Store.setBelongsTo id f
  | .setFigure id figure => Store.setFigure id figure

-- The store that it leaves, also where it fails.
def after (act : Act) (st : Store) : Store :=
  (act.run.run.run st).2

-- The handle that an allocation gives out.
def allots (st : Store) : Act → Option VarId
  | .heap a => a.allots st.heap
  | _ => none

def opens (st : Store) : Act → Option ScopeId
  | .create name parent => some ((createScope name parent).run st).1
  | .createChild parent name => ((Store.createChild parent name).run.run st).1.toOption
  | _ => none

end Act

-- The store that comes of the empty one.
def afterAll (acts : List Act) : Store :=
  Arena.run Act.after empty acts

-- How often the slot of a variable is freed on the way, and that of a scope.
def variableFrees (i : Nat) (acts : List Act) : Nat :=
  Arena.frees Act.after (·.heap.arena) i empty acts

def scopeFrees (i : Nat) (acts : List Act) : Nat :=
  Arena.frees Act.after (·.scopes.arena) i empty acts

open Arena (Permissive Sheds Gains Turns)

variable {α β : Type} {st : Store} {x : VarId} {id : ScopeId}

-- Stores whose arenas are related.
structure Lift (R : Arena .variable Variable → Arena .variable Variable → Prop)
    (S : Arena .scope Scope → Arena .scope Scope → Prop) (st st' : Store) : Prop where
  heap : R st.heap.arena st'.heap.arena
  scopes : S st.scopes.arena st'.scopes.arena

-- A way of changing the scopes that covers changes which leave the parents alone.
structure Framed (S : Arena .scope Scope → Arena .scope Scope → Prop) : Prop where
  refl : ∀ a, S a a
  trans : ∀ {a b c}, S a b → S b c → S a c
  modify : ∀ a id f, (∀ sc : Scope, (f sc).parent = sc.parent) → S a (a.modify id f)

theorem framed_of_permissive {S : Arena .scope Scope → Arena .scope Scope → Prop}
    (hS : Permissive S) : Framed S :=
  ⟨hS.refl, hS.trans, fun a id f _ => hS.modify a id f⟩

abbrev Along (R : Arena .variable Variable → Arena .variable Variable → Prop)
    (S : Arena .scope Scope → Arena .scope Scope → Prop) (op : StoreM α) : Prop :=
  FinLang.Along (Lift R S) op

namespace Along

variable {R : Arena .variable Variable → Arena .variable Variable → Prop}
  {S : Arena .scope Scope → Arena .scope Scope → Prop}

theorem onHeap {op : HeapM α} (hS : ∀ a, S a a) (hop : Heap.Along R op) :
    Along R S (Store.onHeap op) := by
  intro st
  rw [onHeap_iff]
  exact (hop st.heap).mono (fun _ _ h => ⟨h, hS _⟩) fun _ _ h => ⟨h, hS _⟩

section

variable (hR : Permissive R) (hS : Framed S)

include hR hS

theorem refl (st : Store) : Lift R S st st :=
  ⟨hR.refl _, hS.refl _⟩

theorem fail (c : Cause) : Along R S (Store.fail c : StoreM α) :=
  FinLang.Along.throw (refl hR hS) _

theorem readHeap (f : Heap → Except Failure α) : Along R S (Store.readHeap f) := by
  intro st
  unfold Ensures Store.readHeap
  rcases hf : f st.heap with e | a <;>
    simp [ExceptT.mk, ExceptT.run, StateT.run, hf, refl hR hS st]

theorem readScopes (f : Scopes → Except Failure α) : Along R S (Store.readScopes f) := by
  intro st
  unfold Ensures Store.readScopes
  rcases hf : f st.scopes with e | a <;>
    simp [ExceptT.mk, ExceptT.run, StateT.run, hf, refl hR hS st]

theorem bind {op : StoreM α} {k : α → StoreM β} (hop : Along R S op) (hk : ∀ a, Along R S (k a)) :
    Along R S (op >>= k) :=
  FinLang.Along.bind (R := Lift R S)
    (fun h₁ h₂ => ⟨hR.trans h₁.heap h₂.heap, hS.trans h₁.scopes h₂.scopes⟩) hop hk

theorem get : Along R S (MonadState.get : StoreM Store) :=
  FinLang.Along.get (R := Lift R S) (refl hR hS)

theorem updateScope {f : Scope → Scope} (hf : ∀ sc, (f sc).parent = sc.parent) :
    Along R S (Store.updateScope id f) := by
  refine bind hR hS (get hR hS) fun st => ?_
  split
  · exact fun st => Ensures.modify_iff.mpr ⟨hR.refl _, hS.modify _ _ _ hf⟩
  · exact fail hR hS _

theorem addVariable {name : String} {var : VarId} : Along R S (Store.addVariable id name var) := by
  unfold Store.addVariable
  have hbind : Along R S (do
      let scope ← Store.readScopes (·.lookup id)
      if (scope.varNamed? name).isSome then
        Store.fail (.duplicateVariable name)
      Store.updateScope id fun s => { s with vars := s.vars ++ [(name, var)] }
      Store.onHeap (Heap.setOwner var (.scope id)) : StoreM Unit) := by
    have hput : Along R S (do
        Store.updateScope id fun s => { s with vars := s.vars ++ [(name, var)] }
        Store.onHeap (Heap.setOwner var (.scope id)) : StoreM Unit) :=
      bind hR hS (updateScope hR hS fun _ => rfl) fun _ => onHeap hS.refl (Heap.Along.update hR)
    refine bind hR hS (readScopes hR hS _) fun sc => ?_
    split
    · exact bind hR hS (fail hR hS _) fun _ => hput
    · exact hput
  have hleft : Along R S (do
      if !(← Store.readHeap (·.isLeftValue var)) then
        Store.fail (.bindTemporary name)
      let scope ← Store.readScopes (·.lookup id)
      if (scope.varNamed? name).isSome then
        Store.fail (.duplicateVariable name)
      Store.updateScope id fun s => { s with vars := s.vars ++ [(name, var)] }
      Store.onHeap (Heap.setOwner var (.scope id)) : StoreM Unit) := by
    refine bind hR hS (readHeap hR hS _) fun flag => ?_
    split
    · exact bind hR hS (fail hR hS _) fun _ => hbind
    · exact hbind
  split
  · exact bind hR hS (fail hR hS _) fun _ => hleft
  · exact hleft

theorem addFunction {f : Function} : Along R S (Store.addFunction id f) := by
  unfold Store.addFunction
  refine bind hR hS (readScopes hR hS _) fun sc => ?_
  split
  · exact bind hR hS (fail hR hS _) fun _ => updateScope hR hS fun _ => rfl
  · exact updateScope hR hS fun _ => rfl

section

variable (hfree : ∀ x, Heap.Along R (Heap.free x))

include hfree

theorem freeBindings (vars : List (String × VarId)) : Along R S (vars.forM fun (_, var) => do
    if (← MonadState.get).heap.contains var then
      Store.onHeap (Heap.free var)) := by
  refine FinLang.Along.forM (R := Lift R S)
    (fun h₁ h₂ => ⟨hR.trans h₁.heap h₂.heap, hS.trans h₁.scopes h₂.scopes⟩) (refl hR hS) ?_ _
  rintro ⟨name, var⟩
  refine bind hR hS (get hR hS) fun st => ?_
  split
  · exact onHeap hS.refl (hfree var)
  · exact FinLang.Along.pure (refl hR hS) _

theorem destroy (herase : ∀ a, S a (a.erase id)) : Along R S (Store.destroy id) :=
  bind hR hS (readScopes hR hS _) fun _ =>
    bind hR hS (fun _ => Ensures.modify_iff.mpr ⟨hR.refl _, herase _⟩) fun _ =>
      freeBindings hR hS hfree _

end

end

end Along

theorem createScope_gains (name : String) (parent : Option ScopeId) :
    Along Gains Gains (liftM (createScope name parent) : StoreM ScopeId) :=
  fun _ => Ensures.lift_iff.mpr ⟨.refl _, Arena.gains_insert _⟩

-- Whatever is done to whatever there is, also where it fails.
theorem Act.turns (act : Act) (st : Store) : Lift Turns Turns st (act.after st) := by
  have hR := @Arena.permissive_sheds .variable Variable
  have hS := framed_of_permissive Arena.permissive_sheds
  have hgains {op : StoreM Unit} (hop : Along Gains Gains op) : Along Turns Turns op :=
    hop.mono fun h => ⟨h.heap.turns, h.scopes.turns⟩
  have hsheds {op : StoreM Unit} (hop : Along Sheds Sheds op) : Along Turns Turns op :=
    hop.mono fun h => ⟨h.heap.turns, h.scopes.turns⟩
  suffices hop : Along Turns Turns act.run from hop.after st
  cases act with
  | heap a => exact Along.onHeap .refl a.turning
  | create name parent => exact hgains (createScope_gains name parent).map
  | createChild parent name =>
    have hR := @Arena.permissive_gains .variable Variable
    have hS := framed_of_permissive Arena.permissive_gains
    exact hgains (FinLang.Along.map (Along.bind hR hS (Along.readScopes hR hS _) fun _ =>
      createScope_gains name (some parent)))
  | destroy id => exact hsheds (Along.destroy hR hS (fun _ => Heap.Along.free) fun _ => Arena.sheds_erase)
  | addVariable id name var => exact hsheds (Along.addVariable hR hS)
  | addFunction id f => exact hsheds (Along.addFunction hR hS)
  | setBelongsTo id f => exact hsheds (Along.updateScope hR hS fun _ => rfl)
  | setFigure id figure => exact hsheds (Along.updateScope hR hS fun _ => rfl)

theorem run_readScopes {f : Scopes → Except Failure α} :
    (readScopes f).run.run st = (f st.scopes, st) :=
  rfl

theorem run_readHeap {f : Heap → Except Failure α} : (readHeap f).run.run st = (f st.heap, st) :=
  rfl

theorem readHeap_ok {f : Heap → Except Failure α} {a : α} {Q : α → Store → Prop}
    {E : Failure → Store → Prop} (hf : f st.heap = .ok a) : Ensures (readHeap f) st Q E ↔ Q a st := by
  simp [Ensures, readHeap, ExceptT.mk, ExceptT.run, StateT.run, hf]

theorem readHeap_error {f : Heap → Except Failure α} {e : Failure} {Q : α → Store → Prop}
    {E : Failure → Store → Prop} (hf : f st.heap = .error e) : Ensures (readHeap f) st Q E ↔ E e st := by
  simp [Ensures, readHeap, ExceptT.mk, ExceptT.run, StateT.run, hf]

-- A scope is opened inside a living one, or nothing is done.
theorem createChild_cases (st : Store) (p : ScopeId) (name : String) :
    (∃ sc, st.scope? p = some sc) ∧
        (createChild p name).run.run st = (.ok (st.scopes.create name (some p)).1,
          { st with scopes := (st.scopes.create name (some p)).2 }) ∨
      st.scope? p = none ∧ (createChild p name).run.run st = (.error (.of (.staleScope p)), st) := by
  rcases hsc : st.scope? p with _ | sc
  · have hl : st.scopes.lookup p = .error (.of (.staleScope p)) := by simp [Scopes.lookup, hsc]
    exact .inr ⟨rfl, run_bind_of_error (Eq.trans run_readScopes (by rw [hl]))⟩
  · have hl : st.scopes.lookup p = .ok sc := by simp [Scopes.lookup, hsc]
    have hread : (readScopes (·.lookup p)).run.run st = (.ok sc, st) := Eq.trans run_readScopes (by rw [hl])
    exact .inl ⟨⟨sc, rfl⟩, run_bind_of_ok hread⟩

theorem Act.opens_insert {act : Act} (hid : act.opens st = some id) :
    ∃ sc, id = (st.scopes.arena.insert sc).1 ∧
      (act.after st).scopes.arena = (st.scopes.arena.insert sc).2 := by
  cases act with
  | create name parent =>
    cases hid
    exact ⟨_, rfl, rfl⟩
  | createChild parent name =>
    rcases createChild_cases st parent name with ⟨-, hrun⟩ | ⟨-, hrun⟩
    · have hafter : ((Act.createChild parent name).after st) = _ := Eq.trans run_discard (by rw [hrun])
      rw [Act.opens, hrun] at hid
      cases hid
      exact ⟨_, rfl, by rw [hafter]; rfl⟩
    · simp [Act.opens, hrun, Except.toOption] at hid
  | _ => cases hid

-- Scopes may have been closed and changed, but none has been opened and none has another parent.
def Inherits (a b : Arena .scope Scope) : Prop :=
  ∀ {x sc}, b.get? x = some sc → ∃ old, a.get? x = some old ∧ sc.parent = old.parent

theorem framed_inherits : Framed Inherits where
  refl _ _ _ hsc := ⟨_, hsc, rfl⟩
  trans h₁ h₂ _ _ hsc := by
    obtain ⟨mid, hmid, hp⟩ := h₂ hsc
    obtain ⟨old, hold, hp'⟩ := h₁ hmid
    exact ⟨old, hold, hp.trans hp'⟩
  modify a y f hf x sc hsc := by
    rw [Arena.get?_modify] at hsc
    split at hsc
    · obtain ⟨old, hold, rfl⟩ := Option.map_eq_some_iff.mp hsc
      exact ⟨old, hold, hf old⟩
    · exact ⟨sc, hsc, rfl⟩

theorem inherits_erase (a : Arena .scope Scope) : Inherits a (a.erase id) := by
  intro x sc hsc
  rw [Arena.get?_erase] at hsc
  split at hsc
  · cases hsc
  · exact ⟨sc, hsc, rfl⟩

-- Where a scope comes from that is there after an act.
inductive Act.Stems (st : Store) (id : ScopeId) (sc : Scope) : Act → Prop
  | old {act : Act} {old : Scope} : st.scope? id = some old → sc.parent = old.parent → Stems st id sc act
  | created {name : String} {parent : Option ScopeId} :
      (Act.create name parent).opens st = some id → sc.parent = parent →
      Stems st id sc (.create name parent)
  | child {name : String} {p : ScopeId} {outer : Scope} :
      (Act.createChild p name).opens st = some id → st.scope? p = some outer → sc.parent = some p →
      Stems st id sc (.createChild p name)

theorem create_stems {name : String} {parent : Option ScopeId} {sc : Scope}
    (hs : st.scopes.arena.Sound) (hsc : (st.scopes.create name parent).2.arena.get? id = some sc) :
    st.scope? id = some sc ∨ id = (st.scopes.create name parent).1 ∧ sc.parent = parent := by
  by_cases hid : id = (st.scopes.create name parent).1
  · subst hid
    cases (Arena.get?_insert_self hs _).symm.trans hsc
    exact .inr ⟨rfl, rfl⟩
  · exact .inl ((Arena.get?_insert_of_ne hs _ hid).symm.trans hsc)

theorem Act.stems {act : Act} {sc : Scope} (hs : st.scopes.arena.Sound)
    (hsc : (act.after st).scope? id = some sc) : act.Stems st id sc := by
  have hR : @Permissive .variable Variable fun _ _ => True :=
    ⟨fun _ => trivial, fun _ _ => trivial, fun _ _ _ => trivial⟩
  have hquiet (hop : Along (fun _ _ => True) Inherits act.run) : act.Stems st id sc := by
    obtain ⟨old, hold, hp⟩ := (hop.after st).scopes hsc
    exact .old hold hp
  cases act with
  | create name parent =>
    rcases create_stems hs hsc with hold | ⟨hid, hp⟩
    · exact .old hold rfl
    · exact .created (congrArg some hid.symm) hp
  | createChild p name =>
    rcases createChild_cases st p name with ⟨⟨outer, houter⟩, hrun⟩ | ⟨-, hrun⟩
    · have hafter : ((Act.createChild p name).after st) = _ := Eq.trans run_discard (by rw [hrun])
      rw [hafter] at hsc
      rcases create_stems hs hsc with hold | ⟨hid, hp⟩
      · exact .old hold rfl
      · refine .child ?_ houter hp
        rw [Act.opens, hrun]
        exact congrArg some hid.symm
    · have hafter : ((Act.createChild p name).after st) = st := Eq.trans run_discard (by rw [hrun])
      exact .old (hafter ▸ hsc) rfl
  | heap a => exact hquiet (Along.onHeap (framed_inherits).refl fun _ => Ensures.trivially)
  | destroy id =>
    exact hquiet (Along.destroy hR framed_inherits (fun _ _ => Ensures.trivially) inherits_erase)
  | addVariable id name var => exact hquiet (Along.addVariable hR framed_inherits)
  | addFunction id f => exact hquiet (Along.addFunction hR framed_inherits)
  | setBelongsTo id f => exact hquiet (Along.updateScope hR framed_inherits fun _ => rfl)
  | setFigure id figure => exact hquiet (Along.updateScope hR framed_inherits fun _ => rfl)

end Store

end FinLang

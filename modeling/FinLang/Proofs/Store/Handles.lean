import FinLang.Proofs.Heap.Stale
import FinLang.Proofs.Store.Acts

namespace FinLang

namespace Heap

variable {h : Heap} {x : VarId}

-- What the handle of a variable that has gone is still good for.
structure Lost (h : Heap) (x : VarId) : Prop where
  contains : h.contains x = false
  ask : ∀ q : Query, q.ask h x = .error (.of (.staleVariable x))
  equals_left : ∀ y, h.equals x y = .error (.of (.staleVariable x))
  equals_right : ∀ {y value}, h.toValue y = .ok value → h.equals y x = .error (.of (.staleVariable x))
  denied : ∀ a : Act, x ∈ a.asks → a.Denied h x
  release : (release x).run.run h = (.ok (), h)
  linksTo : h.linksTo x = []

theorem Lost.of_passed (hp : h.arena.Passed x) : h.Lost x where
  contains := by simp [Heap.contains, Arena.contains, hp.get?_eq_none]
  ask := ask_stale hp.not_live
  equals_left y := by simp [equals, toValue_stale hp.not_live, bind, Except.bind]
  equals_right hy := by simp [equals, hy, toValue_stale hp.not_live, bind, Except.bind]
  denied _ := Act.denied hp
  release := by
    have hget : (MonadState.get : HeapM Heap).run.run h = (.ok h, h) := rfl
    rw [Heap.release, run_bind_of_ok hget, hp.get?_eq_none]
    rfl
  linksTo := by simp [Heap.linksTo, hp.get?_eq_none]

end Heap

namespace Store

open Arena (Gains Turns)

variable {α : Type} {st : Store} {x : VarId} {id : ScopeId}

-- What the handle of a scope that has gone is still good for.
structure LostScope (st : Store) (id : ScopeId) : Prop where
  contains : st.scopes.contains id = false
  lookup : st.scopes.lookup id = .error (.of (.staleScope id))
  createChild : ∀ name, (createChild id name).run.run st = (.error (.of (.staleScope id)), st)
  destroy : (destroy id).run.run st = (.error (.of (.staleScope id)), st)
  addFunction : ∀ f, (addFunction id f).run.run st = (.error (.of (.staleScope id)), st)
  update : ∀ f, (updateScope id f).run.run st = (.error (.of (.staleScope id)), st)
  addVariable : ∀ name var, ∃ e, (addVariable id name var).run.run st = (.error e, st) ∧
    (name ≠ "" → st.heap.isLeftValue var = .ok true → e = .of (.staleScope id))
  search : ∀ {α : Type} (f : ScopeId → Scope → Option α), st.scopes.search f id = none
  callStack : st.scopes.callStack id = []
  figure : st.scopes.figure? id = none

structure LostVariable (st : Store) (x : VarId) : Prop extends Heap.Lost st.heap x where
  addVariable : ∀ id name, ∃ e, (addVariable id name x).run.run st = (.error e, st) ∧
    (name ≠ "" → e = .of (.staleVariable x))

theorem LostScope.of_passed (hp : st.scopes.arena.Passed id) : st.LostScope id := by
  have hlookup : st.scopes.lookup id = .error (.of (.staleScope id)) := by
    simp [Scopes.lookup, hp.get?_eq_none]
  have hcontains : st.scopes.contains id = false := by
    simp [Scopes.contains, Arena.contains, hp.get?_eq_none]
  have hread : (readScopes (·.lookup id)).run.run st = (.error (.of (.staleScope id)), st) :=
    Eq.trans run_readScopes (by rw [hlookup])
  exact {
    contains := hcontains
    lookup := hlookup
    createChild := fun _ => run_bind_of_error hread
    destroy := run_bind_of_error hread
    addFunction := fun _ => run_bind_of_error hread
    update := fun f => by
      have hget : (MonadState.get : StoreM Store).run.run st = (.ok st, st) := rfl
      rw [updateScope, run_bind_of_ok hget, hcontains]
      rfl
    addVariable := fun name var => by
      by_cases hname : name = ""
      · subst hname
        exact ⟨_, rfl, fun h => absurd rfl h⟩
      have hempty : name.isEmpty = false := by simpa using hname
      rcases hleft : st.heap.isLeftValue var with e | flag
      · refine ⟨e, ?_, fun _ h => by simp at h⟩
        rw [Store.addVariable, hempty]
        exact run_bind_of_error (Eq.trans run_readHeap (by rw [hleft]))
      · have hflag : (readHeap (·.isLeftValue var)).run.run st = (.ok flag, st) :=
          Eq.trans run_readHeap (by rw [hleft])
        rw [Store.addVariable, hempty]
        cases flag with
        | false => exact ⟨_, run_bind_of_ok hflag, fun _ h => by simp at h⟩
        | true => exact ⟨_, (run_bind_of_ok hflag).trans (run_bind_of_error hread), fun _ _ => rfl⟩
    search := fun f => by simp [Scopes.search, Scopes.searchWithin, hp.get?_eq_none]
    callStack := by simp [Scopes.callStack, Scopes.callStackWithin, hp.get?_eq_none]
    figure := by simp [Scopes.figure?, hp.get?_eq_none] }

theorem LostVariable.of_passed (hp : st.heap.arena.Passed x) : st.LostVariable x where
  toLost := .of_passed hp
  addVariable id name := by
    by_cases hname : name = ""
    · subst hname
      exact ⟨_, rfl, fun h => absurd rfl h⟩
    have hempty : name.isEmpty = false := by simpa using hname
    have hleft : st.heap.isLeftValue x = .error (.of (.staleVariable x)) :=
      Heap.ask_stale hp.not_live .isLeftValue
    refine ⟨.of (.staleVariable x), ?_, fun _ => rfl⟩
    rw [Store.addVariable, hempty]
    exact run_bind_of_error (Eq.trans run_readHeap (by rw [hleft]))

theorem not_contains_free : ((Act.heap (.op (.free x))).after st).heap.contains x = false :=
  Along.after (R := fun _ st' => st'.heap.contains x = false)
    (fun _ => onHeap_iff.mpr (Heap.Along.free_gone _ x)) st

theorem not_contains_destroy : ((Act.destroy id).after st).scopes.contains id = false := by
  refine FinLang.Along.after (R := fun _ st' => st'.scopes.contains id = false) (fun st => ?_) st
  rw [Act.run, destroy, Ensures.bind_iff]
  rcases hsc : st.scope? id with _ | sc
  · refine (readScopes_lookup_stale hsc).mpr ?_
    simp [Scopes.contains, Arena.contains, hsc]
  refine (readScopes_lookup hsc).mpr (Ensures.bind_iff.mpr (Ensures.modify_iff.mpr ?_))
  have hgone : (st.scopes.arena.erase id).contains id = false := by
    simp [Arena.contains, Arena.get?_erase_self]
  have hfrees := Along.freeBindings Arena.permissive_sheds (framed_of_permissive Arena.permissive_sheds)
    (fun _ => Heap.Along.free) sc.vars
  exact (hfrees _).mono (fun _ _ hs => hs.scopes.contains hgone) fun _ _ hs => hs.scopes.contains hgone

-- A handle in the course of a run: when it is in use, which act gives it out, which one frees it,
-- and what it is when it has gone.
structure NeverReused (live : Store → Bool) (Gives : Store → Act → Prop) (free : Act)
    (Lost : Store → Prop) (acts : List Act) : Prop where
  given : ∀ {early act}, early ++ [act] <+: acts → Gives (afterAll early) act →
    live (afterAll (early ++ [act])) = true
  fresh : ∀ {early before act}, early ++ [act] <+: acts → Gives (afterAll early) act →
    before <+: early → live (afterAll before) = false
  -- The same of what comes into use otherwise, as an element does.
  new : ∀ {early before act}, early ++ [act] <+: acts → live (afterAll early) = false →
    live (afterAll (early ++ [act])) = true → before <+: early → live (afterAll before) = false
  once : ∀ {early later act act'}, early ++ [act] <+: later → later ++ [act'] <+: acts →
    Gives (afterAll early) act → ¬Gives (afterAll later) act'
  freed : ∀ {early}, early ++ [free] <+: acts → live (afterAll (early ++ [free])) = false
  lost : ∀ {early later}, early <+: later → later <+: acts → live (afterAll early) = true →
    live (afterAll later) = false → Lost (afterAll acts)

variable {acts early later : List Act} {act : Act}

theorem afterAll_append : afterAll (early ++ [act]) = act.after (afterAll early) :=
  Arena.run_append

section

variable {k : HandleKind} (part : Store → Arena k α) {h : Handle k} {Gives : Store → Act → Prop}
  {free : Act} {Lost : Store → Prop}

-- One argument for both kinds of handles.
theorem NeverReused.of_turns (hturn : ∀ (act : Act) (st : Store), Turns (part st) (part (act.after st)))
    (hempty : (part empty).Sound)
    (hgives : ∀ {st : Store} {act : Act}, Gives st act →
      ∃ e, h = ((part st).insert e).1 ∧ Gains ((part st).insert e).2 (part (act.after st)))
    (hfree : ∀ st : Store, (part (free.after st)).contains h = false)
    (hlost : ∀ {st : Store}, (part st).Passed h → Lost st)
    (hfew : Arena.frees Act.after part h.index empty acts < 2 ^ 32) :
    NeverReused (fun st => (part st).contains h) Gives free Lost acts := by
  have hsound : ∀ early, (part (afterAll early)).Sound := fun early => Arena.sound_run hturn hempty
  have hfew' : ∀ {early}, early <+: acts → Arena.frees Act.after part h.index empty early < 2 ^ 32 := by
    rintro early ⟨rest, rfl⟩
    rw [Arena.frees_append] at hfew
    omega
  have hgiven : ∀ {early act}, Gives (afterAll early) act →
      (part (afterAll (early ++ [act]))).contains h = true := by
    intro early act hg
    obtain ⟨e, rfl, hgains⟩ := hgives hg
    rw [afterAll_append]
    exact hgains.contains (Arena.contains_iff.mpr ⟨e, Arena.get?_insert_self (hsound early) e⟩)
  have hfresh : ∀ {early before act}, early ++ [act] <+: acts → Gives (afterAll early) act →
      before <+: early → (part (afterAll before)).contains h = false := by
    intro early before act hacts hg hbefore
    obtain ⟨e, he, -⟩ := hgives hg
    exact Arena.insert_new hturn hempty hbefore he.symm
      (hfew' ((List.prefix_append early [act]).trans hacts))
  exact {
    given := fun _ hg => hgiven hg
    fresh := hfresh
    new := fun {early before act} hacts hgone hc hbefore => by
      cases hold : (part (afterAll before)).contains h with
      | false => rfl
      | true =>
        have hp := Arena.passed_of_prefix hturn hbefore (List.prefix_append early [act]) hold hgone
          (hfew' hacts)
        obtain ⟨e, he⟩ := Arena.contains_iff.mp hc
        cases hp.get?_eq_none.symm.trans he
    once := fun hlater hacts hg hg' => by
      cases (hgiven hg).symm.trans (hfresh hacts hg' hlater)
    freed := fun {early} _ => by
      rw [afterAll_append]
      exact hfree _
    lost := fun hearly hlater hc hgone =>
      hlost (Arena.passed_of_prefix hturn hearly hlater hc hgone hfew) }

end

theorem variable_never_reused (hfew : variableFrees x.index acts < 2 ^ 32) :
    NeverReused (·.heap.contains x) (fun st act => act.allots st = some x) (.heap (.op (.free x)))
      (·.LostVariable x) acts := by
  refine NeverReused.of_turns (fun st => st.heap.arena) (fun act st => (act.turns st).heap)
    Arena.sound_empty ?_ (fun _ => not_contains_free) LostVariable.of_passed hfew
  intro st act hg
  cases act with
  | heap a => exact Heap.Act.allots_insert hg
  | _ => cases hg

theorem scope_never_reused (hfew : scopeFrees id.index acts < 2 ^ 32) :
    NeverReused (·.scopes.contains id) (fun st act => act.opens st = some id) (.destroy id)
      (·.LostScope id) acts := by
  refine NeverReused.of_turns (fun st => st.scopes.arena) (fun act st => (act.turns st).scopes)
    Arena.sound_empty ?_ (fun _ => not_contains_destroy) LostScope.of_passed hfew
  intro st act hg
  obtain ⟨sc, hid, hafter⟩ := Act.opens_insert hg
  exact ⟨sc, hid, hafter ▸ .refl _⟩

end Store

end FinLang

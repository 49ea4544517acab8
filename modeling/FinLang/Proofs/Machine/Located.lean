import FinLang.Machine.Run
import FinLang.Proofs.Heap.Bare
import FinLang.Proofs.Machine.Upkeep
import FinLang.Proofs.Tree.Spans

namespace FinLang

namespace Arena

variable {k : HandleKind} {α : Type} {Q : α → Prop} {a : Arena k α} {h : Handle k} {e : α}

-- All entries are of a kind, those that only a stale handle names included.
def All (Q : α → Prop) (a : Arena k α) : Prop :=
  ∀ slot ∈ a.slots, ∀ e ∈ slot.entry, Q e

theorem all_modify_slots {f : Slot α → Slot α} {slots : Array (Slot α)} {i : Nat}
    (ha : ∀ slot ∈ slots, ∀ e ∈ slot.entry, Q e)
    (hf : ∀ slot ∈ slots, ∀ e ∈ (f slot).entry, Q e) :
    ∀ slot ∈ slots.modify i f, ∀ e ∈ slot.entry, Q e := by
  intro slot hslot
  obtain ⟨j, hj, rfl⟩ := Array.mem_iff_getElem.mp hslot
  have hj' : j < slots.size := by simpa using hj
  rw [Array.getElem_modify]
  split
  · exact hf _ (Array.getElem_mem hj')
  · exact ha _ (Array.getElem_mem hj')

theorem All.get? (ha : a.All Q) (hget : a.get? h = some e) : Q e := by
  unfold Arena.get? at hget
  split at hget
  · rename_i slot hslot
    split at hget
    · exact ha slot (Array.mem_of_getElem? hslot) e hget
    · cases hget
  · cases hget

theorem All.insert (ha : a.All Q) (he : Q e) : (a.insert e).2.All Q := by
  unfold Arena.insert
  split
  · refine all_modify_slots ha fun slot _ e' he' => ?_
    cases he'
    exact he
  · intro slot hslot
    rcases Array.mem_push.mp hslot with hslot | rfl
    · exact ha slot hslot
    · intro e' he'
      cases he'
      exact he

theorem All.modify {f : α → α} (ha : a.All Q) (hf : ∀ e, Q e → Q (f e)) : (a.modify h f).All Q := by
  simp only [All, Arena.modify]
  refine all_modify_slots ha fun slot hslot e he => ?_
  split at he
  · obtain ⟨e', he', rfl⟩ := Option.map_eq_some_iff.mp he
    exact hf e' (ha slot hslot e' he')
  · exact ha slot hslot e he

theorem All.erase (ha : a.All Q) : (a.erase h).All Q := by
  unfold Arena.erase
  split
  · exact all_modify_slots ha fun _ _ _ he => nomatch he
  · exact ha

-- An entry is seen through the handle that its slot has given out last.
theorem all_of_get? (ha : ∀ h e, a.get? h = some e → Q e) : a.All Q := by
  intro slot hslot e he
  obtain ⟨i, hi, rfl⟩ := Array.mem_iff_getElem.mp hslot
  refine ha ⟨i, a.slots[i].generation⟩ e ?_
  simp only [Arena.get?, Array.getElem?_eq_getElem hi, if_true]
  exact he

end Arena

variable {α β : Type} {size : Nat} {F : Function → Prop} {Q R : α → Prop}

def Failure.Inside (size : Nat) (f : Failure) : Prop :=
  ∀ s ∈ f.span, s.Inside size

def Halt.Inside (size : Nat) : Halt → Prop
  | .failure f => f.Inside size
  | .outOfFuel => True

def Function.Inside (size : Nat) (f : Function) : Prop :=
  ∀ block, f.body = .script block → block.Inside size

-- Every function that is defined is of a kind.
def Scopes.Known (F : Function → Prop) (s : Scopes) : Prop :=
  s.arena.All fun sc => ∀ f ∈ sc.funcs, F f

-- Here it lies in the source.
abbrev Run.Known (size : Nat) (r : Run) : Prop :=
  r.machine.store.scopes.Known (Function.Inside size)

theorem Failure.inside_of_none {f : Failure} (h : f.span = none) : f.Inside size := by
  rw [Failure.Inside, h]
  exact nofun

theorem Scopes.Known.find {s : Scopes} {id : ScopeId} {name : String} {f : Function} (hs : s.Known F)
    (hf : s.findFunction id name = some f) : F f := by
  obtain ⟨t, sc, hsc, hfound⟩ := @Scopes.exists_of_search _ ⟨.empty, s⟩ _ _ _ hf
  exact hs.get? hsc f (List.mem_of_find?_eq_some hfound)

namespace Store

-- An operation of the store that gives its failures no place and defines no
-- function of another kind.
def Careful (F : Function → Prop) (x : StoreM α) : Prop :=
  ∀ st : Store, st.scopes.Known F → Ensures x st (fun _ st' => st'.scopes.Known F)
    fun e st' => e.span = none ∧ st'.scopes.Known F

namespace Careful

variable {scope : ScopeId} {x : VarId}

theorem pure (a : α) : Careful F (Pure.pure a : StoreM α) :=
  fun _ hs => hs

theorem fail (c : Cause) : Careful F (Store.fail c : StoreM α) :=
  fun _ hs => ⟨rfl, hs⟩

theorem bind {x : StoreM α} {k : α → StoreM β} (hx : Careful F x) (hk : ∀ a, Careful F (k a)) :
    Careful F (x >>= k) :=
  fun st hs => (hx st hs).bind fun a st' hs' => hk a st' hs'

theorem get : Careful F (MonadState.get : StoreM Store) :=
  fun _ hs => hs

theorem modified {f : Store → Store} (hf : ∀ st, st.scopes.Known F → (f st).scopes.Known F) :
    Careful F (modify f : StoreM Unit) :=
  fun st hs => hf st hs

theorem forM {f : α → StoreM Unit} (hf : ∀ a, Careful F (f a)) (l : List α) :
    Careful F (l.forM f) :=
  fun _ hs => Ensures.forM (fun _ st => st.scopes.Known F) (fun a _ st hs => hf a st hs) l _ hs

theorem onHeap {op : HeapM α} (hop : Placeless op) : Careful F (Store.onHeap op) :=
  fun _ hs => Store.onHeap_iff.mpr ((hop _).mono (fun _ _ _ => hs) fun _ _ he => ⟨he, hs⟩)

theorem ofBare {x : Except Failure α} (hx : Bare x) :
    ∀ st : Store, st.scopes.Known F → Ensures (ExceptT.mk fun s => (x, s) : StoreM α) st
      (fun _ st' => st'.scopes.Known F) fun e st' => e.span = none ∧ st'.scopes.Known F := by
  intro st hs
  cases x with
  | ok a => exact hs
  | error e => exact ⟨hx e rfl, hs⟩

theorem readHeap {f : Heap → Except Failure α} (hf : ∀ h, Bare (f h)) : Careful F (Store.readHeap f) :=
  fun st hs => ofBare (hf st.heap) st hs

theorem lookup_bare {s : Scopes} : Bare (s.lookup scope) := by
  unfold Scopes.lookup
  split
  · exact .ok _
  · exact .error _

theorem readScope : Careful F (Store.readScopes (·.lookup scope)) :=
  fun st hs => ofBare (x := st.scopes.lookup scope) lookup_bare st hs

theorem updateScope {f : Scope → Scope} (hf : ∀ sc, (∀ g ∈ sc.funcs, F g) →
    ∀ g ∈ (f sc).funcs, F g) : Careful F (Store.updateScope scope f) := by
  refine .bind get fun st => ?_
  split
  · exact modified fun _ hs => Arena.All.modify hs hf
  · exact fail _

theorem createChild {name : String} : Careful F (Store.createChild scope name) :=
  .bind readScope fun _ _ hs => Ensures.lift_iff.mpr (hs.insert nofun)

theorem destroy : Careful F (Store.destroy scope) := by
  have herase : Careful F
      (modify fun s => { s with scopes := ⟨s.scopes.arena.erase scope⟩ } : StoreM Unit) :=
    modified fun _ hs => Arena.All.erase hs
  refine .bind readScope fun sc => herase.bind fun _ => forM (fun b => ?_) _
  refine .bind get fun st => ?_
  split
  · exact onHeap Heap.free_placeless
  · exact pure _

theorem addVariable {name : String} : Careful F (Store.addVariable scope name x) := by
  have hbind : Careful F (do
      let scope' ← Store.readScopes (·.lookup scope)
      if (scope'.varNamed? name).isSome then
        Store.fail (.duplicateVariable name)
      Store.updateScope scope fun s => { s with vars := s.vars ++ [(name, x)] }
      Store.onHeap (Heap.setOwner x (.scope scope))) := by
    have hput : Careful F (do
        Store.updateScope scope fun s => { s with vars := s.vars ++ [(name, x)] }
        Store.onHeap (Heap.setOwner x (.scope scope))) :=
      (updateScope (f := fun s => { s with vars := s.vars ++ [(name, x)] }) fun _ h => h).bind
        fun _ => onHeap (Heap.update_placeless (f := fun v => { v with owner := .scope scope }))
    refine .bind readScope fun sc => ?_
    split
    · exact (fail _).bind fun _ => hput
    · exact hput
  have hleft : Careful F (do
      if !(← Store.readHeap (·.isLeftValue x)) then
        Store.fail (.bindTemporary name)
      let scope' ← Store.readScopes (·.lookup scope)
      if (scope'.varNamed? name).isSome then
        Store.fail (.duplicateVariable name)
      Store.updateScope scope fun s => { s with vars := s.vars ++ [(name, x)] }
      Store.onHeap (Heap.setOwner x (.scope scope))) := by
    refine (readHeap fun _ => Heap.isLeftValue_bare).bind fun b => ?_
    split
    · exact (fail _).bind fun _ => hbind
    · exact hbind
  unfold Store.addVariable
  split
  · exact (fail _).bind fun _ => hleft
  · exact hleft

theorem addFunction {f : Function} (hf : F f) : Careful F (Store.addFunction scope f) := by
  have hput : Careful F (Store.updateScope scope fun s => { s with funcs := s.funcs ++ [f] }) := by
    refine updateScope fun sc h g hg => ?_
    rcases List.mem_append.mp hg with hg | hg
    · exact h g hg
    · cases List.mem_singleton.mp hg
      exact hf
  refine .bind readScope fun sc => ?_
  split
  · exact (fail _).bind fun _ => hput
  · exact hput

theorem setBelongsTo {f : Function} : Careful F (Store.setBelongsTo scope f) :=
  updateScope fun _ h => h

theorem declare {name : String} : Careful F (Store.declare scope name x) := by
  refine (onHeap Heap.setLeftValue_placeless).bind fun _ st hs => ?_
  rw [Ensures.tryCatch_iff]
  refine (addVariable st hs).mono (fun _ _ h => h) fun e st' he => ?_
  exact ((onHeap Heap.free_placeless) st' he.2).bind fun _ st'' hs'' => ⟨he.1, hs''⟩

end Careful

end Store

-- A part whose failures, where they have a place, have one in the source, and
-- that defines no function from elsewhere.
def Careful (size : Nat) (Q : α → Prop) (x : Exec α) : Prop :=
  ∀ r : Run, r.Known size → Ensures x r (fun a r' => Q a ∧ r'.Known size)
    fun e r' => e.Inside size ∧ r'.Known size

-- The same of a part whose result does not matter.
abbrev Mindful (size : Nat) (x : Exec α) : Prop :=
  Careful size (fun _ => True) x

namespace Careful

theorem pure {a : α} (ha : Q a) : Careful size Q (Pure.pure a : Exec α) :=
  fun _ hr => ⟨ha, hr⟩

theorem mono {x : Exec α} (hx : Careful size Q x) (hq : ∀ a, Q a → R a) : Careful size R x :=
  fun r hr => (hx r hr).mono (fun a _ h => ⟨hq a h.1, h.2⟩) fun _ _ he => he

theorem any {x : Exec α} (hx : Careful size Q x) : Mindful size x :=
  hx.mono fun _ _ => trivial

theorem bind {x : Exec α} {k : α → Exec β} {R : β → Prop} (hx : Careful size Q x)
    (hk : ∀ a, Q a → Careful size R (k a)) : Careful size R (x >>= k) :=
  fun r hr => (hx r hr).bind fun a r' h => hk a h.1 r' h.2

theorem fail (c : Cause) : Careful size Q (Exec.fail c : Exec α) :=
  fun _ hr => ⟨Failure.inside_of_none rfl, hr⟩

theorem outOfFuel : Careful size Q (Exec.outOfFuel : Exec α) :=
  fun _ hr => ⟨trivial, hr⟩

theorem throw {f : Failure} (hf : f.Inside size) : Careful size Q (throw (.failure f) : Exec α) :=
  fun _ hr => ⟨hf, hr⟩

theorem ofExcept {x : Except Failure α} (hx : ∀ f, x = .error f → f.Inside size)
    (hq : ∀ a, x = .ok a → Q a) : Careful size Q (Exec.ofExcept x) := by
  cases x with
  | ok a => exact pure (hq a rfl)
  | error f => exact throw (hx f rfl)

theorem ofBare {x : Except Failure α} (hx : Bare x) (hq : ∀ a, x = .ok a → Q a) :
    Careful size Q (Exec.ofExcept x) :=
  ofExcept (fun f hf => Failure.inside_of_none (hx f hf)) hq

theorem get : Careful size (Run.Known size) (MonadState.get : Exec Run) :=
  fun _ hr => ⟨hr, hr⟩

theorem modified {f : Run → Run} (hf : ∀ r, (f r).machine.store.scopes = r.machine.store.scopes) :
    Mindful size (modify f : Exec Unit) :=
  fun r hr => ⟨trivial, by rw [Run.Known, hf]; exact hr⟩

theorem modifyMachine {f : Machine → Machine} (hf : ∀ m, (f m).store = m.store) :
    Mindful size (Exec.modifyMachine f) :=
  modified fun r => by rw [hf]

theorem flow : Mindful size Exec.flow :=
  fun _ hr => ⟨trivial, hr⟩

theorem setFlow {f : Flow} : Mindful size (Exec.setFlow f) :=
  modified fun _ => rfl

theorem setKind {k : FlowKind} : Mindful size (Exec.setKind k) :=
  modified fun _ => rfl

theorem isNext : Mindful size Interpreter.isNext :=
  .bind flow fun _ _ => pure trivial

theorem onStore {op : StoreM α} (hop : Store.Careful (Function.Inside size) op) : Mindful size (Exec.onStore op) :=
  fun r hr => Exec.onStore_iff.mpr ((hop r.machine.store hr).mono (fun _ _ h => ⟨trivial, h⟩)
    fun _ _ he => ⟨Failure.inside_of_none he.1, he.2⟩)

theorem onHeap {op : HeapM α} (hop : Placeless op) : Mindful size (Exec.onHeap op) :=
  onStore (.onHeap hop)

theorem readHeap {f : Heap → Except Failure α} (hf : ∀ h, Bare (f h)) : Mindful size (Exec.readHeap f) :=
  .bind get fun _ _ => ofBare (hf _) fun _ _ => trivial

theorem readScope {scope : ScopeId} : Mindful size (Exec.readScopes (·.lookup scope)) :=
  .bind get fun _ _ => ofBare Store.Careful.lookup_bare fun _ _ => trivial

theorem release {id : VarId} : Mindful size (Exec.release id) :=
  onHeap Heap.release_placeless

theorem optionForM {f : α → Exec Unit} (hf : ∀ a, Mindful size (f a)) (o : Option α) :
    Mindful size (o.forM f) := by
  cases o with
  | none => exact pure trivial
  | some a => exact hf a

theorem forM {f : α → Exec Unit} (hf : ∀ a, Mindful size (f a)) (l : List α) :
    Mindful size (l.forM f) :=
  fun r hr => (Ensures.forM (fun _ r => r.Known size)
    (fun a _ r hr => (hf a r hr).mono (fun _ _ h => h.2) fun _ _ he => he) l r hr).mono
      (fun _ _ h => ⟨trivial, h⟩) fun _ _ he => he

theorem mapM {f : α → Exec β} (hf : ∀ a, Mindful size (f a)) (l : List α) : Mindful size (l.mapM f) := by
  induction l with
  | nil => exact pure trivial
  | cons a l ih =>
    rw [List.mapM_cons]
    exact (hf a).bind fun _ _ => ih.bind fun _ _ => pure trivial

theorem carry {result : Option VarId} :
    Mindful size (modify fun r => { r with flow := { r.flow with result := result } } : Exec Unit) :=
  modified fun _ => rfl

theorem setResult {id : VarId} : Mindful size (Exec.setResult id) :=
  .bind flow fun _ _ => .bind carry fun _ _ => optionForM (fun _ => release) _

theorem takeResult : Mindful size Exec.takeResult :=
  .bind flow fun _ _ => .bind carry fun _ _ => pure trivial

theorem attempt {x : Exec α} (hx : Careful size Q x) :
    Careful size (fun e => (∀ a, e = .ok a → Q a) ∧ ∀ f, e = .error f → f.Inside size)
      (Exec.attempt x) := by
  intro r hr
  rw [Exec.attempt_iff]
  refine (hx r hr).mono ?_ ?_
  · rintro a r' ⟨ha, hr'⟩
    refine ⟨⟨fun b hb => ?_, fun f hf => ?_⟩, hr'⟩
    · cases hb
      exact ha
    · cases hf
  · rintro (f | _) r' ⟨hf, hr'⟩
    · refine ⟨⟨fun b hb => ?_, fun g hg => ?_⟩, hr'⟩
      · cases hb
      · cases hg
        exact hf
    · exact ⟨trivial, hr'⟩

theorem onFailure {x : Exec α} {cleanup : Exec Unit} (hx : Careful size Q x)
    (hclean : Mindful size cleanup) : Careful size Q (Exec.onFailure x cleanup) := by
  refine hx.attempt.bind fun e he => ?_
  cases e with
  | ok a => exact pure (he.1 a rfl)
  | error f => exact hclean.bind fun _ _ => throw (he.2 f rfl)

theorem located {s : Option Span} {x : Exec α} (hs : ∀ t ∈ s, t.Inside size) (hx : Careful size Q x) :
    Careful size Q (Exec.located s x) := by
  intro r hr
  rw [Exec.located_iff]
  refine (hx r hr).mono (fun _ _ h => h) ?_
  rintro (f | _) r' ⟨hf, hr'⟩
  · refine ⟨?_, hr'⟩
    cases s with
    | none => exact hf
    | some t =>
      intro u hu
      rcases hspan : f.span with _ | v
      · simp only [Option.elim_some, Failure.locate, hspan] at hu
        cases hu
        exact hs t rfl
      · simp only [Option.elim_some, Failure.locate, hspan] at hu
        cases hu
        exact hf _ hspan
  · exact ⟨trivial, hr'⟩

theorem leaveBody : Mindful size Exec.leaveBody := by
  refine .bind flow fun fl _ => (ofBare ?_ fun _ _ => trivial).bind fun _ (_ : True) => setFlow
  unfold Flow.leaveBody
  split <;> first | exact .ok _ | exact .error _

theorem withFreshFlow {x : Exec Unit} (hx : Mindful size x) : Mindful size (Exec.withFreshFlow x) := by
  refine .bind flow fun _ _ => .bind setFlow fun _ _ => hx.attempt.bind fun e he => ?_
  cases e with
  | ok a => exact .bind flow fun _ _ => .bind setFlow fun _ _ => pure trivial
  | error f => exact .bind setFlow fun _ _ => throw (he.2 f rfl)

theorem own {id : VarId} : Mindful size (Exec.own id) := by
  refine (readHeap fun _ => Heap.lookup_bare).bind fun v _ => ?_
  split
  · exact pure trivial
  · exact (onHeap Heap.duplicate_placeless).bind fun _ _ => .bind release fun _ _ => pure trivial

theorem rescueResult {scope : ScopeId} : Mindful size (Exec.rescueResult scope) := by
  refine .bind flow fun fl _ => ?_
  split
  · exact pure trivial
  · refine (readHeap fun _ => Heap.resolve_bare).bind fun _ _ =>
      (readHeap fun _ => Heap.owningScope_bare).bind fun _ _ => ?_
    split
    · exact (onHeap Heap.duplicate_placeless).bind fun _ _ =>
        (onHeap Heap.update_placeless).bind fun _ _ => setResult
    · split
      · exact setResult
      · exact pure trivial

theorem leaveScope {scope : ScopeId} {ended : Except Failure Unit}
    (hended : ∀ f, ended = .error f → f.Inside size) : Mindful size (Exec.leaveScope scope ended) := by
  have hleave : ∀ e : Except Failure Unit, (∀ f, e = .error f → f.Inside size) → Mindful size (do
      let destroyed ← Exec.attempt (Exec.onStore (Store.destroy scope))
      Exec.ofExcept e
      Exec.ofExcept destroyed) := fun e he =>
    (onStore Store.Careful.destroy).attempt.bind fun d hd =>
      (ofExcept he fun _ _ => trivial).bind fun _ (_ : True) => ofExcept hd.2 fun _ _ => trivial
  have hfailed : ∀ f : Failure, f.Inside size → Mindful size (do
      (← Exec.takeResult).forM Exec.release
      let destroyed ← Exec.attempt (Exec.onStore (Store.destroy scope))
      Exec.ofExcept (.error f)
      Exec.ofExcept destroyed) := fun f hf =>
    .bind takeResult fun _ _ => (optionForM (fun _ => release) _).bind fun _ _ =>
      hleave (.error f) fun g hg => by cases hg; exact hf
  unfold Exec.leaveScope
  rcases ended with f | _
  · exact hfailed f (hended f rfl)
  · refine .bind (.attempt rescueResult) fun e he => ?_
    rcases e with f | _
    · exact hfailed f (he.2 f rfl)
    · exact hleave _ fun f hf => by cases hf

theorem withScope {parent : ScopeId} {name : String} {part : ScopeId → Exec Unit}
    (hpart : ∀ s, Mindful size (part s)) : Mindful size (Exec.withScope parent name part) :=
  (onStore Store.Careful.createChild).bind fun s _ => (hpart s).attempt.bind fun _ he => leaveScope he.2

end Careful

end FinLang
